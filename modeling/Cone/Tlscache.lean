import Cone.Lib.ByteFile

/-! # The TLS session cache

The cache file of tcpd/tlscache.c: objects are written from the end of the file to its beginning and
around again, each in front of the one before, and the oldest make room.  Reading, writing and
allocating do not fail here, and a value is a buffer in memory, so no sum of sizes wraps.  What is
walked is read at its position, which is what the buffer of `buf_read` amounts to. -/
set_option autoImplicit false
namespace Cone.Tlscache

open Cone.Lib.ByteFile

section Records

structure Hdr where
  filesize : Nat
  head : Nat
  tail : Nat
  first : Nat
  deriving DecidableEq, Repr

structure Obj where
  prev_size : Nat
  my_size : Nat
  deriving DecidableEq, Repr

def TLSCACHEMINSIZE : Nat := 16384

/-- `sizeof(struct hdr)` -/
abbrev HDR : Nat := 32

/-- `sizeof(struct obj)` -/
abbrev OBJ : Nat := 16

/-- The word is a negative `off_t`. -/
def negative (n : Nat) : Bool := 2 ^ 63 ≤ n

def Hdr.bytes (h : Hdr) : Bytes :=
  word h.filesize ++ (word h.head ++ (word h.tail ++ word h.first))

def Hdr.ofBytes (b : Bytes) : Hdr :=
  ⟨unword (b.take 8), unword ((b.drop 8).take 8), unword ((b.drop 16).take 8),
    unword ((b.drop 24).take 8)⟩

def Hdr.sane (h : Hdr) : Bool :=
  !(negative h.filesize || h.filesize < TLSCACHEMINSIZE || h.head ≥ h.filesize ||
    h.tail ≥ h.filesize || h.first ≥ h.filesize || negative h.head || negative h.tail ||
    negative h.first || h.first > h.head || h.first > h.tail)

/-- Nothing is the answer -1. -/
def readhdr (file : Bytes) : Option Hdr :=
  (readAt file 0 HDR).bind fun b => if (Hdr.ofBytes b).sane then some (Hdr.ofBytes b) else none

def writehdr (file : Bytes) (h : Hdr) : Bytes := writeAt file 0 h.bytes

def Obj.ofBytes (b : Bytes) : Obj := ⟨unword (b.take 8), unword (b.drop 8)⟩

def Obj.sane (o : Obj) (w : Nat) (h : Hdr) : Bool :=
  !(o.prev_size < OBJ || o.my_size < OBJ || o.prev_size ≥ h.filesize || o.my_size ≥ h.filesize ||
    h.filesize - w < o.my_size)

def readobj (file : Bytes) (w : Nat) (h : Hdr) : Option Obj :=
  (readAt file w OBJ).bind fun b =>
    if (Obj.ofBytes b).sane w h then some (Obj.ofBytes b) else none

end Records

section Adding

inductive Space where
  | place (h : Hdr) (first : Bool)
  | full
  | corrupt
  deriving DecidableEq, Repr

def findRoom (file : Bytes) (h : Hdr) (vallen : Nat) : Option Space :=
  if h.head = 0 ∧ h.tail = 0 then
    if vallen + OBJ + HDR > h.filesize then some .full
    else
      some (.place { h with
        head := h.filesize - vallen - OBJ
        tail := h.filesize - vallen - OBJ } true)
  else if h.head ≤ h.tail then -- Not wrapped around
    if h.head ≥ HDR + OBJ + vallen then
      some (.place { h with head := h.head - (OBJ + vallen) } false)
    else
      match readobj file h.tail h with
      | none => some .corrupt
      | some o =>
        if h.filesize - h.tail - o.my_size ≥ OBJ + vallen then
          some (.place { h with first := h.head, head := h.filesize - vallen - OBJ } false)
        else none
  else
    match readobj file h.tail h with
    | none => some .corrupt
    | some o =>
      if h.head ≥ h.tail + o.my_size + OBJ + vallen then
        some (.place { h with head := h.head - (OBJ + vallen) } false)
      else none

def pop (file : Bytes) (h : Hdr) : Option Hdr :=
  (readobj file h.tail h).bind fun o =>
    if HDR + o.prev_size ≤ h.tail then some { h with tail := h.tail - o.prev_size }
    else if h.tail ≠ h.first then none
    else
      let h := { h with first := 0, tail := h.filesize - o.prev_size }
      if h.tail < h.first then none else some h

def allocate : Nat → Bytes → Hdr → Nat → Space × Bytes
  | 0, file, _, _ => (.corrupt, file)
  | timer + 1, file, h, vallen =>
    match findRoom file h vallen with
    | some space => (space, file)
    | none =>
      if h.head = h.tail then (.full, file)
      else
        match pop file h with
        | none => (.corrupt, file)
        | some h => allocate timer (writehdr file h) h vallen

def store (file : Bytes) (h : Hdr) (first : Bool) (val : Bytes) : Bytes :=
  let my_size := val.length + OBJ
  let obj := word 0 ++ (word my_size ++ val)
  if h.head + OBJ + val.length < h.filesize then writeAt file h.head (obj ++ word my_size)
  else
    let file := writeAt file h.head obj
    if first then file else writeAt file h.first (word my_size)

inductive Added where
  | stored
  | nospace
  | corrupt
  deriving DecidableEq, Repr

def doadd (file : Bytes) (val : Bytes) : Added × Bytes :=
  match readhdr file with
  | none => (.corrupt, file)
  | some h =>
    match allocate 100 file h val.length with
    | (.corrupt, file) => (.corrupt, file)
    | (.full, file) => (.nospace, file)
    | (.place h first, file) => (.stored, writehdr (store file h first val) h)

end Adding

section Walking
variable {A : Type}

structure Visit (A : Type) where
  rc : Int
  doupdate : Bool
  record : Bytes
  arg : A

structure Walker (A : Type) where
  visit : Bytes → A → Visit A
  in_place : ∀ record arg, (visit record arg).record.length = record.length

def readrec (file : Bytes) (h : Hdr) (pos : Nat) : Option (Nat × Bytes) :=
  if h.filesize - pos < OBJ then none
  else
    (readAt file pos OBJ).bind fun b =>
      let my_size := (Obj.ofBytes b).my_size
      if h.filesize - pos < my_size ∨ my_size < OBJ then none
      else (readAt file (pos + OBJ) (my_size - OBJ)).map fun record => (my_size, record)

def next (h : Hdr) (lastpos my_size : Nat) : Option Nat :=
  let pos := lastpos + my_size
  if pos < h.filesize then if lastpos < h.tail ∧ pos > h.tail then none else some pos
  else if h.first < HDR then none
  else some h.first

abbrev Walked (A : Type) := Option Int × Bytes × A

def update (file : Bytes) (pos : Nat) (v : Visit A) : Bytes :=
  if v.doupdate ∧ v.rc ≥ 0 then writeAt file (pos + OBJ) v.record else file

def walkLoop (walk_func : Walker A) (h : Hdr) : Nat → Bytes → Nat → A → Walked A
  | 0, file, _, arg => (none, file, arg)
  | counter + 1, file, pos, arg =>
    match readrec file h pos with
    | none => (none, file, arg)
    | some (my_size, record) =>
      let v := walk_func.visit record arg
      let file := update file pos v
      if v.rc ≠ 0 then (some (if v.rc < 0 then 1 else v.rc), file, v.arg)
      else if pos = h.tail then (some 0, file, v.arg)
      else
        match next h pos my_size with
        | none => (none, file, v.arg)
        | some pos => walkLoop walk_func h counter file pos v.arg

def dowalk (walk_func : Walker A) (file : Bytes) (arg : A) : Walked A :=
  match readhdr file with
  | none => (none, file, arg)
  | some h =>
    if h.head = 0 ∧ h.tail = 0 then (some 0, file, arg)
    else walkLoop walk_func h (h.filesize / OBJ) file h.head arg

end Walking

section Cache

/-- The file of an empty cache. -/
def init (size : Nat) : Option Bytes :=
  if size < TLSCACHEMINSIZE then none
  else some (writehdr (List.replicate size 0) ⟨size, 0, 0, 0⟩)

/-- The file that is open, unless an error removed it. -/
abbrev Cache := Option Bytes

def tls_cache_add (p : Cache) (val : Bytes) : Int × Cache :=
  match p with
  | none => (0, none)
  | some file =>
    match doadd file val with
    | (.stored, file) => (0, some file)
    | (.nospace, file) => (-1, some file)
    | (.corrupt, _) => (-1, none)

def tls_cache_walk {A : Type} (p : Cache) (walk_func : Walker A) (arg : A) : Int × Cache × A :=
  match p with
  | none => (0, none, arg)
  | some file =>
    match dowalk walk_func file arg with
    | (some rc, file, arg) => (rc, some file, arg)
    | (none, _, arg) => (-1, none, arg)

end Cache
end Cone.Tlscache
