import Cone.Lib.Decimal
import Cone.Maildirkeywords

/-! # The saved keywords (`maildir/maildirkeywords2.c`)

The application has the messages; each has a name, and a pointer to its keywords that may be null.
Memory is never short, and the file can be read and written. -/
set_option autoImplicit false
namespace Cone.Maildirkeywords2

open Cone.Ctype Cone.Maildirkeywords
open Cone.Lib.Decimal (decimal)

/-- The functions of `struct maildir_kwReadInfo` that say which messages there are. -/
structure ReadInfo where
  findMessage : List UInt8 → Option Nat
  getMessageCount : Nat
  getMessageFilename : Nat → List UInt8

structure Messages where
  table : State
  pointers : Nat → Option Nat

def findMessageByFilename (info : ReadInfo) (a : Messages) (filename : List UInt8)
    (autocreate : Bool) : Option Nat × Messages :=
  match info.findMessage filename with
  | none => (none, a)
  | some i =>
    if autocreate && (a.pointers i).isNone then
      let r := kwmCreate a.table
      (some i, ⟨r.2, Function.update a.pointers i (some r.1)⟩)
    else (some i, a)

/-! ## Writing -/

/-- The loop of `libmail_kwEnumerate` over one bucket, for a callback that returns zero. -/
def enumLoop {A : Type} (callback : State × A → KeyPtr → State × A) :
    Nat → State × A → Option KeyPtr → State × A
  | 0, r, _ => r
  | _ + 1, r, none => r
  | fuel + 1, r, some ke =>
    match (keyword r.1 ke).next with
    | none => r
    | some next => enumLoop callback fuel (callback r ke) (some next)

def kwEnumerate {A : Type} (callback : State × A → KeyPtr → State × A) (r : State × A) : State × A :=
  (List.finRange buckets).foldl (fun r i =>
    enumLoop callback (r.1.keywordBreak + 2) r (keyword r.1 (.head i)).next) r

def saveKeywordList (r : State × (List UInt8 × Nat)) (ke : KeyPtr) : State × (List UInt8 × Nat) :=
  (setKeyword r.1 ke fun c => { c with userNum := r.2.2 },
    (r.2.1 ++ keywordName r.1 ke ++ [NL], r.2.2 + 1))

def numberLoop (s : State) : Nat → List UInt8 → Option Nat → List UInt8
  | 0, _, _ => []
  | _ + 1, _, none => []
  | fuel + 1, p, some kme =>
    p ++ decimal (keyword s (entry s kme).keywordEntry).userNum ++
      numberLoop s fuel [SP] (entry s kme).next

def baseName (mdirsep : UInt8) (filename : List UInt8) : List UInt8 :=
  filename.takeWhile (· ≠ mdirsep)

def messageLine (mdirsep : UInt8) (info : ReadInfo) (s : State) (i : Nat) (km : Option Nat) :
    List UInt8 :=
  match km with
  | none => []
  | some km =>
    if (message s km).firstEntry.isNone then []
    else
      baseName mdirsep (info.getMessageFilename i) ++ [byte ':'] ++
        numberLoop s (s.entryBreak + 1) [] (message s km).firstEntry ++ [NL]

/-- `maildir_kwExport`: its value, the text, and the table with the numbers. -/
def kwExport (mdirsep : UInt8) (info : ReadInfo) (a : Messages) : Int × List UInt8 × State :=
  let r := kwEnumerate saveKeywordList (a.table, ([], 0))
  if r.2.2 = 0 then (0, r.2.1, r.1)
  else
    (1, r.2.1 ++ [NL] ++
      (List.range info.getMessageCount).flatMap (fun i => messageLine mdirsep info r.1 i (a.pointers i)),
      r.1)

/-! ## Reading -/

/-- The loop of `rl_read`: the buffer, the length of the line, whether the file ended, and what is
left of it. -/
def readLoop : List UInt8 → Nat → List UInt8 → List UInt8 × Nat × Bool × List UInt8
  | lineBuf, n, [] =>
    let lineBuf := lineBuf ++ List.replicate (if lineBuf.length ≤ n then n + 1024 - lineBuf.length else 0) 0
    (lineBuf.set n 0, n, true, [])
  | lineBuf, n, ch :: file =>
    let lineBuf := lineBuf ++ List.replicate (if lineBuf.length ≤ n then n + 1024 - lineBuf.length else 0) 0
    if ch = NL then (lineBuf.set n 0, n, false, file) else readLoop (lineBuf.set n ch) (n + 1) file

def rlRead (lineBuf file : List UInt8) : Option (List UInt8) × List UInt8 × List UInt8 :=
  let r := readLoop lineBuf 0 file
  (if r.2.1 = 0 && r.2.2.1 then none else some (r.1.takeWhile (· ≠ NUL)), r.1, r.2.2.2)

def strtok (q : List UInt8) : Option (List UInt8 × List UInt8) :=
  let q := q.dropWhile (· = SP)
  if q = [] then none
  else
    let token := q.takeWhile (· ≠ SP)
    some (token, q.drop (token.length + 1))

/-- `atoi`: the `int` of a `long`, which does not go beyond its bounds. -/
def atoi (q : List UInt8) : Int :=
  (max (-2 ^ 63) (min (2 ^ 63 - 1) (Lib.Decimal.atoi q))).bmod (2 ^ 32)

/-- An `int` as a `size_t`. -/
def toSize (n : Int) : Nat := (n % 2 ^ 64).toNat

/-- The loop of `maildir_kwImport` over the keywords, and whether it ended before the file did. -/
def keywordLoop (g : Settings) (tmpMsg : Nat) : Nat → List UInt8 → List UInt8 → List KeyPtr → State →
    Bool × List UInt8 × List UInt8 × List KeyPtr × State
  | 0, lineBuf, file, index, s => (false, lineBuf, file, index, s)
  | fuel + 1, lineBuf, file, index, s =>
    match rlRead lineBuf file with
    | (none, lineBuf, file) => (false, lineBuf, file, index, s)
    | (some [], lineBuf, file) => (true, lineBuf, file, index, s)
    | (some (c :: p), lineBuf, file) =>
      match kweFind g s (c :: p) true with
      | (none, s) => (true, lineBuf, file, index, s)
      | (some kw, s) =>
        keywordLoop g tmpMsg fuel lineBuf file (index ++ [kw]) (kwmSet s tmpMsg kw).2

def messageOfLine (info : ReadInfo) (p : List UInt8) (i : Option Nat) (a : Messages) :
    Option Nat × Messages :=
  match i with
  | some i => (some i, a)
  | none => findMessageByFilename info a p true

def clearMessage (a : Messages) (i : Nat) : Messages where
  table :=
    match a.pointers i with
    | some km => kwmDestroy a.table km
    | none => a.table
  pointers := Function.update a.pointers i none

def tokenLoop (info : ReadInfo) (index : List KeyPtr) (p : List UInt8) :
    Nat → List UInt8 → Option Nat → Int → Messages → Int × Messages
  | 0, _, _, rc, a => (rc, a)
  | fuel + 1, q, i, rc, a =>
    match strtok q with
    | none => (rc, a)
    | some (token, q) =>
      match index[toSize (atoi token)]? with
      | none => tokenLoop info index p fuel q i rc a
      | some kw =>
        let r := messageOfLine info p i a
        match r.1.bind r.2.pointers with
        | none => (-1, r.2)
        | some km =>
          tokenLoop info index p fuel q r.1 rc { r.2 with table := (kwmSet r.2.table km kw).2 }

def lineLoop (info : ReadInfo) (index : List KeyPtr) :
    Nat → List UInt8 → List UInt8 → Int → Messages → Int × Messages
  | 0, _, _, rc, a => (rc, a)
  | fuel + 1, lineBuf, file, rc, a =>
    match rlRead lineBuf file with
    | (none, _, _) => (rc, a)
    | (some line, lineBuf, file) =>
      let p := line.takeWhile (· ≠ byte ':')
      if p.length = line.length then lineLoop info index fuel lineBuf file 1 a
      else
        let q := line.drop (p.length + 1)
        match findMessageByFilename info a p false with
        | (none, a) => lineLoop info index fuel lineBuf file 1 a
        | (some i, a) =>
          let r := tokenLoop info index p (q.length + 1) q none rc (clearMessage a i)
          lineLoop info index fuel lineBuf file r.1 r.2

/-- `maildir_kwImport` of a file with this text. -/
def kwImport (g : Settings) (info : ReadInfo) (file : List UInt8) (a : Messages) : Int × Messages :=
  let tmpMsg := kwmCreate a.table
  let r := keywordLoop g tmpMsg.1 (file.length + 1) [] file [] tmpMsg.2
  let a := { a with table := r.2.2.2.2 }
  let r :=
    if r.1 then lineLoop info r.2.2.2.1 (r.2.2.1.length + 1) r.2.1 r.2.2.1 0 a else (0, a)
  (r.1, { r.2 with table := kwmDestroy r.2.table tmpMsg.1 })

end Cone.Maildirkeywords2
