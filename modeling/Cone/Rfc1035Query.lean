import Cone.Rfc1035Reply
import Cone.Lib.HostNames

/-! # DNS queries

`rfc1035_mkquery` of rfc1035/rfc1035.c.  The output function keeps the bytes in `out`; `cnt` is
the code's own count of them.  `log` lists what is written of the names, a label that starts a
suffix or a compression pointer for one, and no function reads it. -/
set_option autoImplicit false
namespace Cone.Rfc1035Query

open Cone.Ctype
open Cone.Lib.HostNames (isDot skipDots firstLabel restOf skipDots_length_le restOf_length_le
  firstLabel_append_restOf)

abbrev RFC1035_RESOLVE_RECURSIVE : Nat := 1

structure Query where
  name : List UInt8
  qtype : UInt32
  qclass : UInt32
  deriving DecidableEq, Repr

structure Compresslist where
  offset : Nat
  ptr : List UInt8
  deriving DecidableEq, Repr

inductive Event where
  | wrote (offset : Nat) (suffix : List UInt8)
  | pointed (offset : Nat) (suffix : List UInt8)
  deriving DecidableEq, Repr

structure Packet where
  out : List UInt8
  cnt : Nat
  log : List Event
  deriving DecidableEq, Repr

def toupper (c : UInt8) : UInt8 := if byte 'a' ≤ c ∧ c ≤ byte 'z' then c - 32 else c

/-- 0 where the names are the same, 1 where they are not. -/
def hostnamecmp (p q : List UInt8) : Int :=
  match p, q with
  | [], [] => 0
  | [], d :: q => if isDot d then hostnamecmp [] (skipDots q) else 1
  | c :: p, [] => if isDot c then hostnamecmp (skipDots p) [] else 1
  | c :: p, d :: q =>
    if isDot c || isDot d then
      if !isDot c || !isDot d then 1 else hostnamecmp (skipDots p) (skipDots q)
    else if toupper c ≠ toupper d then 1
    else hostnamecmp p q
  termination_by p.length + q.length
  decreasing_by
    · have := skipDots_length_le q
      simp only [List.length_nil, List.length_cons]
      omega
    · have := skipDots_length_le p
      simp only [List.length_nil, List.length_cons]
      omega
    · have := skipDots_length_le p
      have := skipDots_length_le q
      simp only [List.length_cons]
      omega
    · simp only [List.length_cons]
      omega

def search (compList : List Compresslist) (name : List UInt8) : Option Compresslist :=
  compList.find? fun cp => hostnamecmp name cp.ptr = 0 && cp.offset &&& 0x3FFF = cp.offset

section Mkquery
variable (defaultdomain : Option (List UInt8))

/-- The name of a question: `mkpacketq` appends the default domain to one without a dot. -/
def completed (name : List UInt8) : List UInt8 :=
  match defaultdomain with
  | none => name
  | some domain => if name.contains (byte '.') then name else name ++ [byte '.'] ++ domain

def be16 (n : UInt32) : List UInt8 := [(n >>> 8).toUInt8, n.toUInt8]

def qtail (qp : Query) : List UInt8 := be16 qp.qtype ++ be16 qp.qclass

/-- `(*func)(..., n, arg)` and `*cnt += n`. -/
def Packet.put (s : Packet) (bytes : List UInt8) : Packet :=
  { s with out := s.out ++ bytes, cnt := s.cnt + bytes.length }

def Packet.note (s : Packet) (e : Event) : Packet := { s with log := s.log ++ [e] }

def putRoot (qp : Query) (s : Packet) : Packet := s.put (0 :: qtail qp)

def putPointer (cp : Compresslist) (qp : Query) (nameptr : List UInt8) (s : Packet) : Packet :=
  (s.put ([(cp.offset / 2 ^ 8).toUInt8 ||| 0xC0, cp.offset.toUInt8] ++ qtail qp)).note
    (.pointed cp.offset nameptr)

def putLabel (nameptr : List UInt8) (s : Packet) : Packet :=
  (s.put ((firstLabel nameptr).length.toUInt8 :: firstLabel nameptr)).note (.wrote s.cnt nameptr)

def mkpacketqFull (qp : Query) (qs : List Query) (nameptr : List UInt8)
    (compList : List Compresslist) (s : Packet) : Int × Packet :=
  if _hend : skipDots nameptr = [] then
    match qs with
    | [] => (0, putRoot qp s)
    | q :: qs => mkpacketqFull q qs (completed defaultdomain q.name) compList (putRoot qp s)
  else
    match search compList (skipDots nameptr) with
    | some cp =>
      match qs with
      | [] => (0, putPointer cp qp (skipDots nameptr) s)
      | q :: qs =>
        mkpacketqFull q qs (completed defaultdomain q.name) compList
          (putPointer cp qp (skipDots nameptr) s)
    | none =>
      if (firstLabel (skipDots nameptr)).length > 63 then (-1, s)
      else mkpacketqFull qp qs (restOf (skipDots nameptr))
        (⟨s.cnt, skipDots nameptr⟩ :: compList) (putLabel (skipDots nameptr) s)
  termination_by (qs.length, nameptr.length)
  decreasing_by
    · exact Prod.Lex.left _ _ (by simp)
    · exact Prod.Lex.left _ _ (by simp)
    · exact Prod.Lex.right _ (Cone.Lib.HostNames.restOf_length_lt _hend)

def mkpacketq (qp : Query) (qs : List Query) (compList : List Compresslist) (s : Packet) :
    Int × Packet :=
  mkpacketqFull defaultdomain qp qs (completed defaultdomain qp.name) compList s

/-- `nquestions` is the number of the questions, which fits an `unsigned`. -/
def header (id opcode options nquestions : Nat) : List UInt8 :=
  [(id / 2 ^ 8).toUInt8, id.toUInt8,
    (opcode.toUInt8 <<< 3 &&& 0x78) ||| (if options &&& RFC1035_RESOLVE_RECURSIVE ≠ 0 then 1 else 0),
    0, (nquestions / 2 ^ 8).toUInt8, nquestions.toUInt8, 0, 0, 0, 0, 0, 0]

def mkquery (id opcode options : Nat) (questions : List Query) : Int × Packet :=
  let s : Packet := ⟨header id opcode options questions.length, 12, []⟩
  match questions with
  | [] => (0, s)
  | qp :: qs => mkpacketq defaultdomain qp qs [] s

end Mkquery
end Cone.Rfc1035Query
