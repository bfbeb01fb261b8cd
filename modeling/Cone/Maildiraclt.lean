import Cone.Ctype
import Mathlib.Data.List.Sort

/-! # Access control lists (`maildir/maildiraclt.c`)

A `maildir_aclt` is a null pointer or a string.  Memory is never short.  The functions give the
source's return value, and what they leave behind their pointer arguments. -/
set_option autoImplicit false
namespace Cone.Maildiraclt

open Cone.Ctype

abbrev Aclt := Option (List UInt8)

def ascstr (aclt : Aclt) : List UInt8 := aclt.getD []

/-- The loop of `fixup`. -/
def collate : List UInt8 → List UInt8
  | [] => []
  | [a] => if a ≤ SP then [] else [a]
  | a :: b :: aclt =>
    if a = b then collate (b :: aclt)
    else if a ≤ SP then collate (b :: aclt)
    else a :: collate (b :: aclt)

def fixup (aclt : List UInt8) : List UInt8 := collate (aclt.insertionSort (· ≤ ·))

def validacl (p : List UInt8) : Bool := p.all fun c => SP < c

def acltInit (initvalue : Option (List UInt8)) : Int × Aclt :=
  match initvalue with
  | none => (0, none)
  | some [] => (0, none)
  | some (c :: p) => if validacl (c :: p) then (0, some (fixup (c :: p))) else (-1, none)

def acltAdd (aclt : Aclt) (addStrs : Option (List UInt8)) : Int × Aclt :=
  match addStrs with
  | none => (0, aclt)
  | some [] => (0, aclt)
  | some (c :: p) =>
    if validacl (c :: p) then (0, some (fixup (ascstr aclt ++ c :: p))) else (-1, aclt)

/-- `maildir_aclt_del`, which always returns zero. -/
def acltDel (aclt : Aclt) (delStrs : Option (List UInt8)) : Aclt :=
  match delStrs, aclt with
  | none, aclt => aclt
  | some _, none => none
  | some del, some a =>
    let b := a.filter fun c => !del.contains c
    if b = [] then none else some b

/-! ## Lists of identifiers and their rights -/

/-- `struct maildir_aclt_node`; the links are the list. -/
@[ext]
structure Node where
  identifier : List UInt8
  acl : Aclt
  deriving DecidableEq, Repr

/-- The loop of `maildir_aclt_list_add` over the nodes: the node with that identifier gets the new
rights, or a new node comes last. -/
def listStore : List Node → List UInt8 → Option (List UInt8) → Int × List Node
  | [], identifier, acltStr =>
    let r := acltInit acltStr
    if r.1 < 0 then (-1, []) else (0, [⟨identifier, r.2⟩])
  | p :: list, identifier, acltStr =>
    if p.identifier = identifier then
      let r := acltInit acltStr
      (r.1, { p with acl := r.2 } :: list)
    else
      let r := listStore list identifier acltStr
      (r.1, p :: r.2)

/-- `maildir_aclt_list_add`; its errors are all `EINVAL`. -/
def listAdd (list : List Node) (identifier : List UInt8) (acltStr : Option (List UInt8)) :
    Int × List Node :=
  if validacl identifier = false then (-1, list)
  else if identifier = [] then (-1, list)
  else listStore list identifier acltStr

def listDel (list : List Node) (identifier : List UInt8) : List Node :=
  list.eraseP fun p => p.identifier = identifier

def listFind (list : List Node) (identifier : List UInt8) : Option Aclt :=
  (list.find? fun p => p.identifier = identifier).map Node.acl

def anonymous : List UInt8 := ['a', 'n', 'o', 'n', 'y', 'm', 'o', 'u', 's'].map byte

def anyone : List UInt8 := ['a', 'n', 'y', 'o', 'n', 'e'].map byte

def owner : List UInt8 := ['o', 'w', 'n', 'e', 'r'].map byte

def administrators : List UInt8 :=
  ['a', 'd', 'm', 'i', 'n', 'i', 's', 't', 'r', 'a', 't', 'o', 'r', 's'].map byte

def groupAdministrators : List UInt8 := ['g', 'r', 'o', 'u', 'p', '='].map byte ++ administrators

def aclLookup : UInt8 := byte 'l'

def aclAdminister : UInt8 := byte 'a'

def aclAll : List UInt8 := ['a', 'c', 'e', 'i', 'l', 'r', 's', 't', 'w', 'x'].map byte

/-! ## The rights of a set of identities -/

section Compute
variable (cbFunc : List UInt8 → Int)

def chkAdmin (identifier : List UInt8) : Int :=
  if identifier = administrators ∨ identifier = groupAdministrators then
    let rc := cbFunc administrators
    if rc = 0 then cbFunc groupAdministrators else rc
  else cbFunc identifier

def isIdent (s : List UInt8) : Int := if s = anonymous ∨ s = anyone then 1 else chkAdmin cbFunc s

/-- The loop that adds rights. -/
def computeAdd : List Node → Aclt → Except Int Aclt
  | [], aclt => .ok aclt
  | p :: list, aclt =>
    if p.identifier.head? = some (byte '-') then computeAdd list aclt
    else
      let rc := isIdent cbFunc p.identifier
      if rc < 0 then .error rc
      else if rc = 0 then computeAdd list aclt
      else
        let r := acltAdd aclt p.acl
        if r.1 < 0 then .error rc else computeAdd list r.2

/-- The loop that takes rights away. -/
def computeDel : List Node → Aclt → Except Int Aclt
  | [], aclt => .ok aclt
  | p :: list, aclt =>
    if p.identifier.head? ≠ some (byte '-') then computeDel list aclt
    else
      let rc := isIdent cbFunc p.identifier.tail
      if rc < 0 then .error rc
      else if rc = 0 then computeDel list aclt
      else computeDel list (acltDel aclt p.acl)

/-- `maildir_acl_compute_chkowner`: the rights, or the value that it returns when it is not
zero.  `disabled` is `maildir_acl_disabled`. -/
def computeChkowner (disabled : Bool) (list : List Node) (chkowner : Bool) : Except Int Aclt :=
  match computeAdd cbFunc list none with
  | .error rc => .error rc
  | .ok added =>
    match computeDel cbFunc list added with
    | .error rc => .error rc
    | .ok aclt =>
      let rc := if chkowner then cbFunc owner else 0
      let rc := if disabled then 0 else rc
      if rc < 0 then .error rc
      else if rc = 0 then .ok aclt
      else
        let r := acltAdd aclt (some [aclAdminister])
        if r.1 < 0 then .error rc else .ok r.2

def aclCompute (disabled : Bool) (list : List Node) : Except Int Aclt :=
  computeChkowner cbFunc disabled list true

end Compute

def chkArray (identifiers : List (List UInt8)) (identifier : List UInt8) : Int :=
  if identifiers.contains identifier then 1 else 0

def aclComputeArray (disabled : Bool) (list : List Node) (identifiers : List (List UInt8)) :
    Except Int Aclt :=
  aclCompute (chkArray identifiers) disabled list

end Cone.Maildiraclt
