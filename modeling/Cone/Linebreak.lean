import Cone.Lib.HeldBack
import Cone.UnicodeTablookup

/-! # Line breaks as code points arrive (`unicode_linebreak.c`) -/
set_option autoImplicit false
namespace Cone.Linebreak
open Cone.Lib.ReturnCode
open Cone.UnicodeTablookup

/-- `UNICODE_LB_*`, the classes of the table. -/
inductive LbClass
  | BK | CR | LF | CM | NL | SG | WJ | ZW | GL | SP
  | B2 | BA | BB | HY | CB
  | CL | CP | EX | IN | NS | OP | QU
  | IS | NU | PO | PR | SY
  | AI | AL | H2 | H3 | ID | JL | JV | JT | SA
  deriving DecidableEq, Repr

open LbClass

def lbMandatory : Int := -1
def lbNone : Int := 0
def lbAllowed : Int := 1

def lbOptPrbreak : BitVec 32 := 1
def lbOptSybreak : BitVec 32 := 2

def optSet (opts flag : BitVec 32) : Bool := opts &&& flag ≠ 0

inductive NextHandler
  | nextDef | nextLb25Seenophy | nextLb25Seennu | nextLb25Seennuclcp
  deriving DecidableEq, Repr

inductive EndHandler
  | endDef | endLb25Seenophy
  deriving DecidableEq, Repr

/-- `struct unicode_lb_info`; `none` is `UNICODE_LB_SOT`. -/
structure Info (A : Type) where
  cbArg : A
  opts : BitVec 32
  savedclass : LbClass
  savedcmcnt : Nat
  prevclass : Option LbClass
  prevclassNsp : Option LbClass
  nextHandler : NextHandler
  endHandler : EndHandler

def lbInit {A : Type} (cbArg : A) : Info A :=
  { cbArg, opts := 0, savedclass := .BK, savedcmcnt := 0, prevclass := none, prevclassNsp := none,
    nextHandler := .nextDef, endHandler := .endDef }

def lbSetOpts {A : Type} (i : Info A) (opts : BitVec 32) : Info A := { i with opts }

/-! ## The rules of `next_def_nolb25` between two classes -/

def isLineEnd (cl : LbClass) : Bool := cl = BK || cl = CR || cl = LF || cl = NL

def isHangul (cl : LbClass) : Bool := cl = JL || cl = JV || cl = JT || cl = H2 || cl = H3

/-- From LB11 to the tailored LB24. -/
def lb11to24 (opts : BitVec 32) (prevclass : LbClass) (prevclassNsp : Option LbClass)
    (uclass : LbClass) : Option Int :=
  if prevclass = WJ ∨ uclass = WJ then some lbNone
  else if prevclass = .GL then some lbNone
  else if uclass = .GL ∧ prevclass ≠ SP ∧ prevclass ≠ BA ∧ prevclass ≠ HY then some lbNone
  else if uclass = SY ∧ optSet opts lbOptSybreak ∧ prevclass = SP then some lbAllowed
  else if uclass = SY ∨ uclass = CL ∨ uclass = CP ∨ uclass = EX ∨ uclass = IS then some lbNone
  else if optSet opts lbOptSybreak ∧ prevclass = SY ∧
      (uclass = EX ∨ uclass = AL ∨ uclass = ID) then some lbNone
  else if prevclassNsp = some OP then some lbNone
  else if prevclassNsp = some QU ∧ uclass = OP then some lbNone
  else if (prevclassNsp = some CL ∨ prevclassNsp = some CP) ∧ uclass = NS then some lbNone
  else if prevclassNsp = some B2 ∧ uclass = B2 then some lbNone
  else if prevclass = SP then some lbAllowed
  else if uclass = QU ∨ prevclass = QU then some lbNone
  else if uclass = CB ∨ prevclass = CB then some lbAllowed
  else if uclass = BA ∨ uclass = HY ∨ uclass = NS then some lbNone
  else if prevclass = BB then some lbNone
  else if uclass = IN ∧ (prevclass = AL ∨ prevclass = ID ∨ prevclass = IN ∨ prevclass = NU) then
    some lbNone
  else if prevclass = ID ∧ uclass = PO then some lbNone
  else if prevclass = AL ∧ uclass = NU then some lbNone
  else if prevclass = NU ∧ uclass = AL then some lbNone
  else if prevclass = PR ∧ uclass = ID then some lbNone
  else if prevclass = PR ∧ uclass = AL then some lbNone
  else if prevclass = PO ∧ uclass = AL then some lbNone
  else if optSet opts lbOptPrbreak ∧ uclass = PR ∧
      (prevclass = PR ∨ prevclass = AL ∨ prevclass = ID) then some lbNone
  else none

/-- The end of the function, from the pairs of LB25. -/
def lb25to31 (prevclass uclass : LbClass) : Int :=
  if (prevclass = OP ∨ prevclass = HY) ∧ uclass = NU then lbNone
  else if prevclass = JL ∧ (uclass = JL ∨ uclass = JV ∨ uclass = H2 ∨ uclass = H3) then lbNone
  else if (prevclass = JV ∨ prevclass = H2) ∧ (uclass = JV ∨ uclass = JT) then lbNone
  else if (prevclass = JT ∨ prevclass = H3) ∧ uclass = JT then lbNone
  else if isHangul prevclass ∧ (uclass = IN ∨ uclass = PO) then lbNone
  else if isHangul uclass ∧ prevclass = PR then lbNone
  else if prevclass = AL ∧ uclass = AL then lbNone
  else if prevclass = IS ∧ uclass = AL then lbNone
  else if (prevclass = AL ∨ prevclass = NU) ∧ uclass = OP then lbNone
  else if (uclass = AL ∨ uclass = NU) ∧ prevclass = CP then lbNone
  else lbAllowed

section Handlers
variable {A : Type} (cb : Int → A → Int × A)

/-- `RESULT(x)` -/
def report (i : Info A) (x : Int) : Int × Info A :=
  let r := cb x i.cbArg
  (r.1, { i with cbArg := r.2 })

/-- `i->prevclass=i->prevclass_nsp=uclass` -/
def remember (i : Info A) (uclass : LbClass) : Info A :=
  { i with prevclass := some uclass, prevclassNsp := some uclass }

def nextDefNolb25 (i : Info A) (uclass : LbClass) (nolb25 : Bool) : Int × Info A :=
  let prevclass := i.prevclass
  let prevclassNsp := i.prevclassNsp
  let i := { i with prevclass := some uclass }
  let i := if uclass ≠ SP then { i with prevclassNsp := some uclass } else i
  let i := if uclass = NU then { i with nextHandler := .nextLb25Seennu } else i
  match prevclass with
  | none => report cb (if uclass = CM then remember i AL else i) lbNone
  | some prev =>
    if prev = CR ∧ uclass = LF then report cb i lbNone
    else if isLineEnd prev then
      report cb (if uclass = CM then remember i AL else i) lbMandatory
    else
      let lb10 := (prev = SP ∨ prev = ZW) ∧ uclass = CM
      let i := if lb10 then remember i AL else i
      let uclass := if lb10 then AL else uclass
      if isLineEnd uclass ∨ uclass = SP ∨ uclass = ZW then report cb i lbNone
      else if prevclassNsp = some ZW then report cb i lbAllowed
      else if uclass = CM then report cb { i with prevclass, prevclassNsp } lbNone
      else match lb11to24 i.opts prev prevclassNsp uclass with
        | some x => report cb i x
        | none =>
          if nolb25 = false ∧ (prev = PR ∨ prev = PO) ∧ uclass = NU then report cb i lbNone
          else if nolb25 = false ∧ (prev = PR ∨ prev = PO) ∧ (uclass = OP ∨ uclass = HY) then
            (0, { i with
              prevclass, prevclassNsp
              savedclass := uclass
              savedcmcnt := 0
              nextHandler := .nextLb25Seenophy
              endHandler := .endLb25Seenophy })
          else report cb i (lb25to31 prev uclass)

def nextDef (i : Info A) (uclass : LbClass) : Int × Info A := nextDefNolb25 cb i uclass false

/-- The rounds of the loop in `unwind_lb25_seenophy` after the first: the saved class again, once
for each mark.  The counter itself is next read after it has been reset. -/
def unwindMarks : Nat → Info A → Int × Info A
  | 0, i => (0, i)
  | n + 1, i => andThen (nextDefNolb25 cb i i.savedclass false) (unwindMarks n)

def unwindLb25Seenophy (i : Info A) : Int × Info A :=
  let i := { i with nextHandler := .nextDef, endHandler := .endDef }
  andThen (nextDefNolb25 cb i i.savedclass true) (unwindMarks cb i.savedcmcnt)

/-- `do { rc=RESULT(UNICODE_LB_NONE); } while (n--)`, with `n + 1` rounds to go. -/
def reportNones : Nat → Info A → Int × Info A
  | 0, i => (0, i)
  | n + 1, i => andThen (report cb i lbNone) (reportNones n)

def nextLb25Seenophy (i : Info A) (uclass : LbClass) : Int × Info A :=
  if uclass = CM then (0, { i with savedcmcnt := i.savedcmcnt + 1 })
  else if uclass ≠ NU then
    andThen (unwindLb25Seenophy cb i) fun i => nextDefNolb25 cb i uclass false
  else
    andThen (reportNones cb (i.savedcmcnt + 1) i) fun i =>
      report cb (remember { i with nextHandler := .nextLb25Seennu, endHandler := .endDef } uclass)
        lbNone

def nextLb25Seennu (i : Info A) (uclass : LbClass) : Int × Info A :=
  if uclass = NU ∨ uclass = SY ∨ uclass = IS then report cb (remember i uclass) lbNone
  else if uclass = CM then report cb i lbNone
  else if uclass = CL ∨ uclass = CP then
    report cb { remember i uclass with
      nextHandler := .nextLb25Seennuclcp, endHandler := .endDef } lbNone
  else
    let i := { i with nextHandler := .nextDef, endHandler := .endDef }
    if uclass = PR ∨ uclass = PO then report cb (remember i uclass) lbNone
    else nextDef cb i uclass

def nextLb25Seennuclcp (i : Info A) (uclass : LbClass) : Int × Info A :=
  if uclass = CM then report cb i lbNone
  else
    let i := { i with nextHandler := .nextDef, endHandler := .endDef }
    if uclass = PR ∨ uclass = PO then report cb (remember i uclass) lbNone
    else nextDef cb i uclass

def nextHandler (i : Info A) (uclass : LbClass) : Int × Info A :=
  match i.nextHandler with
  | .nextDef => nextDef cb i uclass
  | .nextLb25Seenophy => nextLb25Seenophy cb i uclass
  | .nextLb25Seennu => nextLb25Seennu cb i uclass
  | .nextLb25Seennuclcp => nextLb25Seennuclcp cb i uclass

/-- `unicode_lb_lookup`; a code point that is in no range is `AL` (LB1). -/
def lbLookup (tab : Tables LbClass) (ch : UInt32) : LbClass := unicodeTabLookup ch tab AL

def lbNext (tab : Tables LbClass) (i : Info A) (ch : UInt32) : Int × Info A :=
  nextHandler cb i (lbLookup tab ch)

def lbEnd (i : Info A) : Int × Info A :=
  match i.endHandler with
  | .endDef => (0, i)
  | .endLb25Seenophy => unwindLb25Seenophy cb i

end Handlers

/-! ## The interface that reports the code point as well -/

section Lbc
variable {A : Type}

/-- `struct unicode_lbc_info` without the handle, whose `cb_arg` it is; `einval` is
`errno == EINVAL`. -/
structure Lbc (A : Type) where
  buf : List UInt32
  bufPtr : Nat
  cbArg : A
  einval : Bool

variable (cb : Int → UInt32 → A → Int × A)

def lbcCallback (value : Int) (h : Lbc A) : Int × Lbc A :=
  match h.buf[h.bufPtr]? with
  | none => (-1, { h with einval := true })
  | some ch =>
    let r := cb value ch h.cbArg
    (r.1, { h with bufPtr := h.bufPtr + 1, cbArg := r.2 })

def lbcInit (cbArg : A) : Info (Lbc A) := lbInit { buf := [], bufPtr := 0, cbArg, einval := false }

def lbcSetOpts (i : Info (Lbc A)) (opts : BitVec 32) : Info (Lbc A) := lbSetOpts i opts

/-- The buffer as `unicode_lbc_next` leaves it for the callback. -/
def lbcAppend (h : Lbc A) (ch : UInt32) : Lbc A :=
  let h := if h.bufPtr ≥ h.buf.length then { h with bufPtr := 0, buf := [] } else h
  { h with buf := h.buf ++ [ch] }

def lbcNext (tab : Tables LbClass) (i : Info (Lbc A)) (ch : UInt32) : Int × Info (Lbc A) :=
  lbNext (lbcCallback cb) tab { i with cbArg := lbcAppend i.cbArg ch } ch

def lbcEnd (i : Info (Lbc A)) : Int × Info (Lbc A) := lbEnd (lbcCallback cb) i

end Lbc

end Cone.Linebreak
