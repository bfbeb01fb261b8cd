import Cone.Lib.HeldBack
import Cone.UnicodeTablookup

/-! # Word boundaries as code points arrive (`unicode_wordbreak.c`) -/
set_option autoImplicit false
namespace Cone.Wordbreak
open Cone.Lib.ReturnCode
open Cone.Lib.HeldBack
open Cone.UnicodeTablookup

/-- `UNICODE_WB_*` -/
inductive WbClass
  | aLetter | numeric | midLetter | midNum | midNumLet | extendNumLet
  | cr | lf | newline | extend | format | katakana | other
  deriving DecidableEq, Repr

namespace WbClass

def isNewline (cl : WbClass) : Bool := cl = .cr || cl = .lf || cl = .newline

def isSkipped (cl : WbClass) : Bool := cl = .extend || cl = .format

def inMidLetter (cl : WbClass) : Bool := cl = .midLetter || cl = .midNumLet

def inMidNum (cl : WbClass) : Bool := cl = .midNum || cl = .midNumLet

end WbClass

inductive NextHandler
  | sot | wb1and2Done | seenWb67Handler | seenWb1112Handler
  deriving DecidableEq, Repr

inductive EndHandler
  | seenWb67EndHandler | seenWb1112EndHandler
  deriving DecidableEq, Repr

/-- `struct unicode_wb_info`; `cbArg` is the client's state behind `cb_arg`. -/
structure Info (A : Type) where
  cbArg : A
  prevclass : WbClass
  wb4Cnt : Nat
  wb4ExtraCnt : Nat
  nextHandler : NextHandler
  endHandler : Option EndHandler

def wbInit {A : Type} (cbArg : A) : Info A :=
  { cbArg, prevclass := .aLetter, wb4Cnt := 0, wb4ExtraCnt := 0, nextHandler := .sot,
    endHandler := none }

section Handlers
variable {A : Type} (cb : Int → A → Int × A)

/-- `while (i->wb4_cnt > 0)` -/
def wb4Loop : Nat → Int → A → Int × A
  | 0, rc, a => (rc, a)
  | n + 1, rc, a => if rc = 0 then wb4Loop n (cb 0 a).1 (cb 0 a).2 else wb4Loop n rc a

def wb4 (i : Info A) : Int × Info A :=
  let r := wb4Loop cb i.wb4Cnt 0 i.cbArg
  (r.1, { i with wb4Cnt := 0, cbArg := r.2 })

def result (i : Info A) (flag : Int) : Int × Info A :=
  andThen (wb4 cb i) fun i =>
    let r := cb flag i.cbArg
    (r.1, { i with cbArg := r.2 })

def setHandler (i : Info A) (next : NextHandler) (endH : Option EndHandler) : Info A :=
  { i with nextHandler := next, endHandler := endH }

def sot (i : Info A) (cl : WbClass) : Int × Info A :=
  result cb (setHandler { i with prevclass := cl } .wb1and2Done none) 1

/-- WB13, WB13a, WB13b, WB14. -/
def wb1112Done (i : Info A) (prevclass cl : WbClass) : Int × Info A :=
  if prevclass = .katakana ∧ cl = .katakana then result cb i 0
  else if (prevclass = .aLetter ∨ prevclass = .numeric ∨ prevclass = .katakana ∨
      prevclass = .extendNumLet) ∧ cl = .extendNumLet then result cb i 0
  else if prevclass = .extendNumLet ∧ (cl = .aLetter ∨ cl = .numeric ∨ cl = .katakana) then
    result cb i 0
  else result cb i 1

/-- WB8 to WB10, and the look-ahead of WB11 and WB12. -/
def wb67Done (i : Info A) (prevclass cl : WbClass) : Int × Info A :=
  if prevclass = .numeric ∧ cl = .numeric then result cb i 0
  else if prevclass = .aLetter ∧ cl = .numeric then result cb i 0
  else if prevclass = .numeric ∧ cl = .aLetter then result cb i 0
  else if prevclass = .numeric ∧ cl.inMidNum then
    (0, setHandler { i with wb4ExtraCnt := 0 } .seenWb1112Handler (some .seenWb1112EndHandler))
  else wb1112Done cb i prevclass cl

def wb1and2Done (i : Info A) (cl : WbClass) : Int × Info A :=
  let prevclass := i.prevclass
  let i := { i with prevclass := cl }
  if prevclass = .cr ∧ cl = .lf then result cb i 0
  else if prevclass.isNewline then result cb i 1
  else if cl.isNewline then result cb i 1
  else if cl.isSkipped then (0, { i with prevclass, wb4Cnt := i.wb4Cnt + 1 })
  else if prevclass = .aLetter ∧ cl = .aLetter then result cb i 0
  else if prevclass = .aLetter ∧ cl.inMidLetter then
    (0, setHandler { i with wb4ExtraCnt := 0 } .seenWb67Handler (some .seenWb67EndHandler))
  else wb67Done cb i prevclass cl

/-- The held character and the current one are both inside a word (WB6 and WB7, WB11 and
WB12). -/
def matched (i : Info A) (extraCnt : Nat) (cl : WbClass) : Int × Info A :=
  let r := result cb i 0
  let i := { r.2 with wb4Cnt := extraCnt }
  let r := if r.1 = 0 then result cb i 0 else (r.1, i)
  (r.1, { r.2 with prevclass := cl })

/-- `done` settles the held character, then the current one goes through `next_handler`, which
`SET_HANDLER` has made `wb1and2_done` (`wb67Done_keeps_handlers`). -/
def replay (i : Info A) (extraCnt : Nat) (cl : WbClass)
    (done : Info A → WbClass → Int × Info A) : Int × Info A :=
  let prevclass := i.prevclass
  let r := done i prevclass
  let i := { r.2 with prevclass, wb4Cnt := extraCnt }
  if r.1 = 0 then wb1and2Done cb i cl else (r.1, i)

def seenWb67Handler (i : Info A) (cl : WbClass) : Int × Info A :=
  if cl.isSkipped then (0, { i with wb4ExtraCnt := i.wb4ExtraCnt + 1 })
  else
    let extraCnt := i.wb4ExtraCnt
    let i := setHandler i .wb1and2Done none
    if cl = .aLetter then matched cb i extraCnt cl
    else replay cb i extraCnt cl fun i second => wb67Done cb i .aLetter second

def seenWb1112Handler (i : Info A) (cl : WbClass) : Int × Info A :=
  if cl.isSkipped then (0, { i with wb4ExtraCnt := i.wb4ExtraCnt + 1 })
  else
    let extraCnt := i.wb4ExtraCnt
    let i := setHandler i .wb1and2Done none
    if cl = .numeric then matched cb i extraCnt cl
    else replay cb i extraCnt cl fun i second => wb1112Done cb i .numeric second

/-- The text ends with a character held back. -/
def settle (i : Info A) (done : Info A → WbClass → Int × Info A) : Int × Info A :=
  let extraCnt := i.wb4ExtraCnt
  let r := done i i.prevclass
  let i := { r.2 with wb4Cnt := extraCnt }
  if r.1 = 0 then wb4 cb i else (r.1, i)

def seenWb67EndHandler (i : Info A) : Int × Info A :=
  settle cb i fun i second => wb67Done cb i .aLetter second

def seenWb1112EndHandler (i : Info A) : Int × Info A :=
  settle cb i fun i second => wb1112Done cb i .numeric second

def nextHandler (i : Info A) (cl : WbClass) : Int × Info A :=
  match i.nextHandler with
  | .sot => sot cb i cl
  | .wb1and2Done => wb1and2Done cb i cl
  | .seenWb67Handler => seenWb67Handler cb i cl
  | .seenWb1112Handler => seenWb1112Handler cb i cl

def wbNext (tab : Tables WbClass) (i : Info A) (ch : UInt32) : Int × Info A :=
  nextHandler cb i (unicodeTabLookup ch tab .other)

def wbNextCnt (tab : Tables WbClass) (i : Info A) (chars : List UInt32) : Int × Info A :=
  feed (wbNext cb tab) i chars

def wbEnd (i : Info A) : Int × Info A :=
  match i.endHandler with
  | some .seenWb67EndHandler => seenWb67EndHandler cb i
  | some .seenWb1112EndHandler => seenWb1112EndHandler cb i
  | none => wb4 cb i

end Handlers

/-! ## Scanning for the first word -/

/-- `struct unicode_wbscan_info`, the part its callback changes. -/
structure Scan where
  found : Bool
  cnt : Nat

def wbscanCallback (flag : Int) (i : Scan) : Int × Scan :=
  let i := if flag ≠ 0 ∧ i.cnt > 0 then { i with found := true } else i
  (0, if i.found then i else { i with cnt := i.cnt + 1 })

def wbscanInit : Info Scan := wbInit { found := false, cnt := 0 }

/-- `unicode_wbscan_next`: what it returns, and the handle. -/
def wbscanNext (tab : Tables WbClass) (i : Info Scan) (ch : UInt32) : Bool × Info Scan :=
  let i := if i.cbArg.found then i else (wbNext wbscanCallback tab i ch).2
  (i.cbArg.found, i)

def wbscanEnd (i : Info Scan) : Nat :=
  (wbEnd wbscanCallback i).2.cbArg.cnt

end Cone.Wordbreak
