import Cone.LinebreakHandlers

/-! # Line breaks of a whole text

`unicode_lbc_next` keeps the code points whose values are still to come in a buffer; the
callback pairs each value with the next code point of the buffer. -/
set_option autoImplicit false
namespace Cone.LinebreakText
open Cone.Lib.ReturnCode
open Cone.Lib.HeldBack
open Cone.UnicodeTablookup
open Cone.Linebreak
open Cone.LinebreakRules
open Cone.LinebreakSteps
open Cone.LinebreakHandlers
open LbClass

def lineBreaks (opts : BitVec 32) (text : List LbClass) : List Int := batch (value opts) [] text

section Buffer
variable {A : Type} (cb : Int → UInt32 → A → Int × A)

/-- The code points whose values are to come. -/
def Lbc.waiting (h : Lbc A) : List UInt32 := h.buf.drop h.bufPtr

def put (a : A) (v : Int × UInt32) : A := (cb v.1 v.2 a).2

theorem waiting_append (h : Lbc A) (ch : UInt32) :
    Lbc.waiting (lbcAppend h ch) = Lbc.waiting h ++ [ch] := by
  unfold lbcAppend Lbc.waiting
  by_cases used : h.bufPtr ≥ h.buf.length
  · rw [if_pos used, List.drop_eq_nil_of_le used]
    rfl
  · rw [if_neg used]
    exact List.drop_append_of_le_length (Nat.le_of_not_le used)

theorem append_fields (h : Lbc A) (ch : UInt32) :
    (lbcAppend h ch).cbArg = h.cbArg ∧ (lbcAppend h ch).einval = h.einval := by
  unfold lbcAppend
  by_cases used : h.bufPtr ≥ h.buf.length
  · rw [if_pos used]
    exact ⟨rfl, rfl⟩
  · rw [if_neg used]
    exact ⟨rfl, rfl⟩

variable {cb}

theorem zip_split {V C : Type} (xs ys : List V) (ws : List C) :
    (xs ++ ys).zip ws = xs.zip ws ++ ys.zip (ws.drop xs.length) := by
  induction xs generalizing ws with
  | nil => rfl
  | cons x xs ih =>
      cases ws with
      | nil => simp
      | cons w ws => simp [ih]

theorem emit_lbcCallback (ok : ∀ x ch a, (cb x ch a).1 = 0) (out : List Int) (h : Lbc A)
    (fits : out.length ≤ (Lbc.waiting h).length) :
    ∃ h', emit (lbcCallback cb) out h = (0, h') ∧ h'.einval = h.einval ∧
      Lbc.waiting h' = (Lbc.waiting h).drop out.length ∧
      h'.cbArg = (out.zip (Lbc.waiting h)).foldl (put cb) h.cbArg := by
  induction out generalizing h with
  | nil => exact ⟨h, rfl, rfl, rfl, rfl⟩
  | cons x out ih =>
      have within : h.bufPtr < h.buf.length := by
        simp [Lbc.waiting] at fits
        omega
      have next : Lbc.waiting h = h.buf[h.bufPtr] :: h.buf.drop (h.bufPtr + 1) :=
        List.drop_eq_getElem_cons within
      have call : lbcCallback cb x h = (0, { h with
          bufPtr := h.bufPtr + 1, cbArg := put cb h.cbArg (x, h.buf[h.bufPtr]) }) := by
        rw [lbcCallback, List.getElem?_eq_getElem within]
        exact Prod.ext (ok _ _ _) rfl
      rw [next] at fits ⊢
      obtain ⟨h', run, einval, left, sink⟩ := ih { h with
        bufPtr := h.bufPtr + 1, cbArg := put cb h.cbArg (x, h.buf[h.bufPtr]) }
        (Nat.le_of_succ_le_succ fits)
      refine ⟨h', ?_, einval, left, sink⟩
      rw [emit, call, andThen_ok, run]

end Buffer

section Text
variable {A : Type} (cb : Int → UInt32 → A → Int × A) (tab : Tables LbClass) (opts : BitVec 32)

theorem length_held {B : Type} (i : Info B) (rest rest' : List LbClass) :
    (held i rest).length = (held i rest').length := by
  unfold held
  cases i.nextHandler with
  | nextLb25Seenophy => rfl
  | nextDef => rfl
  | nextLb25Seennu => rfl
  | nextLb25Seennuclcp => rfl

/-- The handle after the code points `before`. -/
structure TextReads (before : List UInt32) (i : Info (Lbc A)) : Prop where
  reads : Reads (before.map (lbLookup tab)) i
  opts : i.opts = opts
  fine : i.cbArg.einval = false
  waits : (Lbc.waiting i.cbArg).length = (held i []).length

def textMachine : Machine (Info (Lbc A)) UInt32 (Int × UInt32) A where
  put := put cb
  sink i := i.cbArg.cbArg
  next := lbcNext cb tab
  value before ch rest :=
    (value opts (before.map (lbLookup tab)) (lbLookup tab ch) (rest.map (lbLookup tab)), ch)
  Reads := TextReads tab opts
  held i rest := (held i (rest.map (lbLookup tab))).zip (Lbc.waiting i.cbArg)

variable {cb}

theorem textMachine_sound (ok : ∀ x ch a, (cb x ch a).1 = 0) :
    (textMachine cb tab opts).Sound := by
  intro before i ch reads
  have now : Lbc.waiting (lbcAppend i.cbArg ch) = Lbc.waiting i.cbArg ++ [ch] :=
    waiting_append i.cbArg ch
  obtain ⟨sameArg, sameErrno⟩ := append_fields i.cbArg ch
  have step : LinebreakSteps.Step (lbcCallback cb) (before.map (lbLookup tab))
      { i with cbArg := lbcAppend i.cbArg ch } (lbLookup tab ch) (lbcNext cb tab i ch) :=
    step_next (reads.reads.withArg (lbcAppend i.cbArg ch))
  obtain ⟨out, i', puts, reads', opts', owes⟩ := step
  have owes' : ∀ rest, out ++ held i' rest = held i (lbLookup tab ch :: rest) ++
      [value i.opts (before.map (lbLookup tab)) (lbLookup tab ch) rest] := owes
  have lengths : out.length + (held i' []).length = (Lbc.waiting i.cbArg).length + 1 := by
    have := congrArg List.length (owes' [])
    rw [List.length_append, List.length_append, length_held i _ []] at this
    rw [this, reads.waits]
    rfl
  have fits : out.length ≤ (Lbc.waiting (lbcAppend i.cbArg ch)).length := by
    rw [now, List.length_append, List.length_singleton]
    omega
  obtain ⟨h', run, einval, left, sink⟩ := emit_lbcCallback ok out (lbcAppend i.cbArg ch) fits
  have call : lbcNext cb tab i ch = (0, { i' with cbArg := h' }) := puts h' run
  show (textMachine cb tab opts).Step before i ch (lbcNext cb tab i ch)
  rw [call]
  refine ⟨rfl, ⟨reads'.withArg h', opts'.trans reads.opts, ?_, ?_⟩,
    out.zip (Lbc.waiting i.cbArg ++ [ch]), ?_, ?_⟩
  · exact einval.trans (sameErrno.trans reads.fine)
  · show (Lbc.waiting h').length = (held i' []).length
    rw [left, now, List.length_drop, List.length_append, List.length_singleton]
    omega
  · show h'.cbArg = _
    rw [sink, now, sameArg]
    rfl
  · intro rest
    show out.zip _ ++ (held i' _).zip (Lbc.waiting h') =
      (held i (lbLookup tab ch :: rest.map (lbLookup tab))).zip (Lbc.waiting i.cbArg) ++ [_]
    rw [left, now, ← zip_split, owes', List.zip_append, reads.opts]
    · rfl
    · rw [reads.waits, length_held i _ []]

theorem batch_text (before text : List UInt32) :
    batch (textMachine cb tab opts).value before text =
      (batch (value opts) (before.map (lbLookup tab)) (text.map (lbLookup tab))).zip text := by
  induction text generalizing before with
  | nil => rfl
  | cons ch text ih =>
      rw [batch_cons, ih]
      rfl

theorem reads_init (a : A) : TextReads tab opts [] (lbcSetOpts (lbcInit a) opts) where
  reads := .nextDef rfl rfl rfl rfl rfl rfl
  opts := rfl
  fine := rfl
  waits := rfl

/-- Every code point is reported once, in order, with the value the rules give it in the whole
text; the callback never runs out of code points. -/
theorem linebreak_agrees (cb : Int → UInt32 → A → Int × A) (ok : ∀ x ch a, (cb x ch a).1 = 0)
    (text : List UInt32) (a : A) :
    let values := lineBreaks opts (text.map (lbLookup tab))
    let fed := feed (lbcNext cb tab) (lbcSetOpts (lbcInit a) opts) text
    let ended := lbcEnd cb fed.2
    values.length = text.length ∧ fed.1 = 0 ∧ ended.1 = 0 ∧ ended.2.cbArg.einval = false ∧
      ended.2.cbArg.cbArg = (values.zip text).foldl (fun a v => (cb v.1 v.2 a).2) a := by
  obtain ⟨i, out, run, reads, emits, owes⟩ :=
    (textMachine_sound tab opts ok).feed text (reads_init tab opts a)
  have fed : feed (lbcNext cb tab) (lbcSetOpts (lbcInit a) opts) text = (0, i) := run
  have reads' : TextReads tab opts (text.reverse ++ []) i := reads
  obtain ⟨i', puts⟩ := @puts_lbEnd _ (lbcCallback cb) _ _ reads'.reads
  obtain ⟨h', last, einval, -, sink⟩ :=
    emit_lbcCallback ok (held i []) i.cbArg (Nat.le_of_eq reads'.waits.symm)
  have ended : lbcEnd cb i = (0, { i' with cbArg := h' }) := puts h' last
  have values : out ++ (held i []).zip (Lbc.waiting i.cbArg) =
      (lineBreaks opts (text.map (lbLookup tab))).zip text := by
    have := owes []
    rw [batch_nil, List.append_nil, List.append_nil, batch_text] at this
    exact this
  simp only [fed, ended]
  refine ⟨by simp [lineBreaks], trivial, trivial, einval.trans reads'.fine, ?_⟩
  rw [sink, show i.cbArg.cbArg = out.foldl (put cb) a from emits, ← List.foldl_append, values]
  rfl

end Text

/-- Letters, digits, the plus sign and the opening parenthesis of ASCII. -/
def asciiTables : Tables LbClass where
  indextab := #[0, 5]
  rangetab := #[(0x28, 0x28), (0x2b, 0x2b), (0x30, 0x39), (0x41, 0x5a), (0x61, 0x7a)]
  classtab := #[OP, PR, NU, AL, AL]

theorem lbLookup_ascii :
    [0x2b, 0x28, 0x31, 0x2b, 0x28, 0x61].map (lbLookup asciiTables) = [PR, OP, NU, PR, OP, AL] := by
  decide +kernel

/-- "+(1+(a": the first parenthesis belongs to a number, the second does not. -/
theorem linebreak_agrees_sample :
    (lbcEnd (fun x ch (got : List (Int × UInt32)) => (0, got ++ [(x, ch)]))
      (feed (lbcNext (fun x ch (got : List (Int × UInt32)) => (0, got ++ [(x, ch)])) asciiTables)
        (lbcSetOpts (lbcInit []) 0) [0x2b, 0x28, 0x31, 0x2b, 0x28, 0x61]).2).2.cbArg.cbArg =
      [(0, 0x2b), (0, 0x28), (0, 0x31), (0, 0x2b), (1, 0x28), (0, 0x61)] := by
  obtain ⟨-, -, -, -, sink⟩ := linebreak_agrees asciiTables 0
    (fun x ch (got : List (Int × UInt32)) => (0, got ++ [(x, ch)])) (fun _ _ _ => rfl)
    [0x2b, 0x28, 0x31, 0x2b, 0x28, 0x61] []
  rw [lbLookup_ascii] at sink
  rw [sink]
  decide +kernel

end Cone.LinebreakText
