import Cone.TransferRoundTrip
import Cone.Lib.Lines

/-! # The lines of a quoted-printable text

The encoder's column and space flag as a function of the characters read, the tokens each
character makes it write, and the lengths of the lines they add up to.  The column is tested
before a character other than a space, and a space held back may have moved it past the limit. -/
set_option autoImplicit false
namespace Cone.EncodeLines

open Cone.Ctype Cone.Lib.ReturnCode Cone.Lib.QuotedPrintable Cone.Lib.Lines Cone.Encode
open Cone.TransferRoundTrip (TransferEncoding encode encodeCalls flushOut_collect)

/-- `input_buf_cnt` and `input_buffer[0]`. -/
structure Counters where
  column : Nat
  space : Bool
  deriving DecidableEq, Repr

def Counters.withSpace (k : Counters) : Nat := if k.space then k.column + 1 else k.column

def Counters.breaks (k : Counters) (p : UInt8) : Prop := k.withSpace > 72 ∧ p ≠ NL

instance (k : Counters) (p : UInt8) : Decidable (k.breaks p) := inferInstanceAs (Decidable (_ ∧ _ ≠ _))

def Counters.next (k : Counters) (p : UInt8) : Counters :=
  if p = SP then ⟨k.withSpace, true⟩
  else if p = NL then ⟨0, false⟩
  else ⟨(if k.breaks p then 0 else k.withSpace) + (if needsEscape p then 3 else 1), false⟩

def Counters.pending (k : Counters) (p : UInt8) : List Token :=
  if k.space then [if p = NL then .escape SP else .literal SP] else []

def tokenOf (p : UInt8) : Token := if p ≠ NL ∧ needsEscape p then .escape p else .literal p

/-- What the character `p` makes the encoder write. -/
def Counters.tokens (k : Counters) (p : UInt8) : List Token :=
  k.pending p ++
    (if p = SP then [] else (if k.breaks p then [.softBreak] else []) ++ [tokenOf p])

def allTokens (k : Counters) : List UInt8 → List Token
  | [] => []
  | p :: ptr => k.tokens p ++ allTokens (k.next p) ptr

def allCounters (k : Counters) (ptr : List UInt8) : Counters := ptr.foldl Counters.next k

/-! ## The encoder follows the counters -/

section Column
variable {σ : Type}

theorem eflush_inputBufCnt (bytes : List UInt8) (info : EncodeInfo σ) :
    (eflush bytes info).2.inputBufCnt = info.inputBufCnt := by
  induction bytes generalizing info with
  | nil => rfl
  | cons c ptr ih =>
      rw [eflush]
      split
      · refine andThen_rule (fun r : Int × EncodeInfo σ => r.2.inputBufCnt = info.inputBufCnt)
          _ _ rfl fun _ => ?_
        exact ih _
      · exact ih _

theorem qput_inputBufCnt (c : UInt8) (s : QpState σ) :
    (qput c s).2.info.inputBufCnt = s.info.inputBufCnt := by
  rw [qput]
  split
  · exact andThen_rule (fun r : Int × QpState σ => r.2.info.inputBufCnt = s.info.inputBufCnt)
      _ _ (eflush_inputBufCnt _ _) fun _ => eflush_inputBufCnt _ _
  · rfl

theorem qputs_inputBufCnt (cs : List UInt8) (s : QpState σ) :
    (qputs cs s).2.info.inputBufCnt = s.info.inputBufCnt := by
  induction cs generalizing s with
  | nil => rfl
  | cons c cs ih =>
      rw [qputs]
      exact andThen_rule (fun r : Int × QpState σ => r.2.info.inputBufCnt = s.info.inputBufCnt)
        _ _ (qput_inputBufCnt c s) fun _ => (ih _).trans (qput_inputBufCnt c s)

end Column

def countersOf (info : Info) : Counters := ⟨info.inputBufCnt, info.prevSpace⟩

structure Steps (s s' : Qp) (ts : List Token) (n : Nat) : Prop where
  put : Put s s' (render ts)
  column : s'.info.inputBufCnt = n

theorem qput_steps (t : Token) (c : UInt8) (one : t.render = [c]) (s : Qp)
    (hc : s.info.callbackFunc = collect) :
    ∃ s', qput c s = (0, s') ∧ Steps s s' [t] s.info.inputBufCnt := by
  obtain ⟨s', run, h⟩ := qput_put c s hc
  have column := qput_inputBufCnt c s
  rw [run] at column
  refine ⟨s', run, ?_, column⟩
  simpa [one] using h

theorem qputs_steps (t : Token) (s : Qp) (hc : s.info.callbackFunc = collect) :
    ∃ s', qputs t.render s = (0, s') ∧ Steps s s' [t] s.info.inputBufCnt := by
  obtain ⟨s', run, h⟩ := qputs_put t.render s hc
  have column := qputs_inputBufCnt t.render s
  rw [run] at column
  refine ⟨s', run, ?_, column⟩
  simpa using h

theorem Steps.setColumn {s s' : Qp} {ts : List Token} {n : Nat} (h : Steps s s' ts n) (m : Nat) :
    Steps s (s'.setColumn m) ts m :=
  ⟨h.put.setColumn m, rfl⟩

theorem putPendingSpace_steps (p : UInt8) (s : Qp) (hc : s.info.callbackFunc = collect) :
    ∃ s', putPendingSpace p s = (0, s') ∧
      Steps s s' ((countersOf s.info).pending p) (countersOf s.info).withSpace := by
  by_cases flag : s.info.prevSpace = true
  · by_cases nl : p = NL
    · obtain ⟨s', run, h⟩ := qputs_steps (.escape SP) s hc
      refine ⟨s'.setColumn (s'.info.inputBufCnt + 1), ?_, ?_⟩
      · rw [putPendingSpace, if_pos flag, if_pos nl, hexEscape_render, run, andThen_ok]
      · rw [h.column]
        simpa [Counters.pending, Counters.withSpace, countersOf, flag, nl] using
          h.setColumn (s.info.inputBufCnt + 1)
    · obtain ⟨s', run, h⟩ := qput_steps (.literal SP) SP rfl s hc
      refine ⟨s'.setColumn (s'.info.inputBufCnt + 1), ?_, ?_⟩
      · rw [putPendingSpace, if_pos flag, if_neg nl, run, andThen_ok]
      · rw [h.column]
        simpa [Counters.pending, Counters.withSpace, countersOf, flag, nl] using
          h.setColumn (s.info.inputBufCnt + 1)
  · refine ⟨s, by rw [putPendingSpace, if_neg flag], ?_⟩
    simp only [Counters.pending, Counters.withSpace, countersOf, flag]
    exact ⟨⟨by simp, hc, rfl, rfl⟩, rfl⟩

theorem putSoftBreak_steps (p : UInt8) (s : Qp) (hc : s.info.callbackFunc = collect) :
    ∃ s', putSoftBreak p s = (0, s') ∧
      Steps s s' (if s.info.inputBufCnt > 72 ∧ p ≠ NL then [.softBreak] else [])
        (if s.info.inputBufCnt > 72 ∧ p ≠ NL then 0 else s.info.inputBufCnt) := by
  by_cases long : s.info.inputBufCnt > 72 ∧ p ≠ NL
  · obtain ⟨s', run, h⟩ := qputs_steps .softBreak s hc
    refine ⟨s'.setColumn 0, ?_, ?_⟩
    · rw [putSoftBreak, if_pos long, show [byte '=', NL] = Token.softBreak.render from rfl, run,
        andThen_ok]
    · rw [if_pos long, if_pos long]
      exact h.setColumn 0
  · rw [putSoftBreak, if_neg long, if_neg long, if_neg long]
    exact ⟨s, rfl, ⟨by simp, hc, rfl, rfl⟩, rfl⟩

theorem putCharacter_steps (p : UInt8) (s : Qp) (hc : s.info.callbackFunc = collect) :
    ∃ s', putCharacter p s = (0, s') ∧
      Steps s s' [tokenOf p]
        (if p = NL then 0 else s.info.inputBufCnt + if needsEscape p then 3 else 1) := by
  by_cases nl : p = NL
  · obtain ⟨s', run, h⟩ := qput_steps (.literal p) p rfl (s.setColumn 0) hc
    refine ⟨s', by rw [putCharacter, if_pos nl, run], ?_⟩
    rw [tokenOf, if_neg (fun both => both.1 nl), if_pos nl]
    exact ⟨⟨h.put.written, h.put.callback, h.put.prevSpace, h.put.encodingFunc⟩, h.column⟩
  · by_cases esc : needsEscape p = true
    · obtain ⟨s', run, h⟩ := qputs_steps (.escape p) s hc
      refine ⟨s'.setColumn (s'.info.inputBufCnt + 3), ?_, ?_⟩
      · rw [putCharacter, if_neg nl, if_pos esc, hexEscape_render, run, andThen_ok]
      · rw [h.column, tokenOf, if_pos ⟨nl, esc⟩, if_neg nl, if_pos esc]
        exact h.setColumn _
    · obtain ⟨s', run, h⟩ := qput_steps (.literal p) p rfl (s.setColumn (s.info.inputBufCnt + 1)) hc
      refine ⟨s', by rw [putCharacter, if_neg nl, if_neg esc, run], ?_⟩
      rw [tokenOf, if_neg (fun both => esc both.2), if_neg nl, if_neg esc]
      exact ⟨⟨h.put.written, h.put.callback, h.put.prevSpace, h.put.encodingFunc⟩, h.column⟩

theorem character_steps (p : UInt8) (ptr : List UInt8) (s : Qp)
    (hc : s.info.callbackFunc = collect) :
    ∃ s', quotedPrintableLoop (p :: ptr) s = quotedPrintableLoop ptr s' ∧
      s'.info.callbackFunc = collect ∧ s'.info.encodingFunc = s.info.encodingFunc ∧
      qpWritten s' = qpWritten s ++ render ((countersOf s.info).tokens p) ∧
      countersOf s'.info = (countersOf s.info).next p := by
  obtain ⟨s₁, run₁, h₁⟩ := putPendingSpace_steps p s hc
  by_cases sp : p = SP
  · refine ⟨(s₁.setSpace false).setSpace true, ?_, h₁.put.callback, h₁.put.encodingFunc, ?_, ?_⟩
    · rw [quotedPrintableLoop, run₁, andThen_ok]
      simp only [if_pos sp]
    · rw [Counters.tokens, if_pos sp, List.append_nil]
      exact h₁.put.written
    · rw [Counters.next, if_pos sp, ← h₁.column]
      rfl
  · obtain ⟨s₂, run₂, h₂⟩ := putSoftBreak_steps p (s₁.setSpace false) h₁.put.callback
    obtain ⟨s₃, run₃, h₃⟩ := putCharacter_steps p s₂ h₂.put.callback
    have column : (s₁.setSpace false).info.inputBufCnt = (countersOf s.info).withSpace := h₁.column
    rw [column] at h₂
    refine ⟨s₃, ?_, h₃.put.callback, ?_, ?_, ?_⟩
    · rw [quotedPrintableLoop, run₁, andThen_ok]
      simp only [if_neg sp, run₂, andThen_ok, run₃]
    · rw [h₃.put.encodingFunc, h₂.put.encodingFunc]
      exact h₁.put.encodingFunc
    · have same : qpWritten (s₁.setSpace false) = qpWritten s₁ := rfl
      rw [h₃.put.written, h₂.put.written, same, h₁.put.written, Counters.tokens, if_neg sp]
      simp only [render_append, List.append_assoc]
      rfl
    · have space : s₃.info.prevSpace = false := by
        rw [h₃.put.prevSpace, h₂.put.prevSpace]
        rfl
      rw [countersOf, h₃.column, space, h₂.column, Counters.next, if_neg sp]
      by_cases nl : p = NL
      · rw [if_pos nl, if_pos nl]
      · rw [if_neg nl, if_neg nl]
        rfl

theorem quotedPrintableLoop_steps (ptr : List UInt8) (s : Qp)
    (hc : s.info.callbackFunc = collect) :
    ∃ s', quotedPrintableLoop ptr s = (0, s') ∧ s'.info.callbackFunc = collect ∧
      s'.info.encodingFunc = s.info.encodingFunc ∧
      qpWritten s' = qpWritten s ++ render (allTokens (countersOf s.info) ptr) ∧
      countersOf s'.info = allCounters (countersOf s.info) ptr := by
  induction ptr generalizing s with
  | nil => exact ⟨s, rfl, hc, rfl, by simp [allTokens], rfl⟩
  | cons p ptr ih =>
      obtain ⟨s₁, run₁, hc₁, henc₁, hw₁, hk₁⟩ := character_steps p ptr s hc
      obtain ⟨s', run, hc', henc, hw, hk⟩ := ih s₁ hc₁
      refine ⟨s', run₁.trans run, hc', henc.trans henc₁, ?_, ?_⟩
      · rw [hw, hw₁, hk₁, allTokens, render_append, List.append_assoc]
      · rw [hk, hk₁]
        rfl

theorem quotedPrintable_steps (ptr : List UInt8) (info : Info) (hc : info.callbackFunc = collect) :
    ∃ info', quotedPrintable ptr info = (0, info') ∧ info'.callbackFunc = collect ∧
      info'.encodingFunc = info.encodingFunc ∧
      written info' = written info ++ render (allTokens (countersOf info) ptr) ∧
      countersOf info' = allCounters (countersOf info) ptr := by
  obtain ⟨s', run, hc', henc, hw, hk⟩ := quotedPrintableLoop_steps ptr ⟨[], info⟩ hc
  obtain ⟨info', run', h⟩ := eflush_wrote s'.localBuf s'.info hc'
  have column := eflush_inputBufCnt s'.localBuf s'.info
  rw [run'] at column
  refine ⟨info', ?_, h.callback, h.encodingFunc.trans henc, ?_, ?_⟩
  · simp [quotedPrintable, run, run']
  · rw [h.written]
    simpa [qpWritten] using hw
  · rw [← hk, countersOf, countersOf, h.prevSpace, column]

theorem allTokens_append (k : Counters) (a b : List UInt8) :
    allTokens k (a ++ b) = allTokens k a ++ allTokens (allCounters k a) b := by
  induction a generalizing k with
  | nil => rfl
  | cons p a ih =>
      rw [List.cons_append, allTokens, allTokens, ih, List.append_assoc]
      rfl

theorem encodeCalls_steps (calls : List (List UInt8)) (info : Info)
    (hc : info.callbackFunc = collect) (hqp : info.encodingFunc = .quotedPrintable) :
    ∃ info', encodeCalls calls info = (0, info') ∧ info'.callbackFunc = collect ∧
      info'.encodingFunc = .quotedPrintable ∧
      written info' = written info ++ render (allTokens (countersOf info) calls.flatten) := by
  induction calls generalizing info with
  | nil => exact ⟨info, rfl, hc, hqp, by simp [allTokens]⟩
  | cons ptr calls ih =>
      obtain ⟨info₁, run₁, hc₁, henc₁, hw₁, hk₁⟩ := quotedPrintable_steps ptr info hc
      obtain ⟨info', run, hc', hqp', hw⟩ := ih info₁ hc₁ (henc₁.trans hqp)
      refine ⟨info', ?_, hc', hqp', ?_⟩
      · rw [encodeCalls, libmailEncode, hqp]
        simp only [run₁, andThen_ok, run]
      · rw [hw, hw₁, hk₁, List.flatten_cons, allTokens_append, render_append, List.append_assoc]

def start : Counters := ⟨0, false⟩

theorem encode_qp (calls : List (List UInt8)) :
    encode .quotedPrintable calls = (0, render (allTokens start calls.flatten)) := by
  obtain ⟨info, run, hc, hqp, hw⟩ := encodeCalls_steps calls
    (libmailEncodeStart TransferEncoding.quotedPrintable.name collect []) rfl (by decide)
  obtain ⟨info', flush, out⟩ := flushOut_collect info hc
  have fin : libmailEncodeEnd info = (0, info') := by
    rw [libmailEncodeEnd, encodingFuncEnd, hqp]
    simpa using flush
  simp only [encode, run, andThen_ok, fin, out, hw]
  rfl

/-! ## The lines -/

def GoodLine (line : List UInt8) : Prop := line.length ≤ 76 ∧ line.getLast? ≠ some SP

instance (line : List UInt8) : Decidable (GoodLine line) := inferInstanceAs (Decidable (_ ≤ _ ∧ _ ≠ _))

/-- The space held back makes the line that `p` ends too long. -/
def Counters.Overruns (k : Counters) (p : UInt8) : Prop :=
  k.space = true ∧ p ≠ SP ∧ k.column > if p = NL then 73 else 74

instance (k : Counters) (p : UInt8) : Decidable (k.Overruns p) :=
  inferInstanceAs (Decidable (_ = true ∧ _ ≠ _ ∧ _))

def Fits (k : Counters) : List UInt8 → Prop
  | [] => True
  | p :: ptr => ¬ k.Overruns p ∧ Fits (k.next p) ptr

def spacesAtEnd : Nat → List UInt8 → Nat
  | n, [] => n
  | n, p :: ptr => spacesAtEnd (if p = SP then n + 1 else 0) ptr

structure Open (line : List UInt8) (k : Counters) (n : Nat) : Prop where
  column : line.length = k.column
  space : k.space = true ↔ 1 ≤ n
  last : line.getLast? = some SP ↔ 2 ≤ n
  short : n ≤ 1 → k.column ≤ 75

theorem hexDigit_ne_SP (n : Nat) (h : n < 16) : hexDigit n ≠ SP := by
  have all : ∀ n : Fin 16, hexDigit n ≠ SP := by decide
  exact all ⟨n, h⟩

theorem tokenOf_render (p : UInt8) (sp : p ≠ SP) (nl : p ≠ NL) :
    NL ∉ (tokenOf p).render ∧ (tokenOf p).render.length = (if needsEscape p then 3 else 1) ∧
      ∀ line, (line ++ (tokenOf p).render).getLast? ≠ some SP := by
  by_cases esc : needsEscape p = true
  · have hi := hexDigit_facts (p.toNat / 16) (by have := p.toNat_lt; omega)
    have lo := hexDigit_facts (p.toNat % 16) (by omega)
    have last := hexDigit_ne_SP (p.toNat % 16) (by omega)
    rw [tokenOf, if_pos ⟨nl, esc⟩, if_pos esc]
    refine ⟨?_, rfl, fun line => ?_⟩
    · simp [Token.render, hi.2.1.symm, lo.2.1.symm]
      decide
    · simpa [Token.render] using last
  · rw [tokenOf, if_neg (fun both => esc both.2), if_neg esc]
    refine ⟨?_, rfl, fun line => ?_⟩
    · simpa [Token.render] using Ne.symm nl
    · simpa [Token.render] using sp

theorem Open.good_iff {line : List UInt8} {k : Counters} {n : Nat} (h : Open line k n) :
    GoodLine line ↔ n ≤ 1 := by
  constructor
  · intro good
    by_contra many
    exact good.2 (h.last.mpr (by omega))
  · intro few
    have short := h.short few
    refine ⟨by rw [h.column]; omega, fun last => ?_⟩
    have := h.last.mp last
    omega

def Counters.spaced (k : Counters) (line : List UInt8) : List UInt8 :=
  if k.space then line ++ [SP] else line

theorem length_spaced (k : Counters) (line : List UInt8) (h : line.length = k.column) :
    (k.spaced line).length = k.withSpace := by
  rw [Counters.spaced, Counters.withSpace]
  by_cases space : k.space = true
  · rw [if_pos space, if_pos space, List.length_append, h]
    rfl
  · rw [if_neg space, if_neg space, h]

theorem eachLine_pending (k : Counters) (p : UInt8) (nl : p ≠ NL) (line rest : List UInt8) :
    EachLine NL GoodLine line (render (k.pending p) ++ rest) ↔
      EachLine NL GoodLine (k.spaced line) rest := by
  rw [Counters.pending, Counters.spaced]
  by_cases space : k.space = true
  · rw [if_pos space, if_pos space, if_neg nl]
    exact eachLine_append NL GoodLine line [SP] rest (by decide)
  · rw [if_neg space, if_neg space]
    exact Iff.rfl

def Advances (line : List UInt8) (k : Counters) (n : Nat) (p : UInt8) (line' : List UInt8) : Prop :=
  Open line' (k.next p) (if p = SP then n + 1 else 0) ∧
    ∀ rest, EachLine NL GoodLine line (render (k.tokens p) ++ rest) ↔
      ¬ k.Overruns p ∧ EachLine NL GoodLine line' rest

theorem advances_space (line : List UInt8) (k : Counters) (n : Nat) (h : Open line k n) :
    Advances line k n SP (k.spaced line) := by
  have nl : SP ≠ NL := by decide
  refine ⟨⟨?_, ?_, ?_, ?_⟩, fun rest => ?_⟩
  · rw [length_spaced k line h.column, Counters.next, if_pos rfl]
  · simp [Counters.next]
  · rw [if_pos rfl, Counters.spaced]
    by_cases space : k.space = true
    · have := h.space.mp space
      rw [if_pos space]
      simp
      omega
    · have none : ¬ 1 ≤ n := fun one => space (h.space.mpr one)
      rw [if_neg space, h.last]
      omega
  · rw [if_pos rfl, Counters.next, if_pos rfl]
    intro few
    have space : ¬ k.space = true := fun one => by
      have := h.space.mp one
      omega
    rw [Counters.withSpace, if_neg space]
    exact h.short (by omega)
  · have calm : ¬ k.Overruns SP := fun excess => excess.2.1 rfl
    rw [Counters.tokens, if_pos rfl, List.append_nil, eachLine_pending k SP nl]
    exact (and_iff_right calm).symm

theorem advances_newline (line : List UInt8) (k : Counters) (n : Nat) (h : Open line k n) :
    Advances line k n NL [] := by
  have sp : NL ≠ SP := by decide
  refine ⟨⟨rfl, ?_, ?_, ?_⟩, fun rest => ?_⟩
  · simp [Counters.next, sp]
  · simp [sp]
  · simp [Counters.next, sp]
  · have calm : ¬ k.breaks NL := fun broken => broken.2 rfl
    have token : (tokenOf NL).render = [NL] := by decide
    rw [Counters.tokens, if_neg sp, if_neg calm, List.nil_append, render_append, render_cons, token,
      render_nil, List.append_nil, List.append_assoc, List.singleton_append, Counters.pending,
      Counters.Overruns]
    by_cases space : k.space = true
    · have escaped : NL ∉ (Token.escape SP).render := by decide
      have last : (line ++ (Token.escape SP).render).getLast? ≠ some SP := by
        simp +decide [Token.render]
      rw [if_pos space, if_pos rfl, if_pos rfl, render_cons, render_nil, List.append_nil,
        eachLine_append NL GoodLine line _ _ escaped, eachLine_sep]
      refine and_congr_left' ?_
      constructor
      · intro good excess
        have long := good.1
        simp only [List.length_append, h.column, Token.render, List.length_cons,
          List.length_nil] at long
        have := excess.2.2
        omega
      · intro calm
        refine ⟨?_, last⟩
        have short : ¬ k.column > 73 := fun excess => calm ⟨space, sp, excess⟩
        simp only [List.length_append, h.column, Token.render, List.length_cons, List.length_nil]
        omega
    · have few : n ≤ 1 := by
        by_contra many
        exact space (h.space.mpr (by omega))
      rw [if_neg space, render_nil, List.nil_append, eachLine_sep]
      exact and_congr_left' (iff_of_true (h.good_iff.mpr few) fun excess => space excess.1)

theorem advances_other (line : List UInt8) (k : Counters) (n : Nat) (p : UInt8)
    (h : Open line k n) (sp : p ≠ SP) (nl : p ≠ NL) :
    Advances line k n p
      ((if k.breaks p then [] else k.spaced line) ++ (tokenOf p).render) := by
  obtain ⟨inLine, length, last⟩ := tokenOf_render p sp nl
  have spaced := length_spaced k line h.column
  have width : (if needsEscape p = true then 3 else 1) ≤ 3 := by split <;> omega
  have opened : ∀ line' : List UInt8, line'.length = (if k.breaks p then 0 else k.withSpace) →
      Open (line' ++ (tokenOf p).render) (k.next p) 0 := by
    intro line' hlen
    rw [Counters.next, if_neg sp, if_neg nl]
    refine ⟨?_, by simp, by simpa using last line', fun _ => ?_⟩
    · rw [List.length_append, hlen, length]
    · show (if k.breaks p then 0 else k.withSpace) + (if needsEscape p then 3 else 1) ≤ 75
      by_cases broken : k.breaks p
      · rw [if_pos broken]
        omega
      · have low : ¬ k.withSpace > 72 := fun high => broken ⟨high, nl⟩
        rw [if_neg broken]
        omega
  rw [Advances, if_neg sp]
  by_cases broken : k.breaks p
  · rw [if_pos broken]
    refine ⟨opened [] (by rw [if_pos broken]; rfl), fun rest => ?_⟩
    have soft : Token.softBreak.render = [EQ] ++ [NL] := rfl
    rw [Counters.tokens, if_neg sp, if_pos broken, render_append, List.append_assoc,
      eachLine_pending k p nl, List.singleton_append, render_cons, render_cons, render_nil,
      List.append_nil, List.append_assoc, soft, List.append_assoc,
      eachLine_append NL GoodLine _ [EQ] _ (by decide), List.singleton_append, eachLine_sep,
      eachLine_append NL GoodLine [] _ _ inLine]
    refine and_congr_left' ?_
    have equals : (k.spaced line ++ [EQ]).getLast? ≠ some SP := by
      simp +decide
    rw [GoodLine, and_iff_left equals, List.length_append, spaced, Counters.Overruns, if_neg nl,
      Counters.withSpace]
    by_cases space : k.space = true
    · rw [if_pos space, and_iff_right space, and_iff_right sp, List.length_singleton]
      omega
    · have few : n ≤ 1 := by
        by_contra many
        exact space (h.space.mpr (by omega))
      have short := h.short few
      rw [if_neg space, List.length_singleton]
      exact iff_of_true (by omega) fun excess => space excess.1
  · rw [if_neg broken]
    refine ⟨opened _ (by rw [if_neg broken]; exact spaced), fun rest => ?_⟩
    have calm : ¬ k.Overruns p := by
      intro excess
      have low : ¬ k.withSpace > 72 := fun high => broken ⟨high, nl⟩
      have high := excess.2.2
      rw [if_neg nl] at high
      rw [Counters.withSpace, if_pos excess.1] at low
      omega
    rw [Counters.tokens, if_neg sp, if_neg broken, List.nil_append, render_append, List.append_assoc,
      eachLine_pending k p nl, render_cons, render_nil, List.append_nil,
      eachLine_append NL GoodLine _ _ _ inLine]
    exact (and_iff_right calm).symm

theorem advances (line : List UInt8) (k : Counters) (n : Nat) (p : UInt8) (h : Open line k n) :
    ∃ line', Advances line k n p line' := by
  by_cases sp : p = SP
  · exact ⟨_, sp ▸ advances_space line k n h⟩
  · by_cases nl : p = NL
    · exact ⟨_, nl ▸ advances_newline line k n h⟩
    · exact ⟨_, advances_other line k n p h sp nl⟩

theorem eachLine_tokens (ptr : List UInt8) (line : List UInt8) (k : Counters) (n : Nat)
    (h : Open line k n) :
    EachLine NL GoodLine line (render (allTokens k ptr)) ↔ Fits k ptr ∧ spacesAtEnd n ptr ≤ 1 := by
  induction ptr generalizing line k n with
  | nil =>
      rw [allTokens, render_nil, eachLine_nil, h.good_iff, spacesAtEnd, Fits, true_and]
  | cons p ptr ih =>
      obtain ⟨line', h', step⟩ := advances line k n p h
      rw [allTokens, render_append, step, ih line' (k.next p) _ h', Fits, spacesAtEnd, and_assoc]

/-! ## Whole escapes -/

/-- Every `=` is followed by its two digits or by the line end of a soft break. -/
def WholeEscapes (text : List UInt8) : Prop :=
  ∀ u v, text = u ++ EQ :: v →
    (∃ w, v = NL :: w) ∨ ∃ hi lo w, v = hi :: lo :: w ∧ hi ∈ xdigit ∧ lo ∈ xdigit

theorem hexDigit_mem (n : Nat) (h : n < 16) : hexDigit n ∈ xdigit := by
  have all : ∀ n : Fin 16, hexDigit n ∈ xdigit := by decide
  exact all ⟨n, h⟩

theorem wholeEscapes_render (ts : List Token) (plain : ∀ t ∈ ts, t.Plain) :
    WholeEscapes (render ts) := by
  induction ts with
  | nil =>
      intro u v h
      simp at h
  | cons t ts ih =>
      have later := ih fun t ht => plain t (List.mem_cons_of_mem _ ht)
      have head := plain t (List.mem_cons_self ..)
      intro u v h
      rw [render_cons] at h
      cases t with
      | literal c =>
          cases u with
          | nil => exact absurd (List.cons.inj h).1 head.1
          | cons d u => exact later u v (List.cons.inj h).2
      | escape c =>
          have hi := hexDigit_facts (c.toNat / 16) (by have := c.toNat_lt; omega)
          have lo := hexDigit_facts (c.toNat % 16) (by omega)
          have hiMem := hexDigit_mem (c.toNat / 16) (by have := c.toNat_lt; omega)
          have loMem := hexDigit_mem (c.toNat % 16) (by omega)
          match u, h with
          | [], h => exact Or.inr ⟨_, _, _, (List.cons.inj h).2.symm, hiMem, loMem⟩
          | [_], h => exact absurd (List.cons.inj (List.cons.inj h).2).1 hi.1
          | [_, _], h =>
              exact absurd (List.cons.inj (List.cons.inj (List.cons.inj h).2).2).1 lo.1
          | _ :: _ :: _ :: u, h =>
              exact later u v (List.cons.inj (List.cons.inj (List.cons.inj h).2).2).2
      | softBreak =>
          match u, h with
          | [], h => exact Or.inl ⟨_, (List.cons.inj h).2.symm⟩
          | [_], h => exact absurd (List.cons.inj (List.cons.inj h).2).1 (by decide)
          | _ :: _ :: u, h => exact later u v (List.cons.inj (List.cons.inj h).2).2

theorem tokens_plain (k : Counters) (p : UInt8) : ∀ t ∈ k.tokens p, t.Plain := by
  have space : (Token.literal SP).Plain := by simp +decide [Token.Plain]
  have own : (tokenOf p).Plain := by
    rw [tokenOf]
    by_cases esc : p ≠ NL ∧ needsEscape p = true
    · rw [if_pos esc]
      trivial
    · rw [if_neg esc]
      by_cases nl : p = NL
      · subst nl
        simp +decide [Token.Plain]
      · exact plain_of_not_needsEscape (Bool.eq_false_iff.mpr fun bad => esc ⟨nl, bad⟩)
  have pending : ∀ t ∈ k.pending p, t.Plain := by
    rw [Counters.pending]
    intro t ht
    split at ht
    · split at ht
      · obtain rfl := List.mem_singleton.mp ht
        trivial
      · obtain rfl := List.mem_singleton.mp ht
        exact space
    · cases ht
  rw [Counters.tokens]
  refine List.forall_mem_append.mpr ⟨pending, ?_⟩
  by_cases sp : p = SP
  · simp [sp]
  · rw [if_neg sp]
    refine List.forall_mem_append.mpr ⟨?_, by simpa using own⟩
    split
    · simp [Token.Plain]
    · simp

theorem allTokens_plain (k : Counters) (ptr : List UInt8) : ∀ t ∈ allTokens k ptr, t.Plain := by
  induction ptr generalizing k with
  | nil => simp [allTokens]
  | cons p ptr ih => exact List.forall_mem_append.mpr ⟨tokens_plain k p, ih (k.next p)⟩

/-! ## The whole text -/

/-- Lines of at most 76 characters that do not end in a space, and escapes in one piece: this
holds if and only if no character finds the line overrun by the space held back before it, and
the input does not end in two spaces. -/
theorem good_lines_iff (calls : List (List UInt8)) :
    ((∀ line ∈ (encode .quotedPrintable calls).2.splitOn NL, GoodLine line) ∧
        WholeEscapes (encode .quotedPrintable calls).2) ↔
      Fits start calls.flatten ∧ spacesAtEnd 0 calls.flatten ≤ 1 := by
  have opened : Open [] start 0 := ⟨rfl, by decide, by decide, fun _ => by decide⟩
  rw [encode_qp, forall_splitOn_iff, eachLine_tokens _ _ _ _ opened]
  exact and_iff_left (wholeEscapes_render _ (allTokens_plain start _))

/-- 72 letters, an escape, a space and a letter: the soft break is the 77th character. -/
theorem space_overruns :
    ¬ ∀ calls : List (List UInt8),
      (∀ line ∈ (encode .quotedPrintable calls).2.splitOn NL, GoodLine line) ∧
        WholeEscapes (encode .quotedPrintable calls).2 := by
  intro good
  have h := (good [List.replicate 72 (byte 'a') ++ [EQ, SP, byte 'a']]).1
  rw [encode_qp] at h
  revert h
  decide +kernel

end Cone.EncodeLines
