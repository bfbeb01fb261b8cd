import Cone.Encode
import Cone.Lib.QuotedPrintable

/-! # What the transfer encoders write

With the client that keeps every byte, `written` is everything that has left or still sits in
the output buffer.  The quoted-printable encoder writes tokens whose value is its input, but for
a space it may still hold back; the base64 encoder writes the quanta of complete lines. -/
set_option autoImplicit false
namespace Cone.Encode

open Cone.Ctype Cone.Lib.ReturnCode Cone.Lib.QuotedPrintable

abbrev Info := EncodeInfo (List UInt8)

def written (info : Info) : List UInt8 := info.callbackArg ++ info.outputBuffer

structure Wrote (info info' : Info) (bytes : List UInt8) : Prop where
  written : written info' = written info ++ bytes
  callback : info'.callbackFunc = collect
  inputBuffer : info'.inputBuffer = info.inputBuffer
  prevSpace : info'.prevSpace = info.prevSpace
  encodingFunc : info'.encodingFunc = info.encodingFunc

theorem callOut_collect (info : Info) (hc : info.callbackFunc = collect) :
    callOut info =
      (0, { info with outputBuffer := [], callbackArg := info.callbackArg ++ info.outputBuffer }) := by
  simp [callOut, hc]

theorem eflush_wrote (bytes : List UInt8) (info : Info) (hc : info.callbackFunc = collect) :
    ∃ info', eflush bytes info = (0, info') ∧ Wrote info info' bytes := by
  induction bytes generalizing info with
  | nil => exact ⟨info, rfl, by simp, hc, rfl, rfl, rfl⟩
  | cons c ptr ih =>
      by_cases full : info.outputBuffer.length = outputBufferSize
      · obtain ⟨info', run, h⟩ := ih { info with
          outputBuffer := [] ++ [c], callbackArg := info.callbackArg ++ info.outputBuffer } hc
        refine ⟨info', ?_, ?_, h.callback, h.inputBuffer, h.prevSpace, h.encodingFunc⟩
        · rw [eflush, if_pos full, callOut_collect info hc, andThen_ok]
          exact run
        · rw [h.written]
          simp [Encode.written]
      · obtain ⟨info', run, h⟩ := ih { info with outputBuffer := info.outputBuffer ++ [c] } hc
        refine ⟨info', ?_, ?_, h.callback, h.inputBuffer, h.prevSpace, h.encodingFunc⟩
        · rw [eflush, if_neg full]
          exact run
        · rw [h.written]
          simp [Encode.written]

/-! ## Quoted-printable -/

abbrev Qp := QpState (List UInt8)

def qpWritten (s : Qp) : List UInt8 := written s.info ++ s.localBuf

/-- `s'` is `s` after the bytes `out` have gone to the local buffer. -/
structure Put (s s' : Qp) (out : List UInt8) : Prop where
  written : qpWritten s' = qpWritten s ++ out
  callback : s'.info.callbackFunc = collect
  prevSpace : s'.info.prevSpace = s.info.prevSpace
  encodingFunc : s'.info.encodingFunc = s.info.encodingFunc

theorem Put.trans {s s' s'' : Qp} {out out' : List UInt8} (h : Put s s' out) (h' : Put s' s'' out') :
    Put s s'' (out ++ out') := by
  refine ⟨?_, h'.callback, h'.prevSpace.trans h.prevSpace, h'.encodingFunc.trans h.encodingFunc⟩
  rw [h'.written, h.written, List.append_assoc]

theorem qput_put (c : UInt8) (s : Qp) (hc : s.info.callbackFunc = collect) :
    ∃ s', qput c s = (0, s') ∧ Put s s' [c] := by
  by_cases full : s.localBuf.length = localBufSize
  · obtain ⟨info', run, h⟩ := eflush_wrote s.localBuf s.info hc
    refine ⟨⟨[c], info'⟩, ?_, ?_, h.callback, h.prevSpace, h.encodingFunc⟩
    · simp [qput, full, run]
    · simp [qpWritten, h.written]
  · refine ⟨{ s with localBuf := s.localBuf ++ [c] }, ?_, ?_, hc, rfl, rfl⟩
    · simp [qput, full]
    · simp [qpWritten]

theorem qputs_put (cs : List UInt8) (s : Qp) (hc : s.info.callbackFunc = collect) :
    ∃ s', qputs cs s = (0, s') ∧ Put s s' cs := by
  induction cs generalizing s with
  | nil => exact ⟨s, rfl, by simp, hc, rfl, rfl⟩
  | cons c cs ih =>
      obtain ⟨s₁, run₁, h₁⟩ := qput_put c s hc
      obtain ⟨s₂, run₂, h₂⟩ := ih s₁ h₁.callback
      exact ⟨s₂, by rw [qputs, run₁, andThen_ok, run₂], h₁.trans h₂⟩

theorem Put.setColumn {s s' : Qp} {out : List UInt8} (h : Put s s' out) (n : Nat) :
    Put s (s'.setColumn n) out :=
  ⟨h.written, h.callback, h.prevSpace, h.encodingFunc⟩

theorem hexEscape_render (c : UInt8) : hexEscape c = (Token.escape c).render := rfl

theorem putPendingSpace_put (p : UInt8) (s : Qp) (hc : s.info.callbackFunc = collect) :
    ∃ s' ts, putPendingSpace p s = (0, s') ∧ Put s s' (render ts) ∧ (∀ t ∈ ts, t.Plain) ∧
      value ts = if s.info.prevSpace then [SP] else [] := by
  by_cases flag : s.info.prevSpace = true
  · by_cases nl : p = NL
    · obtain ⟨s', run, h⟩ := qputs_put (hexEscape SP) s hc
      refine ⟨s'.setColumn (s'.info.inputBufCnt + 1), [.escape SP], ?_, ?_, ?_, ?_⟩
      · rw [putPendingSpace, if_pos flag, if_pos nl, run, andThen_ok]
      · rw [hexEscape_render] at h
        simpa using h.setColumn _
      · simp [Token.Plain]
      · simp [flag, Token.value]
    · obtain ⟨s', run, h⟩ := qput_put SP s hc
      refine ⟨s'.setColumn (s'.info.inputBufCnt + 1), [.literal SP], ?_, h.setColumn _, ?_, ?_⟩
      · rw [putPendingSpace, if_pos flag, if_neg nl, run, andThen_ok]
      · simp +decide [Token.Plain]
      · simp [flag, Token.value]
  · exact ⟨s, [], by rw [putPendingSpace, if_neg flag], ⟨by simp, hc, rfl, rfl⟩, by simp, by simp [flag]⟩

theorem putSoftBreak_put (p : UInt8) (s : Qp) (hc : s.info.callbackFunc = collect) :
    ∃ s' ts, putSoftBreak p s = (0, s') ∧ Put s s' (render ts) ∧ (∀ t ∈ ts, t.Plain) ∧
      value ts = [] := by
  by_cases long : s.info.inputBufCnt > 72 ∧ p ≠ NL
  · obtain ⟨s', run, h⟩ := qputs_put [byte '=', NL] s hc
    refine ⟨s'.setColumn 0, [.softBreak], ?_, h.setColumn 0, by simp [Token.Plain], rfl⟩
    rw [putSoftBreak, if_pos long, run, andThen_ok]
  · exact ⟨s, [], by rw [putSoftBreak, if_neg long], ⟨by simp, hc, rfl, rfl⟩, by simp, rfl⟩

theorem plain_of_not_needsEscape {p : UInt8} (h : needsEscape p = false) :
    (Token.literal p).Plain := by
  revert h
  exact forall_byte (p := fun p => needsEscape p = false → p ≠ 61 ∧ p ≠ 0) (by decide +kernel) p

theorem putCharacter_put (p : UInt8) (s : Qp) (hc : s.info.callbackFunc = collect) :
    ∃ s' t, putCharacter p s = (0, s') ∧ Put s s' (Token.render t) ∧ t.Plain ∧
      t.value = [p] := by
  by_cases nl : p = NL
  · obtain ⟨s', run, h⟩ := qput_put p (s.setColumn 0) hc
    refine ⟨s', .literal p, by rw [putCharacter, if_pos nl, run], ?_, ?_, rfl⟩
    · exact ⟨h.written, h.callback, h.prevSpace, h.encodingFunc⟩
    · subst nl
      exact ⟨by decide, by decide⟩
  · by_cases esc : needsEscape p = true
    · obtain ⟨s', run, h⟩ := qputs_put (hexEscape p) s hc
      refine ⟨s'.setColumn (s'.info.inputBufCnt + 3), .escape p, ?_, h.setColumn _, trivial, rfl⟩
      rw [putCharacter, if_neg nl, if_pos esc, run, andThen_ok]
    · obtain ⟨s', run, h⟩ := qput_put p (s.setColumn (s.info.inputBufCnt + 1)) hc
      refine ⟨s', .literal p, by rw [putCharacter, if_neg nl, if_neg esc, run], ?_, ?_, rfl⟩
      · exact ⟨h.written, h.callback, h.prevSpace, h.encodingFunc⟩
      · exact plain_of_not_needsEscape (by simpa using esc)

def held (flag : Bool) : List UInt8 := if flag then [SP] else []

def spaceAfter (flag : Bool) (ptr : List UInt8) : Bool := ptr.foldl (fun _ p => decide (p = SP)) flag

theorem spaceAfter_append (flag : Bool) (a b : List UInt8) :
    spaceAfter flag (a ++ b) = spaceAfter (spaceAfter flag a) b := List.foldl_append

theorem spaceAfter_false_iff (x : List UInt8) :
    spaceAfter false x = true ↔ x.getLast? = some SP := by
  rcases List.eq_nil_or_concat x with rfl | ⟨front, last, rfl⟩
  · simp [spaceAfter]
  · simp [spaceAfter]

theorem quotedPrintableLoop_tokens (ptr : List UInt8) (s : Qp) (hc : s.info.callbackFunc = collect) :
    ∃ s' ts, quotedPrintableLoop ptr s = (0, s') ∧ s'.info.callbackFunc = collect ∧
      s'.info.encodingFunc = s.info.encodingFunc ∧
      qpWritten s' = qpWritten s ++ render ts ∧ (∀ t ∈ ts, t.Plain) ∧
      s'.info.prevSpace = spaceAfter s.info.prevSpace ptr ∧
      value ts ++ held s'.info.prevSpace = held s.info.prevSpace ++ ptr := by
  induction ptr generalizing s with
  | nil => exact ⟨s, [], rfl, hc, rfl, by simp, by simp, rfl, by simp⟩
  | cons p ptr ih =>
      obtain ⟨s₁, ts₁, run₁, h₁, plain₁, value₁⟩ := putPendingSpace_put p s hc
      by_cases sp : p = SP
      · obtain ⟨s', ts, run, hc', henc, hw, plain, hsp, hv⟩ :=
          ih ((s₁.setSpace false).setSpace true) h₁.callback
        refine ⟨s', ts₁ ++ ts, ?_, hc', henc.trans h₁.encodingFunc, ?_, ?_, ?_, ?_⟩
        · rw [quotedPrintableLoop, run₁, andThen_ok]
          simp only [if_pos sp, run]
        · rw [hw, render_append, ← List.append_assoc, ← h₁.written]
          rfl
        · exact List.forall_mem_append.mpr ⟨plain₁, plain⟩
        · rw [hsp, spaceAfter, spaceAfter, List.foldl_cons, decide_eq_true sp]
          rfl
        · rw [value_append, List.append_assoc, hv, value₁, sp]
          simp [held, QpState.setSpace]
      · obtain ⟨s₂, ts₂, run₂, h₂, plain₂, value₂⟩ :=
          putSoftBreak_put p (s₁.setSpace false) h₁.callback
        obtain ⟨s₃, t, run₃, h₃, plain₃, value₃⟩ := putCharacter_put p s₂ h₂.callback
        obtain ⟨s', ts, run, hc', henc, hw, plain, hsp, hv⟩ := ih s₃ h₃.callback
        have cleared : s₃.info.prevSpace = false := by
          rw [h₃.prevSpace, h₂.prevSpace]
          rfl
        refine ⟨s', ts₁ ++ ts₂ ++ t :: ts, ?_, hc', ?_, ?_, ?_, ?_, ?_⟩
        · rw [quotedPrintableLoop, run₁, andThen_ok]
          simp only [if_neg sp, run₂, andThen_ok, run₃, run]
        · rw [henc, h₃.encodingFunc, h₂.encodingFunc]
          exact h₁.encodingFunc
        · rw [hw, h₃.written, h₂.written]
          have same : qpWritten (s₁.setSpace false) = qpWritten s₁ := rfl
          rw [same, h₁.written]
          simp [List.append_assoc]
        · simp only [List.forall_mem_append, List.forall_mem_cons]
          exact ⟨⟨plain₁, plain₂⟩, plain₃, plain⟩
        · rw [hsp, cleared, spaceAfter, spaceAfter, List.foldl_cons, decide_eq_false sp]
        · rw [cleared] at hv
          simp only [value_append, value_cons, value₁, value₂, value₃, List.append_assoc, hv]
          simp [held]

theorem quotedPrintable_tokens (ptr : List UInt8) (info : Info) (hc : info.callbackFunc = collect) :
    ∃ info' ts, quotedPrintable ptr info = (0, info') ∧ info'.callbackFunc = collect ∧
      info'.encodingFunc = info.encodingFunc ∧
      written info' = written info ++ render ts ∧ (∀ t ∈ ts, t.Plain) ∧
      info'.prevSpace = spaceAfter info.prevSpace ptr ∧
      value ts ++ held info'.prevSpace = held info.prevSpace ++ ptr := by
  obtain ⟨s', ts, run, hc', henc, hw, plain, hsp, hv⟩ := quotedPrintableLoop_tokens ptr ⟨[], info⟩ hc
  obtain ⟨info', run', h⟩ := eflush_wrote s'.localBuf s'.info hc'
  refine ⟨info', ts, ?_, h.callback, h.encodingFunc.trans henc, ?_, plain, h.prevSpace.trans hsp, ?_⟩
  · simp [quotedPrintable, run, run']
  · rw [h.written]
    simpa [qpWritten] using hw
  · rw [h.prevSpace]
    exact hv

/-! ## base64 -/

theorem base64Quads_append (a b : List UInt8) (h : 3 ∣ a.length) :
    base64Quads (a ++ b) = base64Quads a ++ base64Quads b := by
  induction a using base64Quads.induct with
  | case1 => rfl
  | case2 a => simp at h
  | case3 a b => simp at h
  | case4 x y z rest ih =>
      have h' : 3 ∣ rest.length := by
        simp only [List.length_cons] at h
        omega
      simp only [List.cons_append, base64Quads, ih h']

structure Base64Lines (info : Info) (consumed : List UInt8) : Prop where
  callback : info.callbackFunc = collect
  encodingFunc : info.encodingFunc = .base64
  lines : ∃ done, (written info).filter (· ≠ NL) = (base64Quads done).filter (· ≠ NL) ∧
    3 ∣ done.length ∧ consumed = done ++ info.inputBuffer

theorem base64Flush_text (info : Info) (hc : info.callbackFunc = collect) :
    ∃ info', base64Flush info = (0, info') ∧
      Wrote { info with inputBuffer := [] } info' (base64Quads info.inputBuffer ++ [NL]) := by
  exact eflush_wrote _ _ hc

theorem base64_lines (buf : List UInt8) (info : Info) (consumed : List UInt8)
    (h : Base64Lines info consumed) :
    ∃ info', base64 buf info = (0, info') ∧ Base64Lines info' (consumed ++ buf) := by
  induction buf generalizing info consumed with
  | nil => exact ⟨info, rfl, by simpa using h⟩
  | cons c buf ih =>
      obtain ⟨done, hd, h3, hcons⟩ := h.lines
      by_cases full : info.inputBuffer.length = inputBufferSize
      · obtain ⟨info₁, run₁, h₁⟩ := base64Flush_text info h.callback
        have filled : Base64Lines { info₁ with inputBuffer := info₁.inputBuffer ++ [c] }
            (consumed ++ [c]) := by
          refine ⟨h₁.callback, h₁.encodingFunc.trans h.encodingFunc, consumed, ?_, ?_, ?_⟩
          · have hw : written { info₁ with inputBuffer := info₁.inputBuffer ++ [c] } =
                written info ++ (base64Quads info.inputBuffer ++ [NL]) := h₁.written
            rw [hw, hcons, base64Quads_append _ _ h3, List.filter_append, List.filter_append, hd]
            simp
          · rw [hcons, List.length_append, full]
            exact Nat.dvd_add h3 (by decide)
          · simp [h₁.inputBuffer]
        obtain ⟨info', run, h'⟩ := ih _ _ filled
        refine ⟨info', ?_, by simpa using h'⟩
        rw [base64, if_pos full, run₁, andThen_ok, run]
      · have grown : Base64Lines { info with inputBuffer := info.inputBuffer ++ [c] }
            (consumed ++ [c]) :=
          ⟨h.callback, h.encodingFunc, done, hd, h3, by simp [hcons]⟩
        obtain ⟨info', run, h'⟩ := ih _ _ grown
        refine ⟨info', ?_, by simpa using h'⟩
        rw [base64, if_neg full, run]

theorem base64End_lines (info : Info) (consumed : List UInt8) (h : Base64Lines info consumed) :
    ∃ info', base64End info = (0, info') ∧ info'.callbackFunc = collect ∧
      (written info').filter (· ≠ NL) = (base64Quads consumed).filter (· ≠ NL) := by
  obtain ⟨done, hd, h3, hcons⟩ := h.lines
  by_cases empty : info.inputBuffer = []
  · refine ⟨info, by rw [base64End, if_pos empty], h.callback, ?_⟩
    rw [hd, hcons, empty, List.append_nil]
  · obtain ⟨info', run, h'⟩ := base64Flush_text info h.callback
    refine ⟨info', by rw [base64End, if_neg empty, run], h'.callback, ?_⟩
    have hw : written info' = written info ++ (base64Quads info.inputBuffer ++ [NL]) := h'.written
    rw [hw, hcons, base64Quads_append _ _ h3, List.filter_append, List.filter_append, hd]
    simp

end Cone.Encode
