import Cone.CdecodeLines

/-! # How a text is cut into calls

A run of the quoted-printable decoder as a function of the calls, and when it delivers what the
text is worth with every line in one piece.  Each call ends with at most one long-line flush. -/
set_option autoImplicit false
namespace Cone.CdecodeSplits

open Cone.Ctype Cone.Lib.ReturnCode Cone.Cdecode Cone.TransferRoundTrip Cone.CdecodeLines
open Cone.Lib.QuotedPrintable (EQ)

def lineByLine : List UInt8 → List UInt8 → List UInt8
  | w, [] => qpLoop w
  | w, c :: s =>
    if c ≠ NL then lineByLine (w ++ [c]) s else qpLoop (w ++ [NL]) ++ lineByLine [] s

def decodedLines : List UInt8 → List UInt8 → List UInt8
  | _, [] => []
  | w, c :: s =>
    if c ≠ NL then decodedLines (w ++ [c]) s else qpLoop (w ++ [NL]) ++ decodedLines [] s

/-- The work buffer at the end of a call, before its flush. -/
def lastLine : List UInt8 → List UInt8 → List UInt8
  | w, [] => w
  | w, c :: s => if c ≠ NL then lastLine (w ++ [c]) s else lastLine [] s

def flushOut (w : List UInt8) : List UInt8 := if w.length > 1024 then qpLoop (kept w) else []

def flushRest (w : List UInt8) : List UInt8 := if w.length > 1024 then putBack w else w

def qpCall (st : List UInt8 × List UInt8) (s : List UInt8) : List UInt8 × List UInt8 :=
  (flushRest (lastLine st.1 s),
    st.2 ++ (decodedLines st.1 s ++ flushOut (lastLine st.1 s)))

def buffers : List UInt8 → List (List UInt8) → List (List UInt8)
  | _, [] => []
  | w, s :: calls => lastLine w s :: buffers (flushRest (lastLine w s)) calls

/-- No flush of the run stands in an escape or in dropped text that the line end would close. -/
def Clean (calls : List (List UInt8)) : Prop := ∀ w ∈ buffers [] calls, w.length > 1024 → Harmless w

/-! ## Lines -/

theorem lineByLine_append (w s rest : List UInt8) :
    lineByLine w (s ++ rest) = decodedLines w s ++ lineByLine (lastLine w s) rest := by
  induction s generalizing w with
  | nil => rfl
  | cons c s ih =>
      by_cases inLine : c ≠ NL
      · simp only [List.cons_append, lineByLine, decodedLines, lastLine, if_pos inLine, ih]
      · simp only [List.cons_append, lineByLine, decodedLines, lastLine, if_neg inLine, ih,
          List.append_assoc]

theorem lineByLine_front (rest : List UInt8) :
    ∃ front later, ∀ w, lineByLine w rest = qpLoop (w ++ front) ++ later := by
  induction rest with
  | nil => exact ⟨[], [], by simp [lineByLine]⟩
  | cons c rest ih =>
      by_cases inLine : c ≠ NL
      · obtain ⟨front, later, h⟩ := ih
        refine ⟨c :: front, later, fun w => ?_⟩
        rw [lineByLine, if_pos inLine, h, List.append_assoc, List.singleton_append]
      · exact ⟨[NL], lineByLine [] rest, fun w => by rw [lineByLine, if_neg inLine]⟩

theorem lineByLine_flush (w rest : List UInt8) (harmless : w.length > 1024 → Harmless w) :
    lineByLine w rest = flushOut w ++ lineByLine (flushRest w) rest := by
  rw [flushOut, flushRest]
  by_cases long : w.length > 1024
  · obtain ⟨front, later, h⟩ := lineByLine_front rest
    rw [if_pos long, if_pos long, h, h, qpLoop_flush w front long (harmless long), List.append_assoc]
  · rw [if_neg long, if_neg long, List.nil_append]

theorem length_flushRest (w : List UInt8) : (flushRest w).length ≤ 1024 := by
  rw [flushRest]
  by_cases long : w.length > 1024
  · rw [if_pos long]
    have back : (putBack w).length ≤ (heldBack w).length := (List.takeWhile_sublist _).length_le
    have tail : (heldBack w).length ≤ (w.drop (w.length - 5)).length :=
      (List.dropWhile_sublist _).length_le
    rw [List.length_drop] at tail
    omega
  · rw [if_neg long]
    omega

/-! ## Calls -/

theorem flushLongLine_collect (p : Part) (hc : p.udecodeFunc = collect) :
    flushLongLine p = (0, { p with
      workbuf := flushRest p.workbuf
      miscDecodePtr := p.miscDecodePtr ++ flushOut p.workbuf }) := by
  rw [flushLongLine, flushRest, flushOut]
  by_cases long : p.workbuf.length > 1024
  · rw [if_pos long, if_pos long, if_pos long]
    have step := doDecodeQp_collect p hc (kept p.workbuf)
    rw [kept] at step
    simp only [step, andThen_ok, List.nil_append]
    rfl
  · rw [if_neg long, if_neg long, if_neg long, List.append_nil]

theorem decodeQpLoop_collect (run s : List UInt8) (p : Part) (hc : p.udecodeFunc = collect)
    (busy : run ≠ [] ∨ s ≠ [] ∨ p.workbuf.length ≤ 1024) :
    decodeQpLoop run s p = (0, { p with
      workbuf := flushRest (lastLine (p.workbuf ++ run) s)
      miscDecodePtr := p.miscDecodePtr ++
        (decodedLines (p.workbuf ++ run) s ++ flushOut (lastLine (p.workbuf ++ run) s)) }) := by
  induction s generalizing run p with
  | nil =>
      rw [decodeQpLoop]
      by_cases empty : run = []
      · subst empty
        have short : ¬ p.workbuf.length > 1024 := by
          rcases busy with h | h | h
          · exact absurd rfl h
          · exact absurd rfl h
          · omega
        simp [lastLine, decodedLines, flushRest, flushOut, short]
      · rw [if_neg empty, flushLongLine_collect { p with workbuf := p.workbuf ++ run } hc]
        rfl
  | cons c s ih =>
      rw [decodeQpLoop, decodedLines, lastLine]
      by_cases inLine : c ≠ NL
      · rw [if_pos inLine, if_pos inLine, if_pos inLine, ih (run ++ [c]) p hc (Or.inl (by simp)),
          List.append_assoc]
      · have later := ih []
          { p with
            workbuf := []
            miscDecodePtr := p.miscDecodePtr ++ qpLoop (p.workbuf ++ run ++ [NL]) }
          hc (Or.inr (Or.inr (Nat.zero_le _)))
        rw [if_neg inLine, if_neg inLine, if_neg inLine, doDecodeQp_collect p hc, andThen_ok, later]
        simp only [List.nil_append, List.append_assoc]

theorem rfc2045Cdecode_qp {σ : Type} (p : Rfc2045 σ) (s : List UInt8)
    (hqp : p.decodeFunc = .decodeQp) : rfc2045Cdecode p s = decodeQpLoop [] s p := by
  rw [rfc2045Cdecode, hqp]
  by_cases empty : s = []
  · rw [if_pos empty, empty]
    rfl
  · rw [if_neg empty]
    rfl

theorem rfc2045Cdecode_collect (p : Part) (s : List UInt8) (hc : p.udecodeFunc = collect)
    (hqp : p.decodeFunc = .decodeQp) (short : p.workbuf.length ≤ 1024) :
    rfc2045Cdecode p s = (0, { p with
      workbuf := (qpCall (p.workbuf, p.miscDecodePtr) s).1
      miscDecodePtr := (qpCall (p.workbuf, p.miscDecodePtr) s).2 }) := by
  have run := decodeQpLoop_collect [] s p hc (Or.inr (Or.inr short))
  rw [List.append_nil] at run
  rw [rfc2045Cdecode_qp p s hqp, run]
  rfl

theorem decodeCalls_collect (calls : List (List UInt8)) (p : Part) (hc : p.udecodeFunc = collect)
    (hqp : p.decodeFunc = .decodeQp) (short : p.workbuf.length ≤ 1024) :
    decodeCalls calls p = (0, { p with
      workbuf := (calls.foldl qpCall (p.workbuf, p.miscDecodePtr)).1
      miscDecodePtr := (calls.foldl qpCall (p.workbuf, p.miscDecodePtr)).2 }) := by
  induction calls generalizing p with
  | nil => rfl
  | cons s calls ih =>
      have later := ih
        { p with
          workbuf := (qpCall (p.workbuf, p.miscDecodePtr) s).1
          miscDecodePtr := (qpCall (p.workbuf, p.miscDecodePtr) s).2 }
        hc hqp (length_flushRest _)
      rw [decodeCalls, rfc2045Cdecode_collect p s hc hqp short, andThen_ok, later]
      rfl

theorem decode_qp (calls : List (List UInt8)) :
    decode .quotedPrintable calls =
      (0, (calls.foldl qpCall ([], [])).2 ++ qpLoop (calls.foldl qpCall ([], [])).1) := by
  have start := decodeCalls_collect calls
    (rfc2045CdecodeStart (some TransferEncoding.quotedPrintable.name) collect []) rfl (by decide)
    (Nat.zero_le _)
  rw [decode, start]
  simp only [andThen_ok]
  rw [rfc2045CdecodeEnd,
    show (rfc2045CdecodeStart (some TransferEncoding.quotedPrintable.name) collect []).decodeFunc =
      DecodeFunc.decodeQp by decide]
  rfl

/-! ## Clean runs -/

theorem foldl_qpCall_lineByLine (calls : List (List UInt8)) (w out rest : List UInt8)
    (clean : ∀ b ∈ buffers w calls, b.length > 1024 → Harmless b) :
    (calls.foldl qpCall (w, out)).2 ++ lineByLine (calls.foldl qpCall (w, out)).1 rest =
      out ++ lineByLine w (calls.flatten ++ rest) := by
  induction calls generalizing w out with
  | nil => rfl
  | cons s calls ih =>
      have here := clean (lastLine w s) (List.mem_cons_self ..)
      have later := fun b hb => clean b (List.mem_cons_of_mem _ hb)
      rw [List.foldl_cons, qpCall, ih _ _ later, List.flatten_cons, List.append_assoc s,
        lineByLine_append w s, lineByLine_flush (lastLine w s) _ here]
      simp only [List.append_assoc]

theorem decode_clean (calls : List (List UInt8)) (clean : Clean calls) :
    decode .quotedPrintable calls = (0, lineByLine [] calls.flatten) := by
  have owed := foldl_qpCall_lineByLine calls [] [] [] clean
  rw [List.append_nil, List.nil_append] at owed
  rw [decode_qp, ← owed]
  rfl

theorem buffers_concat (calls : List (List UInt8)) (s w out : List UInt8) :
    buffers w (calls ++ [s]) =
      buffers w calls ++ [lastLine (calls.foldl qpCall (w, out)).1 s] := by
  induction calls generalizing w out with
  | nil => rfl
  | cons c calls ih =>
      rw [List.cons_append, buffers, buffers, List.cons_append, List.foldl_cons, qpCall]
      rw [ih _ (out ++ (decodedLines w c ++ flushOut (lastLine w c)))]

theorem Clean.before {before calls : List (List UInt8)} (h : before <+: calls)
    (clean : Clean calls) : Clean before := by
  obtain ⟨after, rfl⟩ := h
  induction after using List.reverseRecOn with
  | nil => simpa using clean
  | append_singleton after s ih =>
      refine ih fun w hw => ?_
      refine clean w ?_
      rw [← List.append_assoc, buffers_concat _ s [] []]
      exact List.mem_append_left _ hw

/-- A call that ends with a line end leaves nothing to flush. -/
theorem lastLine_newline (w t : List UInt8) : lastLine w (t ++ [NL]) = [] := by
  induction t generalizing w with
  | nil => rfl
  | cons c t ih =>
      rw [List.cons_append, lastLine]
      by_cases inLine : c ≠ NL
      · rw [if_pos inLine, ih]
      · rw [if_neg inLine, ih]

theorem Clean.newline {calls : List (List UInt8)} (clean : Clean calls) (t : List UInt8) :
    Clean (calls ++ [t ++ [NL]]) := by
  intro w hw
  rw [buffers_concat _ _ [] [], List.mem_append, List.mem_singleton, lastLine_newline] at hw
  rcases hw with before | rfl
  · exact clean w before
  · intro long
    simp at long

theorem clean_nil : Clean [] := by simp [Clean, buffers]

theorem decode_one_piece (t : List UInt8) :
    decode .quotedPrintable [t ++ [NL]] = (0, lineByLine [] (t ++ [NL])) := by
  rw [decode_clean [t ++ [NL]] (clean_nil.newline t)]
  simp

/-! ## Two splits -/

def OnePiece (te : TransferEncoding) (calls : List (List UInt8)) : Prop :=
  ∀ t, decode te (calls ++ [t ++ [NL]]) = decode te [calls.flatten ++ (t ++ [NL])]

theorem onePiece_of_clean (calls : List (List UInt8)) (clean : Clean calls) :
    OnePiece .quotedPrintable calls := by
  intro t
  rw [decode_clean _ (clean.newline t), ← List.append_assoc, decode_one_piece]
  simp

theorem lineByLine_probe (w : List UInt8) : lineByLine w probe = qpLoop (w ++ probe) := by
  have inLine : byte 'G' ≠ NL := by decide
  rw [probe, lineByLine, if_pos inLine, lineByLine, if_neg (not_not.mpr rfl), List.append_assoc,
    List.singleton_append]
  exact List.append_nil _

theorem qpCall_probe (w out : List UInt8) :
    qpCall (w, out) probe = ([], out ++ qpLoop (w ++ probe)) := by
  have last : lastLine w probe = [] := lastLine_newline w [byte 'G']
  have lines := lineByLine_append w probe []
  rw [List.append_nil, lineByLine_probe, last, lineByLine, qpLoop_nil, List.append_nil] at lines
  rw [qpCall, last, ← lines]
  simp [flushRest, flushOut]

theorem harmless_of_onePiece (calls : List (List UInt8)) (s : List UInt8) (clean : Clean calls)
    (h : OnePiece .quotedPrintable (calls ++ [s]))
    (long : (lastLine (calls.foldl qpCall ([], [])).1 s).length > 1024) :
    Harmless (lastLine (calls.foldl qpCall ([], [])).1 s) := by
  have same := h [byte 'G']
  have owed := foldl_qpCall_lineByLine calls [] [] (s ++ probe) clean
  rw [← List.append_assoc, decode_one_piece, decode_qp] at same
  have flat : (calls ++ [s]).flatten ++ [byte 'G'] ++ [NL] = calls.flatten ++ (s ++ probe) := by
    simp [probe]
  rw [flat, ← List.nil_append (lineByLine [] _), ← owed, lineByLine_append, List.foldl_append,
    List.foldl_append] at same
  generalize calls.foldl qpCall ([], []) = st at same long ⊢
  generalize hb : lastLine st.1 s = b at same long ⊢
  have line : [byte 'G'] ++ [NL] = probe := rfl
  have call : qpCall st s = (putBack b, st.2 ++ (decodedLines st.1 s ++ qpLoop (kept b))) := by
    rw [qpCall, hb, flushRest, flushOut, if_pos long, if_pos long]
  rw [List.foldl_cons, List.foldl_nil, List.foldl_cons, List.foldl_nil, line, call, qpCall_probe,
    lineByLine_probe] at same
  refine harmless_of_probe b long ?_
  have bytes := congrArg Prod.snd same
  simp only [qpLoop_nil, List.append_nil, List.append_assoc, List.append_cancel_left_eq] at bytes
  exact bytes.symm

theorem clean_of_onePiece (calls : List (List UInt8))
    (h : ∀ before, before <+: calls → OnePiece .quotedPrintable before) : Clean calls := by
  induction calls using List.reverseRecOn with
  | nil => exact clean_nil
  | append_singleton calls s ih =>
      have clean := ih fun before hb => h before (hb.trans (List.prefix_append _ _))
      intro w hw
      rw [buffers_concat _ s [] [], List.mem_append, List.mem_singleton] at hw
      rcases hw with earlier | rfl
      · exact clean w earlier
      · exact harmless_of_onePiece calls s clean (h _ (List.prefix_refl _))

/-- Two splits of one text deliver the same for base64, and for quoted-printable when no
long-line flush of either does harm; a flush that does is shown by some text after it. -/
theorem splits_agree (te : TransferEncoding) :
    (∀ calls calls', calls.flatten = calls'.flatten →
        te = .base64 ∨ (Clean calls ∧ Clean calls') → decode te calls = decode te calls') ∧
      ∀ calls, (∀ before, before <+: calls → OnePiece te before) ↔ te = .base64 ∨ Clean calls := by
  cases te with
  | quotedPrintable =>
      constructor
      · intro calls calls' text h
        obtain ⟨clean, clean'⟩ := h.resolve_left (by decide)
        rw [decode_clean calls clean, decode_clean calls' clean', text]
      · intro calls
        constructor
        · exact fun h => Or.inr (clean_of_onePiece calls h)
        · intro h before hb
          exact onePiece_of_clean before ((h.resolve_left (by decide)).before hb)
  | base64 =>
      constructor
      · intro calls calls' text _
        rw [decode_base64, decode_base64, text]
      · refine fun calls => iff_of_true (fun before _ t => ?_) (Or.inl rfl)
        rw [decode_base64, decode_base64]
        simp

/-- `=3D` cut after each of its bytes, against the same text in one call. -/
theorem splits_agree_sample :
    decode .quotedPrintable [[97, 61], [51], [68, 10]] = decode .quotedPrintable [[97, 61, 51, 68, 10]] ∧
      ∀ before, before <+: [[97, 61], [51], [68, 10]] → OnePiece .quotedPrintable before := by
  have clean : ∀ calls ∈ [[[97, 61], [51], [68, 10]], [[97, 61, 51, 68, 10]]], Clean calls := by
    intro calls hcalls w hw long
    have short : ∀ calls ∈ [[[97, 61], [51], [68, 10]], [[97, 61, 51, 68, 10]]],
        ∀ w ∈ buffers [] calls, w.length ≤ 1024 := by decide
    have := short calls hcalls w hw
    omega
  exact ⟨(splits_agree .quotedPrintable).1 _ _ (by decide)
      (Or.inr ⟨clean _ (by simp), clean _ (by simp)⟩),
    ((splits_agree .quotedPrintable).2 _).mpr (Or.inr (clean _ (by simp)))⟩

def longLine : List UInt8 := EQ :: SP :: List.replicate 1023 (byte 'a')

/-- In one piece the whole line is dropped; cut before its line end, it is not. -/
theorem long_line_cut :
    ¬ ∀ (te : TransferEncoding) (calls calls' : List (List UInt8)),
      calls.flatten = calls'.flatten → (decode te calls).2 = (decode te calls').2 := by
  intro same
  have agrees : ∀ before, before <+: [longLine] → OnePiece .quotedPrintable before := by
    intro before _ t
    have bytes := same .quotedPrintable (before ++ [t ++ [NL]]) [before.flatten ++ (t ++ [NL])]
      (by simp)
    rw [decode_qp, decode_qp] at bytes ⊢
    exact Prod.ext rfl bytes
  have harmful : ∃ w ∈ buffers [] [longLine], w.length > 1024 ∧ ¬ Harmless w := by
    decide +kernel
  obtain ⟨w, hw, long, harm⟩ := harmful
  exact harm (clean_of_onePiece [longLine] agrees w hw long)

end Cone.CdecodeSplits
