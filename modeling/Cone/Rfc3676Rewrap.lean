import Mathlib.Data.List.Chain
import Cone.Rfc3676Nonflowed

/-! # Where a line that is too wide is broken (`rfc2045/rfc3676parser.c`)

`check_abnormal_line` cuts the pending word where there is no line to emit.  It takes the word to
have had no linebreaking opportunity, but the first of the two functions passes over those that it
meets once the line has got too wide. -/
set_option autoImplicit false
namespace Cone.Rfc3676Rewrap

open Cone.Rfc3676Parser Cone.Rfc3676Nonflowed

/-! ## What is promised -/

section Claim
variable (rs : List (Bool × Char))

/-- Whether the line can be broken before its `p`-th character. -/
def oppAt (p : Nat) : Bool := (rs.map Prod.fst).getD p false

def softBreaksFrom : Nat → List Call → List Nat
  | _, [] => []
  | p, .lineFlowedNotify :: calls => p :: softBreaksFrom p calls
  | p, .lineContents uc :: calls => softBreaksFrom (p + uc.length) calls
  | p, _ :: calls => softBreaksFrom p calls

def softBreaks (calls : List Call) : List Nat := softBreaksFrom 0 calls

/-- A break at `p`, the one before it at `s`: it is at an opportunity, or there was none since. -/
def Placed (s p : Nat) : Prop := oppAt rs p ∨ ∀ q < p, s < q → ¬ oppAt rs q

def WellBroken (calls : List Call) : Prop := List.IsChain (Placed rs) (0 :: softBreaks calls)

instance (s p : Nat) : Decidable (Placed rs s p) :=
  inferInstanceAs (Decidable (oppAt rs p ∨ ∀ q < p, s < q → ¬ oppAt rs q))

instance (calls : List Call) : Decidable (WellBroken rs calls) :=
  inferInstanceAs (Decidable (List.IsChain (Placed rs) (0 :: softBreaks calls)))

end Claim

/-! ## The condition -/

section Condition
variable (w : Widths) (rs : List (Bool × Char))

/-- The handles that a character makes `emit_rewrapped_line` get. -/
def rewrapped (h : Nonflowed) (r : Bool × Char) : List Nonflowed :=
  match h.lineProcess with
  | .initialNonflowedLine =>
    let g := collected w h r
    if g.lineWidth + g.nextWordWidth > g.lineTargetWidth + NONFLOWED_THRESHOLD_EXCEEDED then [g]
    else []
  | .forcedRewrapLine =>
    (if r.1 ∧ h.lineWidth + h.nextWordWidth > h.lineTargetWidth then [h] else []) ++
      let g := opened w h r
      if g.lineWidth = 0 ∧ g.nextWordWidth + w.wcwidth r.2 > g.lineTargetWidth then [g] else []

def Passed (q : Nat) : Prop :=
  oppAt rs q ∧ lineTargetWidth 0 < width w ((rs.take q).map Prod.snd) ∧
    width w ((rs.take q).map Prod.snd) ≤ lineTargetWidth 0 + NONFLOWED_THRESHOLD_EXCEEDED

def Spares (g : Nonflowed) : Prop :=
  let s := (contentOf g.calls).length
  let p := s + cutLoop w g.nextWord g.nextWord.length
  g.line = [] → oppAt rs p ∨ ∀ q < p, s < q → ¬ Passed w rs q

def Spared : Prop :=
  ∀ k r, rs[k]? = some r → ∀ g ∈ rewrapped w (lineRun w (rs.take k)) r, Spares w rs g

end Condition

/-! ## The breaks of a line -/

section Breaks
variable (w : Widths) (rs : List (Bool × Char))

theorem softBreaksFrom_append (p : Nat) (calls calls' : List Call) :
    softBreaksFrom p (calls ++ calls') =
      softBreaksFrom p calls ++ softBreaksFrom (p + (contentOf calls).length) calls' := by
  induction calls generalizing p with
  | nil => rfl
  | cons call calls ih =>
      cases call with
      | lineBegin quoteLevel => exact ih p
      | lineContents uc =>
          have rest := ih (p + uc.length)
          rw [Nat.add_assoc] at rest
          simpa [softBreaksFrom, contentOf] using rest
      | lineFlowedNotify => exact congrArg (p :: ·) (ih p)
      | lineEnd => exact ih p

theorem softBreaks_append (calls calls' : List Call) :
    softBreaks (calls ++ calls') =
      softBreaks calls ++ softBreaksFrom (contentOf calls).length calls' := by
  rw [softBreaks, softBreaksFrom_append, Nat.zero_add]
  rfl

theorem emitLineContents_breaks (h : Nonflowed) (uc : List Char) :
    softBreaks (emitLineContents h uc).calls = softBreaks h.calls ∧
      (contentOf (emitLineContents h uc).calls).length =
        (contentOf h.calls).length + uc.length := by
  by_cases empty : uc = []
  · rw [emitLineContents, if_pos empty, empty]
    exact ⟨rfl, rfl⟩
  · rw [emitLineContents, if_neg empty, emit]
    simp only
    rw [softBreaks_append, contentOf_append]
    simp [softBreaksFrom, contentOf]

theorem emitRewrappedLine_breaks (h : Nonflowed) :
    let g := checkAbnormalLine w h
    softBreaks (emitRewrappedLine w h).calls =
        softBreaks h.calls ++ [(contentOf h.calls).length + g.line.length] ∧
      (contentOf (emitRewrappedLine w h).calls).length =
        (contentOf h.calls).length + g.line.length ∧
      (emitRewrappedLine w h).line = [] ∧ (emitRewrappedLine w h).nextWord = g.nextWord := by
  intro g
  have same : g.calls = h.calls := by
    by_cases filled : h.line ≠ []
    · simp only [g, checkAbnormalLine, if_pos filled]
    · simp only [g, checkAbnormalLine, if_neg filled]
  obtain ⟨breaks, chars⟩ := emitLineContents_breaks g g.line
  rw [same] at breaks chars
  refine ⟨?_, ?_, rfl, (emitLineContents_line g g.line).2⟩
  · change softBreaks ((emitLineContents g g.line).calls ++ [.lineFlowedNotify]) = _
    rw [softBreaks_append, breaks, chars]
    rfl
  · change (contentOf ((emitLineContents g g.line).calls ++ [.lineFlowedNotify])).length = _
    rw [contentOf_append, List.length_append, chars]
    rfl

theorem cutLoop_le (p : List Char) (i : Nat) : cutLoop w p i ≤ p.length := by
  induction i with
  | zero => exact Nat.le_refl _
  | succ i ih =>
      rw [cutLoop]
      by_cases cut : i + 1 < p.length ∧ w.graphemeBreak (p.getD i ' ') (p.getD (i + 1) ' ')
      · rw [if_pos cut]
        exact Nat.le_of_lt cut.1
      · rw [if_neg cut]
        exact ih

structure Fits (k : Nat) (h : Nonflowed) : Prop where
  chars : (contentOf h.calls).length + h.line.length + h.nextWord.length = k
  last : (0 :: softBreaks h.calls).getLast? = some (contentOf h.calls).length
  ends : h.line ≠ [] → oppAt rs ((contentOf h.calls).length + h.line.length)
  passed : ∀ q < k, (contentOf h.calls).length + h.line.length < q → oppAt rs q → Passed w rs q

variable {w rs} {k : Nat} {h : Nonflowed}

theorem Fits.appendWord (fits : Fits w rs k h) (opportunity : oppAt rs k) :
    Fits w rs k (appendWord h) := by
  obtain ⟨chars, last, ends, passed⟩ := fits
  have atEnd : (contentOf h.calls).length + (h.line ++ h.nextWord).length = k := by
    rw [List.length_append, ← Nat.add_assoc, chars]
  refine ⟨atEnd, last, fun _ => ?_, fun q before behind => ?_⟩
  · change oppAt rs ((contentOf h.calls).length + (h.line ++ h.nextWord).length)
    rw [atEnd, opportunity]
  · change (contentOf h.calls).length + (h.line ++ h.nextWord).length < q at behind
    omega

theorem Fits.appendChar (fits : Fits w rs k h) (c : Char) (chWidth : Nat)
    (taken : oppAt rs k → h.nextWord = [] ∨ Passed w rs k) :
    Fits w rs (k + 1) (appendChar h c chWidth) := by
  obtain ⟨chars, last, ends, passed⟩ := fits
  refine ⟨?_, last, ends, fun q before behind opportunity => ?_⟩
  · change (contentOf h.calls).length + h.line.length + (h.nextWord ++ [c]).length = k + 1
    rw [List.length_append, List.length_singleton, ← Nat.add_assoc, chars]
  · change (contentOf h.calls).length + h.line.length < q at behind
    by_cases now : q = k
    · rw [now] at behind opportunity ⊢
      rcases taken opportunity with empty | was
      · rw [empty, List.length_nil] at chars
        omega
      · exact was
    · exact passed q (by omega) behind opportunity

/-- A line that is emitted ends at an opportunity; where the word is cut it depends. -/
theorem Fits.placed (fits : Fits w rs k h) :
    Placed rs (contentOf h.calls).length
        ((contentOf h.calls).length + (checkAbnormalLine w h).line.length) ↔
      Spares w rs h := by
  by_cases filled : h.line ≠ []
  · rw [checkAbnormalLine, if_pos filled]
    exact ⟨fun _ empty => absurd empty filled, fun _ => Or.inl (fits.ends filled)⟩
  · have empty : h.line = [] := not_not.mp filled
    have short := cutLoop_le w h.nextWord h.nextWord.length
    have word := fits.chars
    rw [empty, List.length_nil, Nat.add_zero] at word
    rw [checkAbnormalLine, if_neg filled, Spares, empty]
    simp only [List.nil_append, List.length_take, Nat.min_eq_left short, forall_const]
    rw [Placed]
    refine or_congr Iff.rfl (forall_congr' fun q => forall_congr' fun before =>
      forall_congr' fun behind => not_congr ⟨fun opportunity => ?_, fun was => was.1⟩)
    have start := fits.passed q (by omega)
    rw [empty, List.length_nil, Nat.add_zero] at start
    exact start behind opportunity

theorem Fits.emitRewrappedLine (fits : Fits w rs k h) :
    Fits w rs k (emitRewrappedLine w h) ∧
      (WellBroken rs (emitRewrappedLine w h).calls ↔ WellBroken rs h.calls ∧ Spares w rs h) := by
  obtain ⟨breaks, chars, line, word⟩ := emitRewrappedLine_breaks w h
  have split : (contentOf h.calls).length + (checkAbnormalLine w h).line.length +
      (checkAbnormalLine w h).nextWord.length = k ∧
      (contentOf h.calls).length + h.line.length ≤
        (contentOf h.calls).length + (checkAbnormalLine w h).line.length := by
    have all := fits.chars
    by_cases filled : h.line ≠ []
    · rw [checkAbnormalLine, if_pos filled]
      exact ⟨all, Nat.le_refl _⟩
    · have short := cutLoop_le w h.nextWord h.nextWord.length
      rw [checkAbnormalLine, if_neg filled]
      simp only [List.length_append, List.length_take, List.length_drop]
      omega
  refine ⟨⟨?_, ?_, fun filled => absurd line filled, fun q before behind => ?_⟩, ?_⟩
  · rw [chars, line, word, List.length_nil, Nat.add_zero]
    exact split.1
  · rw [breaks, chars, ← List.cons_append, List.getLast?_concat]
  · rw [chars, line, List.length_nil, Nat.add_zero] at behind
    exact fits.passed q before (Nat.lt_of_le_of_lt split.2 behind)
  · rw [WellBroken, breaks, ← List.cons_append, List.isChain_append, ← fits.placed, WellBroken,
      fits.last]
    simp

end Breaks

/-! ## Character by character -/

section Run
variable {w : Widths} {rs : List (Bool × Char)} {k : Nat} {h : Nonflowed}

/-- The first function runs as long as the line is not too wide. -/
def Begun (w : Widths) (rs : List (Bool × Char)) (k : Nat) (h : Nonflowed) : Prop :=
  h.lineProcess = .initialNonflowedLine →
    h.lineWidth + h.nextWordWidth = width w ((rs.take k).map Prod.snd) ∧
      h.lineWidth + h.nextWordWidth ≤ lineTargetWidth 0 + NONFLOWED_THRESHOLD_EXCEEDED

theorem oppAt_of_get {r : Bool × Char} (here : rs[k]? = some r) : oppAt rs k = r.1 := by
  rw [oppAt, List.getD_eq_getElem?_getD, List.getElem?_map, here]
  rfl

theorem width_take_succ {r : Bool × Char} (here : rs[k]? = some r) :
    width w ((rs.take (k + 1)).map Prod.snd) =
      width w ((rs.take k).map Prod.snd) + w.wcwidth r.2 := by
  rw [List.take_add_one, here, List.map_append, width_append]
  simp [width]

theorem Fits.collected (fits : Fits w rs k h) (begun : Begun w rs k h)
    (target : h.lineTargetWidth = lineTargetWidth 0)
    (mode : h.lineProcess = .initialNonflowedLine) {r : Bool × Char} (here : rs[k]? = some r) :
    Fits w rs (k + 1) (collected w h r) ∧ (collected w h r).calls = h.calls ∧
      (collected w h r).lineTargetWidth = lineTargetWidth 0 ∧
      (collected w h r).lineProcess = .initialNonflowedLine ∧
      (collected w h r).lineWidth + (collected w h r).nextWordWidth =
        width w ((rs.take (k + 1)).map Prod.snd) := by
  obtain ⟨sum, narrow⟩ := begun mode
  rw [Rfc3676Nonflowed.collected, width_take_succ here, ← sum]
  by_cases room : r.1 ∧ h.lineWidth + h.nextWordWidth ≤ h.lineTargetWidth
  · rw [if_pos room]
    have opportunity : oppAt rs k := by rw [oppAt_of_get here, room.1]
    refine ⟨(fits.appendWord opportunity).appendChar r.2 _ fun _ => Or.inl rfl, rfl, target,
      mode, ?_⟩
    simp only [Rfc3676Nonflowed.appendChar, Rfc3676Nonflowed.appendWord]
    omega
  · rw [if_neg room]
    refine ⟨fits.appendChar r.2 _ fun opportunity => Or.inr ⟨opportunity, ?_, ?_⟩, rfl, target,
      mode, ?_⟩
    · rw [oppAt_of_get here] at opportunity
      rw [← sum, ← target]
      exact Nat.lt_of_not_le fun fit => room ⟨opportunity, fit⟩
    · rw [← sum]
      exact narrow
    · simp only [Rfc3676Nonflowed.appendChar]
      omega

theorem Fits.opened (fits : Fits w rs k h) (target : h.lineTargetWidth = lineTargetWidth 0)
    (mode : h.lineProcess = .forcedRewrapLine) {r : Bool × Char} (here : rs[k]? = some r) :
    Fits w rs k (opened w h r) ∧ (opened w h r).lineTargetWidth = lineTargetWidth 0 ∧
      (opened w h r).lineProcess = .forcedRewrapLine ∧
      (oppAt rs k → (opened w h r).nextWord = []) ∧
      (WellBroken rs (opened w h r).calls ↔ WellBroken rs h.calls ∧
        (r.1 ∧ h.lineWidth + h.nextWordWidth > h.lineTargetWidth → Spares w rs h)) := by
  have now := oppAt_of_get here
  rw [Rfc3676Nonflowed.opened]
  cases opportunity : r.1 with
  | false =>
      rw [opportunity] at now
      rw [if_neg (by simp)]
      refine ⟨fits, target, mode, fun opp => ?_, ?_⟩
      · rw [now] at opp
        cases opp
      · simp
  | true =>
      rw [opportunity] at now
      rw [if_pos rfl]
      by_cases long : h.lineWidth + h.nextWordWidth > h.lineTargetWidth
      · obtain ⟨fits', broken⟩ := fits.emitRewrappedLine
        have frame := emitRewrappedLine_frame w h
        rw [if_pos long]
        refine ⟨fits'.appendWord now, frame.2.trans target, frame.1.trans mode, fun _ => rfl, ?_⟩
        change WellBroken rs (Rfc3676Nonflowed.emitRewrappedLine w h).calls ↔ _
        simpa [long] using broken
      · rw [if_neg long]
        refine ⟨fits.appendWord now, target, mode, fun _ => rfl, ?_⟩
        change WellBroken rs h.calls ↔ _
        simp [long]

structure Running (w : Widths) (rs : List (Bool × Char)) (k : Nat) (h : Nonflowed) : Prop where
  fits : Fits w rs k h
  begun : Begun w rs k h
  target : h.lineTargetWidth = lineTargetWidth 0

theorem Running.initialNonflowedLine (running : Running w rs k h)
    (mode : h.lineProcess = .initialNonflowedLine) {r : Bool × Char} (here : rs[k]? = some r) :
    Running w rs (k + 1) (nonflowedLineProcess w h r) ∧
      (WellBroken rs (nonflowedLineProcess w h r).calls ↔
        WellBroken rs h.calls ∧ ∀ g ∈ rewrapped w h r, Spares w rs g) := by
  obtain ⟨fits, same, target, mode', sum⟩ :=
    running.fits.collected running.begun running.target mode here
  rw [nonflowedLineProcess, rewrapped, mode]
  simp only
  rw [initialNonflowedLine_eq]
  by_cases wide : (collected w h r).lineWidth + (collected w h r).nextWordWidth >
      (collected w h r).lineTargetWidth + NONFLOWED_THRESHOLD_EXCEEDED
  · rw [if_pos wide, if_pos wide, beginForcedRewrap]
    have fits' : Fits w rs (k + 1) { collected w h r with lineProcess := .forcedRewrapLine } :=
      ⟨fits.chars, fits.last, fits.ends, fits.passed⟩
    obtain ⟨fits'', broken⟩ := fits'.emitRewrappedLine
    have frame := emitRewrappedLine_frame w
      { collected w h r with lineProcess := .forcedRewrapLine }
    refine ⟨⟨fits'', fun initial => ?_, frame.2.trans target⟩, ?_⟩
    · rw [frame.1] at initial
      cases initial
    · rw [broken, List.forall_mem_singleton]
      change WellBroken rs (collected w h r).calls ∧ Spares w rs (collected w h r) ↔ _
      rw [same]
  · rw [if_neg wide, if_neg wide, same]
    refine ⟨⟨fits, fun _ => ⟨sum, ?_⟩, target⟩, by simp⟩
    rw [target] at wide
    exact Nat.le_of_not_lt wide

theorem Running.forcedRewrapLine (running : Running w rs k h)
    (mode : h.lineProcess = .forcedRewrapLine) {r : Bool × Char} (here : rs[k]? = some r) :
    Running w rs (k + 1) (nonflowedLineProcess w h r) ∧
      (WellBroken rs (nonflowedLineProcess w h r).calls ↔
        WellBroken rs h.calls ∧ ∀ g ∈ rewrapped w h r, Spares w rs g) := by
  obtain ⟨fits, target, mode', emptied, broken⟩ := running.fits.opened running.target mode here
  rw [nonflowedLineProcess, rewrapped, mode]
  simp only
  rw [forcedRewrapLine_eq, List.forall_mem_append]
  have first : (∀ g ∈ (if r.1 ∧ h.lineWidth + h.nextWordWidth > h.lineTargetWidth then [h] else []),
      Spares w rs g) ↔
      (r.1 ∧ h.lineWidth + h.nextWordWidth > h.lineTargetWidth → Spares w rs h) := by
    by_cases long' : r.1 ∧ h.lineWidth + h.nextWordWidth > h.lineTargetWidth
    · rw [if_pos long', List.forall_mem_singleton]
      exact ⟨fun spares _ => spares, fun spares => spares long'⟩
    · rw [if_neg long']
      exact ⟨fun _ is => absurd is long', fun _ g mem => absurd mem List.not_mem_nil⟩
  rw [first, ← and_assoc, ← broken]
  by_cases long : (opened w h r).lineWidth = 0 ∧
      (opened w h r).nextWordWidth + w.wcwidth r.2 > (opened w h r).lineTargetWidth
  · obtain ⟨fits', broken'⟩ := fits.emitRewrappedLine
    have frame := emitRewrappedLine_frame w (opened w h r)
    rw [if_pos long, if_pos long, List.forall_mem_singleton, ← broken']
    refine ⟨⟨fits'.appendChar r.2 _ fun opportunity => Or.inl ?_, fun initial => ?_,
      frame.2.trans target⟩, Iff.rfl⟩
    · obtain ⟨-, -, -, word⟩ := emitRewrappedLine_breaks w (opened w h r)
      rw [word, checkAbnormalLine]
      split
      · exact emptied opportunity
      · simp [emptied opportunity]
    · change (emitRewrappedLine w (opened w h r)).lineProcess = _ at initial
      rw [frame.1, mode'] at initial
      cases initial
  · rw [if_neg long, if_neg long]
    refine ⟨⟨fits.appendChar r.2 _ fun opportunity => Or.inl (emptied opportunity),
      fun initial => ?_, target⟩, by simp [appendChar]⟩
    change (opened w h r).lineProcess = _ at initial
    rw [mode'] at initial
    cases initial

theorem Running.nonflowedLineProcess (running : Running w rs k h) {r : Bool × Char}
    (here : rs[k]? = some r) :
    Running w rs (k + 1) (nonflowedLineProcess w h r) ∧
      (WellBroken rs (nonflowedLineProcess w h r).calls ↔
        WellBroken rs h.calls ∧ ∀ g ∈ rewrapped w h r, Spares w rs g) := by
  cases mode : h.lineProcess with
  | initialNonflowedLine => exact running.initialNonflowedLine mode here
  | forcedRewrapLine => exact running.forcedRewrapLine mode here

theorem lineRun_take (k : Nat) (within : k ≤ rs.length) :
    Running w rs k (lineRun w (rs.take k)) ∧
      (WellBroken rs (lineRun w (rs.take k)).calls ↔
        ∀ i < k, ∀ r, rs[i]? = some r → ∀ g ∈ rewrapped w (lineRun w (rs.take i)) r,
          Spares w rs g) := by
  induction k with
  | zero =>
      refine ⟨⟨⟨rfl, rfl, fun filled => absurd rfl filled, fun q before => absurd before (by simp)⟩,
        fun _ => ⟨rfl, by simp [lineRun, lineStart]⟩, rfl⟩, ?_⟩
      simp [lineRun, lineStart, WellBroken, softBreaks, softBreaksFrom]
  | succ k ih =>
      obtain ⟨running, broken⟩ := ih (by omega)
      have here : rs[k]? = some rs[k] := List.getElem?_eq_getElem within
      obtain ⟨running', broken'⟩ := running.nonflowedLineProcess here
      have step : lineRun w (rs.take (k + 1)) =
          Rfc3676Nonflowed.nonflowedLineProcess w (lineRun w (rs.take k)) rs[k] := by
        rw [lineRun, List.take_add_one, here, List.foldl_append]
        rfl
      rw [step]
      refine ⟨running', broken'.trans ?_⟩
      rw [broken]
      constructor
      · rintro ⟨earlier, now⟩ i hi r hr
        by_cases last : i = k
        · subst last
          rw [here] at hr
          rw [← Option.some.inj hr]
          exact now
        · exact earlier i (by omega) r hr
      · intro all
        exact ⟨fun i hi => all i (by omega), all k (by omega) _ here⟩

end Run

section Main
variable {L : Type} (b : Linebreak L) (w : Widths)

theorem softBreaks_tellLine (line : List Char) :
    softBreaks (tellLine b w line) = softBreaks (lineRun w (opportunities b line)).calls := by
  let h := lineRun w (opportunities b line)
  have first := (emitLineContents_breaks h h.line).1
  have second := (emitLineContents_breaks (emitLineContents h h.line) h.nextWord).1
  change softBreaks ((nonflowedEnd h).calls ++ [.lineEnd]) = _
  rw [softBreaks_append, nonflowedEnd, second, first]
  exact List.append_nil _

theorem wellBroken_iff_spared (line : List Char) :
    WellBroken (opportunities b line) (tellLine b w line) ↔ Spared w (opportunities b line) := by
  have all := (@lineRun_take w (opportunities b line) _ (Nat.le_refl _)).2
  rw [List.take_length] at all
  rw [WellBroken, softBreaks_tellLine, ← WellBroken, all, Spared]
  constructor
  · intro spared k r here
    exact spared k (List.getElem?_eq_some_iff.mp here).1 r here
  · exact fun spared i _ => spared i

/-- Eighty letters, a space and thirty letters. -/
def crowded : List Char := List.replicate 80 'a' ++ ' ' :: List.replicate 30 'b'

end Main

end Cone.Rfc3676Rewrap
