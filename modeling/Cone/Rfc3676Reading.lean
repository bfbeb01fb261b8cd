import Cone.Rfc3676Lines

/-! # The flowed text parser reports the RFC 3676 reading

What the parser reports is the reading of the text, but for two things that can happen when
the text ends without a newline: a last line with an empty body does not stop the flow into
it, and the space that makes a last line flow stays although `delsp` is set.  Every other
state takes the end of the text for a line end. -/
set_option autoImplicit false
namespace Cone.Rfc3676Reading

open Cone.FlowedText Cone.Rfc3676Parser Cone.Rfc3676Peel Cone.Rfc3676Lines

def EmptyLastLineJoins (lines : List Line) : Prop :=
  ∃ ls l m, lines = ls ++ [l, m] ∧ m.ended = false ∧ l.flows = true ∧
    m.quoteLevel = l.quoteLevel ∧ m.body = []

def LastLineFlows (lines : List Line) : Prop :=
  ∃ ls m, lines = ls ++ [m] ∧ m.ended = false ∧ m.flows = true

section Lines
variable (l m : Line) (ms : List Line)

theorem emptyLastLineJoins_cons :
    EmptyLastLineJoins (l :: m :: ms) ↔
      (ms = [] ∧ m.ended = false ∧ l.flows = true ∧ m.quoteLevel = l.quoteLevel ∧ m.body = []) ∨
        EmptyLastLineJoins (m :: ms) := by
  constructor
  · rintro ⟨ls, l', m', lines, joins⟩
    cases ls with
    | nil =>
        simp only [List.nil_append, List.cons.injEq] at lines
        obtain ⟨rfl, rfl, rfl⟩ := lines
        exact Or.inl ⟨rfl, joins⟩
    | cons l'' ls => exact Or.inr ⟨ls, l', m', (List.cons.inj lines).2, joins⟩
  · rintro (⟨rfl, joins⟩ | ⟨ls, l', m', lines, joins⟩)
    · exact ⟨[], l, m, rfl, joins⟩
    · exact ⟨l :: ls, l', m', by rw [lines]; rfl, joins⟩

theorem not_emptyLastLineJoins_singleton : ¬EmptyLastLineJoins [l] := by
  rintro ⟨ls, l', m', lines, _⟩
  have := congrArg List.length lines
  simp at this

theorem lastLineFlows_cons : LastLineFlows (l :: m :: ms) ↔ LastLineFlows (m :: ms) := by
  constructor
  · rintro ⟨ls, m', lines, flows⟩
    cases ls with
    | nil => simp at lines
    | cons l'' ls => exact ⟨ls, m', (List.cons.inj lines).2, flows⟩
  · rintro ⟨ls, m', lines, flows⟩
    exact ⟨l :: ls, m', by rw [lines]; rfl, flows⟩

theorem lastLineFlows_singleton : LastLineFlows [l] ↔ l.ended = false ∧ l.flows = true := by
  constructor
  · rintro ⟨ls, m', lines, flows⟩
    cases ls with
    | nil =>
        obtain rfl : l = m' := by simpa using lines
        exact flows
    | cons l'' ls => simp at lines
  · intro flows
    exact ⟨[], l, rfl, flows⟩

end Lines

section Rules
variable (delsp : Bool)

theorem chars_eq_iff (m : Line) :
    (asParsed delsp).chars m = (rfc3676 delsp).chars m ↔
      ¬(delsp = true ∧ m.ended = false ∧ m.flows = true) := by
  by_cases cut : delsp = true ∧ m.ended = false ∧ m.flows = true
  · obtain ⟨rfl, cutOff, flows⟩ := cut
    have nonempty : m.body ≠ [] := by
      intro empty
      simp [Line.flows, empty] at flows
    have shorter : m.body.dropLast.length < m.body.length := by
      have := List.length_pos_iff.mpr nonempty
      simp only [List.length_dropLast]
      omega
    have kept : (asParsed true).chars m = m.body.map .char := by simp [Rules.chars, asParsed, cutOff]
    have dropped : (rfc3676 true).chars m = m.body.dropLast.map .char := by
      simp [Rules.chars, rfc3676, flows]
    rw [kept, dropped]
    simp only [cutOff, flows, and_self, not_true, iff_false]
    intro same
    have := congrArg List.length same
    simp only [List.length_map] at this
    omega
  · simp only [cut, not_false_eq_true, iff_true]
    cases flows : m.flows with
    | false => simp [Rules.chars, asParsed, rfc3676, flows]
    | true =>
        cases ended : m.ended with
        | false =>
            have keeps : delsp = false := by
              cases delsp with
              | false => rfl
              | true => exact absurd ⟨rfl, ended, flows⟩ cut
            simp [Rules.chars, asParsed, rfc3676, keeps]
        | true => simp [Rules.chars, asParsed, rfc3676, flows, ended]

theorem joins_eq (l m : Line) (ended : l.ended = true) (other : m.ended = true ∨ m.body ≠ []) :
    (asParsed delsp).joins l m = (rfc3676 delsp).joins l m := by
  rcases other with hm | hm
  · simp [asParsed, rfc3676, ended, hm]
  · simp [asParsed, rfc3676, ended, hm]

def EndedBefore (lines : List Line) : Prop := ∀ l ∈ lines.dropLast, l.ended = true

theorem after_eq_iff (l : Line) (ls : List Line) (ended : EndedBefore (l :: ls)) :
    (asParsed delsp).chars l ++ (asParsed delsp).after l ls =
        (rfc3676 delsp).chars l ++ (rfc3676 delsp).after l ls ↔
      ¬EmptyLastLineJoins (l :: ls) ∧ ¬(delsp = true ∧ LastLineFlows (l :: ls)) := by
  induction ls generalizing l with
  | nil =>
      rw [Rules.after, Rules.after, List.append_cancel_right_eq, chars_eq_iff,
        lastLineFlows_singleton]
      simp [not_emptyLastLineJoins_singleton]
  | cons m ms ih =>
      have endedFirst : l.ended = true := ended l (by simp)
      have sameText : (asParsed delsp).chars l = (rfc3676 delsp).chars l :=
        (chars_eq_iff delsp l).mpr (by simp [endedFirst])
      rw [sameText, List.append_cancel_left_eq, Rules.after, Rules.after, lastLineFlows_cons,
        emptyLastLineJoins_cons]
      by_cases other : m.ended = true ∨ m.body ≠ []
      · have rest := ih m (fun l' hl' => ended l' (by simp [hl']))
        have noJoin : ¬(ms = [] ∧ m.ended = false ∧ l.flows = true ∧ m.quoteLevel = l.quoteLevel ∧
            m.body = []) := by
          rintro ⟨_, cutOff, _, _, empty⟩
          simp [cutOff, empty] at other
        rw [joins_eq delsp l m endedFirst other, List.append_assoc, List.append_assoc,
          List.append_cancel_left_eq, rest]
        simp [noJoin]
      · simp only [not_or, Bool.not_eq_true, not_not] at other
        obtain ⟨cutOff, empty⟩ := other
        have last : ms = [] := by
          cases ms with
          | nil => rfl
          | cons m' ms =>
              have := ended m (by simp)
              simp [cutOff] at this
        subst last
        have noText : (asParsed delsp).chars m = [] := by simp [Rules.chars, asParsed, empty, cutOff]
        have noText' : (rfc3676 delsp).chars m = [] := by
          simp [Rules.chars, rfc3676, Line.flows, empty]
        have fixed : ¬LastLineFlows [m] := by
          simp [lastLineFlows_singleton, Line.flows, empty]
        rw [noText, noText', Rules.after, Rules.after]
        by_cases joins : l.flows = true ∧ m.quoteLevel = l.quoteLevel
        · simp [asParsed, rfc3676, joins, endedFirst, cutOff, empty, signature]
        · have apart : (asParsed delsp).joins l m = false := by
            simp only [asParsed, endedFirst, Bool.and_true, cutOff, Bool.not_false, Bool.or_true]
            simpa [signature, empty] using joins
          have apart' : (rfc3676 delsp).joins l m = false := by simp [rfc3676, empty]
          have noJoin : ¬(m.ended = false ∧ l.flows = true ∧ m.quoteLevel = l.quoteLevel ∧
              m.body = []) := by
            rintro ⟨_, flows, level, _⟩
            exact joins ⟨flows, level⟩
          simp [apart, apart', noJoin, fixed, not_emptyLastLineJoins_singleton]

theorem endedBefore_physicalLines (text : List Char) : EndedBefore (physicalLines text) := by
  obtain ⟨ls, last, oneLine, oneLine', lines⟩ := exists_lines (collapseCrlf text)
  rw [physicalLines, lines, splitLines_lines ls last oneLine oneLine']
  have allEnded : ∀ l ∈ (ls.map (·, true)).map readLine, l.ended = true := by
    intro l hl
    simp only [List.mem_map] at hl
    obtain ⟨_, ⟨_, _, rfl⟩, rfl⟩ := hl
    rfl
  intro l hl
  apply allEnded
  by_cases empty : last = []
  · rw [cutLine, if_pos empty, List.append_nil] at hl
    exact (List.dropLast_sublist _).subset hl
  · rw [cutLine, if_neg empty, List.map_append] at hl
    simpa using hl

end Rules

/-- The parser reports the reading of the text unless the end of the text cuts off an empty
line that a line waits to flow into, or, under `delsp`, a line that flows. -/
theorem parse_reading_iff (delsp : Bool) (pieces : List (List Char)) :
    (parse true delsp pieces).map flatten = some (reading (rfc3676 delsp) pieces.flatten) ↔
      ¬EmptyLastLineJoins (physicalLines pieces.flatten) ∧
        ¬(delsp = true ∧ LastLineFlows (physicalLines pieces.flatten)) := by
  have ended := endedBefore_physicalLines pieces.flatten
  rw [parse_eq, Option.some.injEq, reading, reading]
  cases lines : physicalLines pieces.flatten with
  | nil =>
      have noJoin : ¬EmptyLastLineJoins [] := by simp [EmptyLastLineJoins]
      have noFlow : ¬LastLineFlows [] := by simp [LastLineFlows]
      simp [noJoin, noFlow, Rules.events, Rules.logicalLines]
  | cons l ls =>
      rw [lines] at ended
      rw [events_cons, events_cons, List.cons_append, List.cons_append, List.cons.injEq,
        after_eq_iff delsp l ls ended]
      simp

/-- The quote mark alone joins the line before it: one logical line is told, the reading has two. -/
theorem empty_last_line_joined :
    ¬ ∀ (delsp : Bool) (pieces : List (List Char)),
      (parse true delsp pieces).map flatten = some (reading (rfc3676 delsp) pieces.flatten) := by
  intro exact
  have h := exact false ["> a \n>".toList]
  revert h
  decide +kernel

end Cone.Rfc3676Reading
