import Cone.Lib.Runs
import Mathlib.Data.Char

/-! # The format=flowed reading of a text

What a text in the flowed format says, apart from any program.  Physical lines end at a
newline or at a carriage return and a newline.  A physical line has a quote level and a body;
a logical line is a maximal run of physical lines that flow into each other. -/
set_option autoImplicit false
namespace Cone.FlowedText

open Cone.Lib.Runs

section Lines

/-- A carriage return before a newline goes; any other stays. -/
def collapseCrlf : List Char → List Char
  | [] => []
  | '\r' :: '\n' :: cs => '\n' :: collapseCrlf cs
  | c :: cs => c :: collapseCrlf cs

def splitLines (text : List Char) : List (List Char × Bool) :=
  let pieces := text.splitOn '\n'
  pieces.dropLast.map (·, true) ++
    match pieces.getLast? with
    | some (c :: cs) => [(c :: cs, false)]
    | _ => []

structure Line where
  quoteLevel : Nat
  body : List Char
  ended : Bool
  deriving DecidableEq, Repr

def unstuff : List Char → List Char
  | ' ' :: body => body
  | body => body

def readLine (line : List Char × Bool) : Line where
  quoteLevel := (line.1.takeWhile (· = '>')).length
  body := unstuff (line.1.dropWhile (· = '>'))
  ended := line.2

def physicalLines (text : List Char) : List Line := (splitLines (collapseCrlf text)).map readLine

/-- The line that announces a signature is never flowed and nothing flows into it. -/
def signature : List Char := ['-', '-', ' ']

def Line.flows (l : Line) : Bool := l.body.getLast? = some ' ' && l.body ≠ signature

structure Rules where
  joins : Line → Line → Bool
  text : Line → List Char

def rfc3676 (delsp : Bool) : Rules where
  joins l m := l.flows && m.quoteLevel = l.quoteLevel && m.body ≠ [] && m.body ≠ signature
  text l := if l.flows && delsp then l.body.dropLast else l.body

def Rules.logicalLines (r : Rules) (lines : List Line) : List (List Line) := lines.splitBy r.joins

@[simp] theorem collapseCrlf_crlf (cs : List Char) :
    collapseCrlf ('\r' :: '\n' :: cs) = '\n' :: collapseCrlf cs := rfl

theorem collapseCrlf_cons (c : Char) (cs : List Char) (keeps : c = '\r' → cs.head? ≠ some '\n') :
    collapseCrlf (c :: cs) = c :: collapseCrlf cs := by
  rw [collapseCrlf]
  rintro ds rfl rfl
  exact keeps rfl rfl

theorem exists_lines (text : List Char) :
    ∃ (ls : List (List Char)) (last : List Char), (∀ l ∈ ls, '\n' ∉ l) ∧ '\n' ∉ last ∧
      text = ls.flatMap (· ++ ['\n']) ++ last := by
  induction text with
  | nil => exact ⟨[], [], by simp⟩
  | cons c cs ih =>
      obtain ⟨ls, last, oneLine, oneLine', rfl⟩ := ih
      by_cases nl : c = '\n'
      · refine ⟨[] :: ls, last, ?_, oneLine', by simp [nl]⟩
        intro l hl
        rcases List.mem_cons.mp hl with rfl | hl
        · simp
        · exact oneLine l hl
      · cases ls with
        | nil => exact ⟨[], c :: last, by simp, by simp [Ne.symm nl, oneLine'], by simp⟩
        | cons l ls =>
            refine ⟨(c :: l) :: ls, last, ?_, oneLine', by simp⟩
            intro l' hl'
            rcases List.mem_cons.mp hl' with rfl | hl'
            · simp [Ne.symm nl, oneLine l (by simp)]
            · exact oneLine l' (by simp [hl'])

theorem splitOn_lines (ls : List (List Char)) (last : List Char) (oneLine : ∀ l ∈ ls, '\n' ∉ l)
    (oneLine' : '\n' ∉ last) :
    (ls.flatMap (· ++ ['\n']) ++ last).splitOn '\n' = ls ++ [last] := by
  induction ls with
  | nil => simpa using List.splitOn_eq_singleton oneLine'
  | cons l ls ih =>
      have rest := ih (fun l' hl' => oneLine l' (by simp [hl']))
      have first := oneLine l (by simp)
      rw [List.flatMap_cons, List.append_assoc, List.append_assoc, List.singleton_append,
        List.splitOn_append_cons_self_of_not_mem first, rest]
      rfl

def cutLine (last : List Char) : List (List Char × Bool) := if last = [] then [] else [(last, false)]

theorem splitLines_lines (ls : List (List Char)) (last : List Char) (oneLine : ∀ l ∈ ls, '\n' ∉ l)
    (oneLine' : '\n' ∉ last) :
    splitLines (ls.flatMap (· ++ ['\n']) ++ last) = ls.map (·, true) ++ cutLine last := by
  rw [splitLines, splitOn_lines ls last oneLine oneLine']
  cases last with
  | nil => simp [cutLine]
  | cons c cs => simp [cutLine]

end Lines

section Events

inductive Event where
  | lineBegin (quoteLevel : Nat)
  | char (c : Char)
  | flowed
  | lineEnd
  deriving DecidableEq, Repr

variable (r : Rules)

def Rules.chars (l : Line) : List Event := (r.text l).map .char

def Rules.logicalLineEvents : List Line → List Event
  | [] => []
  | l :: ls =>
    .lineBegin l.quoteLevel :: r.chars l ++ ls.flatMap (fun m => .flowed :: r.chars m) ++ [.lineEnd]

def Rules.events (lines : List Line) : List Event :=
  (r.logicalLines lines).flatMap r.logicalLineEvents

def reading (text : List Char) : List Event := r.events (physicalLines text)

/-- What there is to tell after the text of `l`. -/
def Rules.after : Line → List Line → List Event
  | _, [] => [.lineEnd]
  | l, m :: ms =>
    (if r.joins l m then [.flowed] else [.lineEnd, .lineBegin m.quoteLevel]) ++ r.chars m ++
      after m ms

theorem events_cons (l : Line) (ls : List Line) :
    r.events (l :: ls) = .lineBegin l.quoteLevel :: r.chars l ++ r.after l ls := by
  rw [Rules.events, Rules.logicalLines]
  induction ls generalizing l with
  | nil =>
      have one : [l].splitBy r.joins = [[l]] := List.splitBy_of_isChain (by simp) (by simp)
      rw [one]
      simp [Rules.logicalLineEvents, Rules.after]
  | cons m ms ih =>
      rw [Rules.after]
      cases joins : r.joins l m with
      | false =>
          rw [splitBy_cons_of_not _ _ _ _ joins, List.flatMap_cons, ih m]
          simp [Rules.logicalLineEvents]
      | true =>
          obtain ⟨g, gs, run, longer⟩ := splitBy_cons_of_rel _ l m ms joins
          have rest := ih m
          rw [run] at rest
          rw [longer]
          simp only [List.flatMap_cons, Rules.logicalLineEvents, List.cons_append,
            List.append_assoc, List.cons.injEq, true_and] at rest ⊢
          have rest' := List.append_cancel_left rest
          simpa using rest'

def reported : Option (Nat × List Char) → List Event → List (Nat × List Char)
  | _, [] => []
  | _, .lineBegin quoteLevel :: es => reported (some (quoteLevel, [])) es
  | some (quoteLevel, text), .char c :: es => reported (some (quoteLevel, text ++ [c])) es
  | some line, .lineEnd :: es => line :: reported none es
  | line, _ :: es => reported line es

def Rules.logicalText : List Line → List (Nat × List Char)
  | [] => []
  | l :: ls => [(l.quoteLevel, (l :: ls).flatMap r.text)]

theorem reported_chars (quoteLevel : Nat) (text txt : List Char) (es : List Event) :
    reported (some (quoteLevel, text)) (txt.map .char ++ es) =
      reported (some (quoteLevel, text ++ txt)) es := by
  induction txt generalizing text with
  | nil => simp
  | cons c txt ih => simp [reported, ih]

theorem reported_joined (quoteLevel : Nat) (text : List Char) (ls : List Line) (es : List Event) :
    reported (some (quoteLevel, text)) (ls.flatMap (fun m => .flowed :: r.chars m) ++ es) =
      reported (some (quoteLevel, text ++ ls.flatMap r.text)) es := by
  induction ls generalizing text with
  | nil => simp
  | cons l ls ih =>
      rw [List.flatMap_cons, List.cons_append, List.cons_append, reported, List.append_assoc,
        Rules.chars, reported_chars, ih]
      · simp
      all_goals simp

theorem reported_events (lines : List Line) :
    reported none (r.events lines) = (r.logicalLines lines).flatMap r.logicalText := by
  rw [Rules.events]
  induction r.logicalLines lines with
  | nil => rfl
  | cons g gs ih =>
      cases g with
      | nil => simpa [Rules.logicalLineEvents, Rules.logicalText] using ih
      | cons l ls =>
          rw [List.flatMap_cons, List.flatMap_cons, Rules.logicalLineEvents, List.cons_append,
            List.cons_append, List.cons_append, reported, List.append_assoc, List.append_assoc,
            Rules.chars, reported_chars, reported_joined]
          simp [reported, Rules.logicalText, ih]

end Events

end Cone.FlowedText
