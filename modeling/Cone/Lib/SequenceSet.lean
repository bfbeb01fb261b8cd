import Cone.Lib.Decimal

/-! # Sequence sets

The message sets of an IMAP command: numbers and ranges of numbers with commas between them. -/
set_option autoImplicit false
namespace Cone.Lib.SequenceSet

open Cone.Ctype Cone.Lib.Decimal

abbrev Text := List UInt8
abbrev Range := Nat × Nat

section Definitions

def COMMA : UInt8 := byte ','
def COLON : UInt8 := byte ':'

/-- The numbers of a range; its ends may stand in either order. -/
def members (r : Range) : List Nat :=
  if r.1 ≤ r.2 then List.range' r.1 (r.2 + 1 - r.1) else List.range' r.2 (r.1 + 1 - r.2)

def rangeText (r : Range) : Text :=
  if r.1 ≠ r.2 then decimal r.1 ++ COLON :: decimal r.2 else decimal r.1

def setText (rs : List Range) : Text := [COMMA].intercalate (rs.map rangeText)

def readNumber (p : Text) : Option Nat :=
  if p ≠ [] ∧ p.all isdigit then some (readDigits p) else none

def readRange (p : Text) : Option Range :=
  match p.splitOn COLON with
  | [a] => (readNumber a).map fun n => (n, n)
  | [a, b] => (readNumber a).bind fun first => (readNumber b).map fun last => (first, last)
  | _ => none

def readSet (p : Text) : Option (List Range) := (p.splitOn COMMA).mapM readRange

end Definitions

section Reading
variable {r : Range} {rs : List Range}

theorem not_mem_decimal {c : UInt8} (hc : isdigit c = false) (n : Nat) : c ∉ decimal n :=
  fun mem => Bool.false_ne_true (hc.symm.trans (isdigit_of_mem_decimal mem))

theorem readNumber_decimal (n : Nat) : readNumber (decimal n) = some n := by
  have hall : (decimal n).all isdigit := List.all_eq_true.2 fun c => isdigit_of_mem_decimal
  have hread := @readDigits_decimal n [] nofun
  rw [List.append_nil] at hread
  rw [readNumber, if_pos ⟨decimal_ne_nil n, hall⟩, hread]

theorem readRange_rangeText (r : Range) : readRange (rangeText r) = some r := by
  have hcolon (n : Nat) : COLON ∉ decimal n := not_mem_decimal (by decide) n
  obtain ⟨first, last⟩ := r
  rw [readRange, rangeText]
  by_cases h : first ≠ last
  · have hends : ∀ l ∈ [decimal first, decimal last], COLON ∉ l := by
      intro l mem
      rcases List.mem_pair.1 mem with rfl | rfl
      · exact hcolon first
      · exact hcolon last
    have hsplit := List.splitOn_intercalate COLON hends (List.cons_ne_nil _ _)
    have hjoin : [COLON].intercalate [decimal first, decimal last] =
        decimal first ++ COLON :: decimal last := by
      simp [List.intercalate]
    rw [hjoin] at hsplit
    simp only [if_pos h, hsplit, readNumber_decimal, Option.bind_some, Option.map_some]
  · obtain rfl := not_not.1 h
    simp only [if_neg h, List.splitOn_eq_singleton (hcolon first), readNumber_decimal,
      Option.map_some]

theorem not_mem_rangeText {c : UInt8} (hc : isdigit c = false) (hcolon : c ≠ COLON) (r : Range) :
    c ∉ rangeText r := by
  rw [rangeText]
  split
  · intro mem
    rcases List.mem_append.1 mem with mem | mem
    · exact not_mem_decimal hc _ mem
    · rcases List.mem_cons.1 mem with heq | mem
      · exact hcolon heq
      · exact not_mem_decimal hc _ mem
  · exact not_mem_decimal hc _

theorem readSet_setText (hrs : rs ≠ []) : readSet (setText rs) = some rs := by
  rw [readSet, setText, List.splitOn_intercalate COMMA]
  · clear hrs
    induction rs with
    | nil => rfl
    | cons r rs ih =>
        rw [List.map_cons, List.mapM_cons, readRange_rangeText, ih]
        rfl
  · intro l mem
    obtain ⟨r, -, rfl⟩ := List.mem_map.1 mem
    exact not_mem_rangeText (by decide) (by decide) r
  · exact fun h => hrs (List.map_eq_nil_iff.1 h)

theorem rangeText_ne_nil (r : Range) : rangeText r ≠ [] := by
  rw [rangeText]
  split
  · exact fun h => decimal_ne_nil _ (List.append_eq_nil_iff.1 h).1
  · exact decimal_ne_nil _

theorem setText_concat (hrs : rs ≠ []) (r : Range) :
    setText (rs ++ [r]) = setText rs ++ COMMA :: rangeText r := by
  induction rs with
  | nil => exact absurd rfl hrs
  | cons s rs ih =>
      cases rs with
      | nil => simp [setText, List.intercalate]
      | cons t rs =>
          have hrest := ih (List.cons_ne_nil t rs)
          simp only [setText, List.cons_append, List.map_cons, List.intercalate_cons_cons,
            List.append_assoc] at hrest ⊢
          rw [hrest]

theorem not_mem_setText {c : UInt8} (hc : isdigit c = false) (hcolon : c ≠ COLON)
    (hcomma : c ≠ COMMA) (rs : List Range) : c ∉ setText rs := by
  have hone := not_mem_rangeText hc hcolon
  by_cases hrs : rs = []
  · subst hrs
    exact List.not_mem_nil
  · induction rs using List.reverseRecOn with
    | nil => exact absurd rfl hrs
    | append_singleton rs r ih =>
        by_cases hnil : rs = []
        · subst hnil
          simpa [setText, List.intercalate] using hone r
        · rw [setText_concat hnil, List.mem_append, List.mem_cons]
          rintro (mem | heq | mem)
          · exact ih hnil mem
          · exact hcomma heq
          · exact hone r mem

theorem setText_ne_nil (hrs : rs ≠ []) : setText rs ≠ [] := by
  cases rs with
  | nil => exact absurd rfl hrs
  | cons r rs =>
      intro h
      cases rs with
      | nil => exact rangeText_ne_nil r (by simpa [setText] using h)
      | cons s rs =>
          rw [setText, List.map_cons, List.map_cons, List.intercalate_cons_cons] at h
          exact rangeText_ne_nil r (List.append_eq_nil_iff.1 (List.append_eq_nil_iff.1 h).1).1

end Reading
end Cone.Lib.SequenceSet
