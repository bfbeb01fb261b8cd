import Mathlib.Data.List.Basic

/-! # Texts read line by line

What every line of a text satisfies, read from the left with the line so far at hand. -/
set_option autoImplicit false
namespace Cone.Lib.Lines

section Lines
variable {A : Type} [DecidableEq A] (sep : A) (P : List A → Prop)

def EachLine : List A → List A → Prop
  | line, [] => P line
  | line, a :: text => if a = sep then P line ∧ EachLine [] text else EachLine (line ++ [a]) text

theorem eachLine_nil (line : List A) : EachLine sep P line [] ↔ P line := Iff.rfl

theorem eachLine_sep (line text : List A) :
    EachLine sep P line (sep :: text) ↔ P line ∧ EachLine sep P [] text := by
  rw [EachLine, if_pos rfl]

theorem eachLine_append (line part text : List A) (inLine : sep ∉ part) :
    EachLine sep P line (part ++ text) ↔ EachLine sep P (line ++ part) text := by
  induction part generalizing line with
  | nil => simp
  | cons a part ih =>
      obtain ⟨notSep, later⟩ := List.ne_and_not_mem_of_not_mem_cons inLine
      rw [List.cons_append, EachLine, if_neg (Ne.symm notSep), ih _ later, List.append_assoc,
        List.singleton_append]

theorem eachLine_iff_forall (line text : List A) :
    EachLine sep P line text ↔ ∀ l ∈ (text.splitOn sep).modifyHead (line ++ ·), P l := by
  induction text generalizing line with
  | nil => simp [EachLine]
  | cons a text ih =>
      by_cases stop : a = sep
      · subst stop
        rw [eachLine_sep, ih, List.splitOn_cons_eq_if_modifyHead, if_pos (beq_self_eq_true a)]
        cases text.splitOn a with
        | nil => simp
        | cons l ls => simp
      · have other : ¬ (a == sep) = true := by simpa using stop
        rw [EachLine, if_neg stop, ih, List.splitOn_cons_eq_if_modifyHead, if_neg other]
        cases text.splitOn sep with
        | nil => simp
        | cons l ls => simp

theorem forall_splitOn_iff (text : List A) :
    (∀ l ∈ text.splitOn sep, P l) ↔ EachLine sep P [] text := by
  rw [eachLine_iff_forall]
  cases text.splitOn sep with
  | nil => simp
  | cons l ls => simp

end Lines

end Cone.Lib.Lines
