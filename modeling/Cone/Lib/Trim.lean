import Mathlib.Data.List.DropRight
import Mathlib.Data.List.Count

/-! # Trailing elements

`trim a l` is `l` without the copies of `a` at its end, and `trail a l` counts them. -/
set_option autoImplicit false
namespace Cone.Lib.Trim

section Trim
variable {A : Type} [DecidableEq A] (a : A)

def trim (l : List A) : List A := l.rdropWhile (· = a)

def trail (l : List A) : Nat := l.length - (trim a l).length

@[simp] theorem trim_nil : trim a [] = [] := List.rdropWhile_nil _

@[simp] theorem trim_concat_self (l : List A) : trim a (l ++ [a]) = trim a l :=
  List.rdropWhile_concat_pos _ _ _ (by simp)

theorem trim_concat_of_ne (l : List A) {b : A} (ne : b ≠ a) : trim a (l ++ [b]) = l ++ [b] :=
  List.rdropWhile_concat_neg _ _ _ (by simpa using ne)

@[simp] theorem trim_append_replicate (l : List A) (n : Nat) :
    trim a (l ++ List.replicate n a) = trim a l := by
  induction n with
  | zero => simp
  | succ n ih => rw [List.replicate_succ', ← List.append_assoc, trim_concat_self, ih]

theorem trim_append_trail (l : List A) : trim a l ++ List.replicate (trail a l) a = l := by
  induction l using List.reverseRecOn with
  | nil => simp [trail]
  | append_singleton l b ih =>
      by_cases same : b = a
      · subst same
        have shorter : (trim b l).length ≤ l.length := (List.rdropWhile_prefix _ _).length_le
        have more : trail b (l ++ [b]) = trail b l + 1 := by
          simp only [trail, trim_concat_self, List.length_append, List.length_singleton]
          omega
        rw [trim_concat_self, more, List.replicate_succ', ← List.append_assoc, ih]
      · simp [trim_concat_of_ne a l same, trail]

theorem exists_trim (l : List A) :
    ∃ n, l = trim a l ++ List.replicate n a := ⟨trail a l, (trim_append_trail a l).symm⟩

@[simp] theorem trim_trim (l : List A) : trim a (trim a l) = trim a l :=
  List.rdropWhile_idempotent _ _

theorem trim_eq_nil_iff (l : List A) : trim a l = [] ↔ ∀ b ∈ l, b = a := by
  simp [trim]

theorem getLast?_trim_ne (l : List A) : (trim a l).getLast? ≠ some a := by
  intro last
  have ne : trim a l ≠ [] := by
    intro empty
    simp [empty] at last
  have other := List.rdropWhile_last_not (· = a) l ne
  rw [List.getLast?_eq_some_getLast ne, Option.some.injEq] at last
  simp [trim] at last
  simp [last] at other

theorem trim_append_trim (l m : List A) : trim a (l ++ trim a m) = trim a (l ++ m) := by
  obtain ⟨n, whole⟩ := exists_trim a m
  conv_rhs => rw [whole, ← List.append_assoc, trim_append_replicate]

theorem trim_append_of_nil (l : List A) {m : List A} (all : trim a m = []) :
    trim a (l ++ m) = trim a l := by
  rw [← trim_append_trim, all]
  simp

theorem trim_append_of_ne (l : List A) {m : List A} (other : trim a m ≠ []) :
    trim a (l ++ m) = l ++ trim a m := by
  rcases List.eq_nil_or_concat (trim a m) with empty | ⟨k, b, split⟩
  · exact absurd empty other
  · have ne : b ≠ a := by
      intro same
      apply getLast?_trim_ne a m
      simp [split, same]
    rw [← trim_append_trim, split, List.concat_eq_append, ← List.append_assoc,
      trim_concat_of_ne a _ ne]

theorem trim_trim_append (l m : List A) : trim a (trim a l ++ m) = trim a l ++ trim a m := by
  by_cases all : trim a m = []
  · rw [trim_append_of_nil a _ all, trim_trim, all, List.append_nil]
  · rw [trim_append_of_ne a _ all]

theorem trail_trim_append (l m : List A) : trail a (trim a l ++ m) = trail a m := by
  rw [trail, trail, trim_trim_append, List.length_append, List.length_append]
  omega

theorem count_trim (l : List A) {b : A} (ne : b ≠ a) : (trim a l).count b = l.count b := by
  obtain ⟨n, whole⟩ := exists_trim a l
  conv_rhs => rw [whole, List.count_append]
  rw [List.count_replicate]
  simp [Ne.symm ne]

end Trim

end Cone.Lib.Trim
