import Mathlib.Computability.RegularExpressions

/-! # Regular expressions over classes of letters

Sequences of letter classes, each taken once, at most once or any number of times.  A word of
such an expression is read letter by letter, by what its first letter can be. -/
set_option autoImplicit false
namespace Cone.Lib.ClassLanguage
open RegularExpression

section
variable {α : Type}

/-- One letter out of `as`. -/
def oneOf : List α → RegularExpression α
  | [] => 0
  | a :: as => char a + oneOf as

def opt (r : RegularExpression α) : RegularExpression α := 1 + r

theorem mem_oneOf (as w : List α) : w ∈ (oneOf as).matches' ↔ ∃ a ∈ as, w = [a] := by
  induction as with
  | nil => simp [oneOf, Language.notMem_zero]
  | cons a as ih =>
      rw [oneOf, matches'_add, Language.mem_add, ih, List.exists_mem_cons_iff, matches'_char]
      exact Iff.rfl

variable {as w : List α} {x : α} {l : Language α}

theorem nil_mem_oneOf_mul : ¬ [] ∈ (oneOf as).matches' * l := by
  rw [Language.mem_mul]
  rintro ⟨u, hu, v, -, h⟩
  obtain ⟨a, -, rfl⟩ := (mem_oneOf as u).mp hu
  cases h

theorem cons_mem_oneOf_mul : x :: w ∈ (oneOf as).matches' * l ↔ x ∈ as ∧ w ∈ l := by
  rw [Language.mem_mul]
  constructor
  · rintro ⟨u, hu, v, hv, h⟩
    obtain ⟨a, ha, rfl⟩ := (mem_oneOf as u).mp hu
    obtain ⟨rfl, rfl⟩ := List.cons.inj h
    exact ⟨ha, hv⟩
  · rintro ⟨hx, hw⟩
    exact ⟨[x], (mem_oneOf as _).mpr ⟨x, hx, rfl⟩, w, hw, rfl⟩

theorem nil_mem_opt_mul : [] ∈ (opt (oneOf as)).matches' * l ↔ [] ∈ l := by
  rw [opt, matches'_add, matches'_epsilon, add_mul, one_mul, Language.mem_add]
  exact or_iff_left nil_mem_oneOf_mul

theorem cons_mem_opt_mul :
    x :: w ∈ (opt (oneOf as)).matches' * l ↔ (x ∈ as ∧ w ∈ l) ∨ x :: w ∈ l := by
  rw [opt, matches'_add, matches'_epsilon, add_mul, one_mul, Language.mem_add,
    cons_mem_oneOf_mul, or_comm]

theorem star_mul (r : RegularExpression α) :
    r.star.matches' * l = l + r.matches' * (r.star.matches' * l) := by
  rw [matches'_star]
  nth_rewrite 1 [← Language.one_add_self_mul_kstar_eq_kstar]
  rw [add_mul, one_mul, mul_assoc]

theorem nil_mem_star_mul : [] ∈ (star (oneOf as)).matches' * l ↔ [] ∈ l := by
  rw [star_mul, Language.mem_add]
  exact or_iff_left nil_mem_oneOf_mul

theorem cons_mem_star_mul :
    x :: w ∈ (star (oneOf as)).matches' * l ↔
      (x ∈ as ∧ w ∈ (star (oneOf as)).matches' * l) ∨ x :: w ∈ l := by
  rw [star_mul, Language.mem_add, cons_mem_oneOf_mul, or_comm, ← star_mul]

end

end Cone.Lib.ClassLanguage
