import Mathlib.Data.Nat.Basic

/-! # Slots of given widths

The slots of widths `w 0`, `w 1`, … laid side by side, and the search for the one a point falls
into. -/
set_option autoImplicit false
namespace Cone.Lib.Slots

section Slots
variable (w : Nat → Nat)

/-- The total width of the first `k` slots. -/
def before : Nat → Nat
  | 0 => 0
  | k + 1 => before k + w k

def slot : Nat → Nat → Nat → Nat × Nat
  | 0, k, d => (k, d)
  | fuel + 1, k, d => if d < w k then (k, d) else slot fuel (k + 1) (d - w k)

theorem before_mono {j k : Nat} (h : j ≤ k) : before w j ≤ before w k := by
  induction k with
  | zero =>
      have zero : j = 0 := by omega
      rw [zero]
  | succ k ih =>
      by_cases last : j = k + 1
      · rw [last]
      · exact Nat.le_trans (ih (by omega)) (Nat.le_add_right _ _)

theorem slot_spec (fuel k d : Nat) (inside : before w k + d < before w (k + fuel)) :
    k ≤ (slot w fuel k d).1 ∧ (slot w fuel k d).1 < k + fuel ∧
      (slot w fuel k d).2 < w (slot w fuel k d).1 ∧
      before w (slot w fuel k d).1 + (slot w fuel k d).2 = before w k + d := by
  induction fuel generalizing k d with
  | zero =>
      rw [Nat.add_zero] at inside
      omega
  | succ fuel ih =>
      rw [slot]
      by_cases here : d < w k
      · rw [if_pos here]
        exact ⟨Nat.le_refl k, by omega, here, rfl⟩
      · have next : before w (k + 1) = before w k + w k := rfl
        have far : k + 1 + fuel = k + (fuel + 1) := by omega
        obtain ⟨low, high, fits, total⟩ := ih (k + 1) (d - w k) (by rw [far]; omega)
        rw [if_neg here]
        exact ⟨by omega, by omega, fits, by omega⟩

end Slots

end Cone.Lib.Slots
