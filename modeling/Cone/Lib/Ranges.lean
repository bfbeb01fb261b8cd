import Mathlib.Data.Set.Basic
import Mathlib.Data.List.Basic

/-! # Sorted lists of ranges of numbers

A set of numbers as a list of closed ranges in ascending order, with at least one number missing
between two neighbours. -/
set_option autoImplicit false
namespace Cone.Lib.Ranges

abbrev Range := Nat × Nat

structure Spaced (rs : List Range) : Prop where
  ordered : ∀ r ∈ rs, r.1 ≤ r.2
  apart : rs.Pairwise fun r s => r.2 + 1 < s.1

def numbers (rs : List Range) : Set Nat := {n | ∃ r ∈ rs, r.1 ≤ n ∧ n ≤ r.2}

section Members
variable {r : Range} {rs ss : List Range} {n m : Nat}

@[simp] theorem mem_numbers_nil : n ∈ numbers [] ↔ False := by
  simp [numbers]

@[simp] theorem mem_numbers_cons :
    n ∈ numbers (r :: rs) ↔ (r.1 ≤ n ∧ n ≤ r.2) ∨ n ∈ numbers rs := by
  simp [numbers]

@[simp] theorem mem_numbers_append : n ∈ numbers (rs ++ ss) ↔ n ∈ numbers rs ∨ n ∈ numbers ss := by
  simp [numbers, or_and_right, exists_or]

theorem not_mem_numbers_of_lt (above : ∀ r ∈ rs, m < r.1) (h : n ≤ m) : n ∉ numbers rs := by
  rintro ⟨r, mem, low, -⟩
  have := above r mem
  omega

end Members

section Spacing
variable {r r' : Range} {rs ss : List Range} {m : Nat}

theorem spaced_nil : Spaced [] where
  ordered := by simp
  apart := List.Pairwise.nil

theorem spaced_append_iff :
    Spaced (rs ++ ss) ↔ Spaced rs ∧ Spaced ss ∧ ∀ r ∈ rs, ∀ s ∈ ss, r.2 + 1 < s.1 := by
  constructor
  · intro h
    obtain ⟨left, right, between⟩ := List.pairwise_append.mp h.apart
    exact ⟨⟨fun r mem => h.ordered r (List.mem_append_left _ mem), left⟩,
      ⟨fun r mem => h.ordered r (List.mem_append_right _ mem), right⟩, between⟩
  · rintro ⟨left, right, between⟩
    refine ⟨?_, List.pairwise_append.mpr ⟨left.apart, right.apart, between⟩⟩
    intro r mem
    rcases List.mem_append.mp mem with mem | mem
    · exact left.ordered r mem
    · exact right.ordered r mem

theorem spaced_cons_iff :
    Spaced (r :: rs) ↔ r.1 ≤ r.2 ∧ Spaced rs ∧ ∀ s ∈ rs, r.2 + 1 < s.1 := by
  constructor
  · intro h
    obtain ⟨between, rest⟩ := List.pairwise_cons.mp h.apart
    exact ⟨h.ordered r (by simp), ⟨fun s mem => h.ordered s (by simp [mem]), rest⟩, between⟩
  · rintro ⟨here, rest, between⟩
    refine ⟨?_, List.pairwise_cons.mpr ⟨between, rest.apart⟩⟩
    intro s mem
    rcases List.mem_cons.mp mem with rfl | mem
    · exact here
    · exact rest.ordered s mem

/-- The ranges that begin at or before `m`, and the others. -/
theorem exists_split (h : Spaced rs) (m : Nat) :
    ∃ pre post, rs = pre ++ post ∧ (∀ r ∈ pre, r.1 ≤ m) ∧ ∀ r ∈ post, m < r.1 := by
  induction rs with
  | nil => exact ⟨[], [], rfl, by simp, by simp⟩
  | cons r rs ih =>
      obtain ⟨here, rest, between⟩ := spaced_cons_iff.mp h
      by_cases low : r.1 ≤ m
      · obtain ⟨pre, post, rfl, below, above⟩ := ih rest
        refine ⟨r :: pre, post, rfl, ?_, above⟩
        intro s mem
        rcases List.mem_cons.mp mem with rfl | mem
        · exact low
        · exact below s mem
      · refine ⟨[], r :: rs, rfl, by simp, ?_⟩
        intro s mem
        rcases List.mem_cons.mp mem with rfl | mem
        · omega
        · have := between s mem
          omega

end Spacing

end Cone.Lib.Ranges
