import Mathlib.Data.Nat.Count
import Mathlib.Data.List.Basic

/-! # Renumbering after a removal

Positions in a list from which ranges of positions are removed: a position that is left moves down
by the number of the removed ones in front of it. -/
set_option autoImplicit false
namespace Cone.Lib.Renumber

abbrev Range := Nat × Nat

def Gone (rs : List Range) (p : Nat) : Prop := ∃ r ∈ rs, r.1 ≤ p ∧ p ≤ r.2

instance (rs : List Range) (p : Nat) : Decidable (Gone rs p) :=
  inferInstanceAs (Decidable (∃ r ∈ rs, r.1 ≤ p ∧ p ≤ r.2))

/-- Where a position that is left moves to: the number of those left in front of it. -/
def place (rs : List Range) (p : Nat) : Nat := Nat.count (fun q => ¬ Gone rs q) p

structure Ascending (rs : List Range) : Prop where
  ordered : ∀ r ∈ rs, r.1 ≤ r.2
  disjoint : rs.Pairwise fun r s => r.2 < s.1

section Gone
variable {r : Range} {rs : List Range} {p q : Nat}

@[simp] theorem not_gone_nil : ¬ Gone [] p := by
  rintro ⟨r, hr, -⟩
  cases hr

theorem gone_cons : Gone (r :: rs) p ↔ (r.1 ≤ p ∧ p ≤ r.2) ∨ Gone rs p := by
  simp [Gone]

theorem gone_singleton : Gone [r] p ↔ r.1 ≤ p ∧ p ≤ r.2 := by
  simp [Gone]

theorem Ascending.tail (h : Ascending (r :: rs)) : Ascending rs :=
  ⟨fun s hs => h.ordered s (List.mem_cons_of_mem r hs), (List.pairwise_cons.mp h.disjoint).2⟩

theorem Ascending.head_lt (h : Ascending (r :: rs)) {s : Range} (hs : s ∈ rs) : r.2 < s.1 :=
  (List.pairwise_cons.mp h.disjoint).1 s hs

theorem Ascending.not_gone (h : Ascending (r :: rs)) (hp : p ≤ r.2) : ¬ Gone rs p := by
  rintro ⟨s, hs, hlow, -⟩
  have hlt := h.head_lt hs
  omega

end Gone

section Place
variable {r : Range} {rs : List Range} {p q : Nat}

theorem place_succ : place rs (p + 1) = place rs p + if Gone rs p then 0 else 1 := by
  rw [place, place, Nat.count_succ]
  by_cases h : Gone rs p
  · rw [if_neg (not_not.mpr h), if_pos h]
  · rw [if_pos h, if_neg h]

@[simp] theorem place_zero : place rs 0 = 0 := Nat.count_zero _

@[simp] theorem place_nil : place [] p = p := by
  induction p with
  | zero => rfl
  | succ p ih => rw [place_succ, ih, if_neg not_gone_nil]

theorem place_mono (h : p ≤ q) : place rs p ≤ place rs q := Nat.count_monotone _ h

theorem place_lt_place (h : p < q) (hp : ¬ Gone rs p) : place rs p < place rs q :=
  Nat.count_strict_mono hp h

/-- A position that is left stays on its side of any other. -/
theorem place_lt_place_iff (hp : ¬ Gone rs p) : place rs p < place rs q ↔ p < q := by
  constructor
  · intro h
    exact Nat.lt_of_not_le fun hqp => absurd (place_mono hqp) (Nat.not_le_of_lt h)
  · intro h
    exact place_lt_place h hp

theorem place_le_place_iff (hp : ¬ Gone rs p) : place rs q ≤ place rs p ↔ q ≤ p := by
  have h := place_lt_place_iff (q := q) hp
  omega

/-- One range: what is behind it moves down by its length. -/
theorem place_singleton (h : r.1 ≤ r.2) :
    place [r] p = if p ≤ r.1 then p else if p ≤ r.2 then r.1 else p - (r.2 - r.1 + 1) := by
  induction p with
  | zero => simp
  | succ p ih =>
      rw [place_succ, ih]
      by_cases hgone : r.1 ≤ p ∧ p ≤ r.2
      · rw [if_pos (gone_singleton.mpr hgone)]
        grind
      · rw [if_neg (fun hg => hgone (gone_singleton.mp hg))]
        grind

/-- The lowest range is removed last. -/
theorem place_cons (h : Ascending (r :: rs)) : place (r :: rs) p = place [r] (place rs p) := by
  have hlow : ∀ q, q ≤ r.2 + 1 → place rs q = q := by
    intro q hq
    induction q with
    | zero => rw [place_zero]
    | succ q ih => rw [place_succ, ih (by omega), if_neg (h.not_gone (by omega))]
  induction p with
  | zero => simp
  | succ p ih =>
      rw [place_succ, place_succ, ih]
      by_cases hgone : Gone rs p
      · rw [if_pos (gone_cons.mpr (Or.inr hgone)), if_pos hgone, Nat.add_zero, Nat.add_zero]
      · rw [if_neg hgone, place_succ]
        have hsame : Gone (r :: rs) p ↔ Gone [r] (place rs p) := by
          rw [gone_cons, gone_singleton]
          by_cases hp : p ≤ r.2
          · rw [hlow p (by omega)]
            simp [hgone]
          · have hmono : place rs (r.2 + 1) ≤ place rs p := place_mono (by omega)
            rw [hlow _ (Nat.le_refl _)] at hmono
            simp only [hgone, or_false]
            omega
        by_cases hg : Gone (r :: rs) p
        · rw [if_pos hg, if_pos (hsame.mp hg)]
        · rw [if_neg hg, if_neg (hsame.not.mp hg)]

/-- What the lowest range removes of the positions that the others left. -/
theorem gone_cons_iff (h : Ascending (r :: rs)) :
    Gone (r :: rs) p ↔ Gone rs p ∨ Gone [r] (place rs p) := by
  by_cases hgone : Gone rs p
  · simp [gone_cons, hgone]
  · have hstep := place_cons (p := p + 1) h
    rw [place_succ, place_succ, if_neg hgone, place_succ, place_cons h] at hstep
    by_cases hg : Gone [r] (place rs p)
    · rw [if_pos hg] at hstep
      by_cases hc : Gone (r :: rs) p
      · simp [hc, hg]
      · rw [if_neg hc] at hstep
        omega
    · rw [if_neg hg] at hstep
      by_cases hc : Gone (r :: rs) p
      · rw [if_pos hc] at hstep
        omega
      · simp [hc, hg, hgone]

/-- Every position of the shorter list is one that is left. -/
theorem exists_place (n : Nat) (h : p < place rs n) : ∃ q < n, ¬ Gone rs q ∧ place rs q = p := by
  induction n with
  | zero => simp at h
  | succ n ih =>
      rw [place_succ] at h
      by_cases hn : Gone rs n
      · rw [if_pos hn] at h
        obtain ⟨q, hq, hleft, heq⟩ := ih h
        exact ⟨q, by omega, hleft, heq⟩
      · rw [if_neg hn] at h
        by_cases hp : p < place rs n
        · obtain ⟨q, hq, hleft, heq⟩ := ih hp
          exact ⟨q, by omega, hleft, heq⟩
        · exact ⟨n, by omega, hn, by omega⟩

end Place

section Cut
variable {A : Type} {r : Range} {l : List A} {p : Nat}

def cut (r : Range) (l : List A) : List A := l.take r.1 ++ l.drop (r.2 + 1)

theorem length_cut (h : r.1 ≤ r.2) (hr : r.2 < l.length) : (cut r l).length = place [r] l.length := by
  rw [place_singleton h, cut, List.length_append, List.length_take, List.length_drop,
    if_neg (by omega), if_neg (by omega)]
  omega

theorem getElem?_cut (h : r.1 ≤ r.2) (hr : r.2 < l.length) (hp : ¬ Gone [r] p) :
    (cut r l)[place [r] p]? = l[p]? := by
  rw [gone_singleton] at hp
  rw [place_singleton h, cut]
  by_cases hlow : p ≤ r.1
  · have hlt : p < r.1 := by omega
    rw [if_pos hlow, List.getElem?_append_left (by rw [List.length_take]; omega),
      List.getElem?_take_of_lt hlt]
  · rw [if_neg hlow, if_neg (by omega), List.getElem?_append_right (by rw [List.length_take]; omega),
      List.getElem?_drop, List.length_take]
    congr 1
    omega

end Cut
end Cone.Lib.Renumber
