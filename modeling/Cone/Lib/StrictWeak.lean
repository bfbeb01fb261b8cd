import Mathlib.Data.Set.Basic
import Mathlib.Order.Basic

/-! # Strict weak orders on a set

What a comparison has to be for `std::sort` and `std::lower_bound`: a strict weak order on the
elements that are compared. -/
set_option autoImplicit false
namespace Cone.Lib.StrictWeak

section Orders
variable {α : Type} {less : α → α → Bool} {S T : Set α}

structure StrictWeakOn (less : α → α → Bool) (S : Set α) : Prop where
  irrefl : ∀ a ∈ S, ¬ less a a
  trans : ∀ a ∈ S, ∀ b ∈ S, ∀ c ∈ S, less a b → less b c → less a c
  ties : ∀ a ∈ S, ∀ b ∈ S, ∀ c ∈ S,
    ¬ less a b → ¬ less b a → ¬ less b c → ¬ less c b → ¬ less a c

theorem StrictWeakOn.asymm (order : StrictWeakOn less S) {a b : α} (ha : a ∈ S) (hb : b ∈ S)
    (h : less a b) : ¬ less b a :=
  fun h' => order.irrefl a ha (order.trans a ha b hb a ha h h')

/-- What lies between two elements is above the one or below the other. -/
theorem StrictWeakOn.between (order : StrictWeakOn less S) {a b c : α} (ha : a ∈ S) (hb : b ∈ S)
    (hc : c ∈ S) (h : less a c) : less a b ∨ less b c := by
  by_contra hno
  obtain ⟨hab, hbc⟩ := not_or.1 hno
  by_cases hba : less b a
  · exact hbc (order.trans b hb a ha c hc hba h)
  · by_cases hcb : less c b
    · exact hab (order.trans a ha c hc b hb h hcb)
    · exact order.ties a ha b hb c hc hab hba hbc hcb h

theorem StrictWeakOn.mono (order : StrictWeakOn less T) (h : S ⊆ T) : StrictWeakOn less S where
  irrefl a ha := order.irrefl a (h ha)
  trans a ha b hb c hc := order.trans a (h ha) b (h hb) c (h hc)
  ties a ha b hb c hc := order.ties a (h ha) b (h hb) c (h hc)

theorem StrictWeakOn.swap (order : StrictWeakOn less S) :
    StrictWeakOn (fun a b => less b a) S where
  irrefl := order.irrefl
  trans a ha b hb c hc hab hbc := order.trans c hc b hb a ha hbc hab
  ties a ha b hb c hc hab hba hbc hcb := order.ties c hc b hb a ha hbc hcb hab hba

theorem strictWeakOn_swap : StrictWeakOn (fun a b => less b a) S ↔ StrictWeakOn less S :=
  ⟨fun order => order.swap, fun order => order.swap⟩

theorem StrictWeakOn.congr {less' : α → α → Bool} (order : StrictWeakOn less S)
    (same : ∀ a ∈ S, ∀ b ∈ S, less' a b = less a b) : StrictWeakOn less' S where
  irrefl a ha := by
    rw [same a ha a ha]
    exact order.irrefl a ha
  trans a ha b hb c hc := by
    rw [same a ha b hb, same b hb c hc, same a ha c hc]
    exact order.trans a ha b hb c hc
  ties a ha b hb c hc := by
    rw [same a ha b hb, same b hb a ha, same b hb c hc, same c hc b hb, same a ha c hc]
    exact order.ties a ha b hb c hc

end Orders

section Keys
variable {α K : Type} [LinearOrder K] {less : α → α → Bool} {S : Set α} {key : α → K}

def byKey (key : α → K) (less : α → α → Bool) (a b : α) : Bool :=
  if key a = key b then less a b else decide (key a < key b)

theorem byKey_of_eq {a b : α} (h : key a = key b) : byKey key less a b = less a b := if_pos h

theorem byKey_of_ne {a b : α} (h : key a ≠ key b) : byKey key less a b ↔ key a < key b := by
  rw [byKey, if_neg h, decide_eq_true_iff]

theorem le_of_byKey {a b : α} (h : byKey key less a b) : key a ≤ key b := by
  by_cases he : key a = key b
  · exact he.le
  · exact ((byKey_of_ne he).1 h).le

theorem eq_of_not_byKey {a b : α} (h : ¬ byKey key less a b) (h' : ¬ byKey key less b a) :
    key a = key b := by
  by_contra he
  rcases lt_or_gt_of_ne he with lt | gt
  · exact h ((byKey_of_ne he).2 lt)
  · exact h' ((byKey_of_ne (Ne.symm he)).2 gt)

/-- The second comparison only has to be an order among elements with the same key. -/
theorem strictWeakOn_byKey :
    StrictWeakOn (byKey key less) S ↔ ∀ k, StrictWeakOn less {a | a ∈ S ∧ key a = k} := by
  constructor
  · intro order k
    refine (order.mono fun a ha => ha.1).congr ?_
    intro a ha b hb
    exact (byKey_of_eq (ha.2.trans hb.2.symm)).symm
  · intro order
    refine ⟨?_, ?_, ?_⟩
    · intro a ha
      rw [byKey_of_eq rfl]
      exact (order (key a)).irrefl a ⟨ha, rfl⟩
    · intro a ha b hb c hc hab hbc
      have hle := le_of_byKey hab
      have hle' := le_of_byKey hbc
      by_cases he : key a = key c
      · have hba : key b = key a := le_antisymm (he ▸ hle') hle
        rw [byKey_of_eq hba.symm] at hab
        rw [byKey_of_eq (hba.trans he)] at hbc
        rw [byKey_of_eq he]
        exact (order (key a)).trans a ⟨ha, rfl⟩ b ⟨hb, hba⟩ c ⟨hc, he.symm⟩ hab hbc
      · exact (byKey_of_ne he).2 (lt_of_le_of_ne (hle.trans hle') he)
    · intro a ha b hb c hc hab hba hbc hcb
      have heq := eq_of_not_byKey hab hba
      have heq' := eq_of_not_byKey hbc hcb
      rw [byKey_of_eq heq] at hab
      rw [byKey_of_eq heq.symm] at hba
      rw [byKey_of_eq heq'] at hbc
      rw [byKey_of_eq heq'.symm] at hcb
      rw [byKey_of_eq (heq.trans heq')]
      exact (order (key b)).ties a ⟨ha, heq⟩ b ⟨hb, rfl⟩ c ⟨hc, heq'.symm⟩ hab hba hbc hcb

end Keys

section Inserting
variable {α : Type} {less : α → α → Bool} {S : Set α} {l : List α}

/-- How `std::sort` leaves the elements: no later one is less than an earlier one. -/
def InOrder (less : α → α → Bool) (l : List α) : Prop := l.Pairwise fun a b => ¬ less b a

theorem InOrder.congr {less' : α → α → Bool} (h : InOrder less l)
    (same : ∀ a ∈ l, ∀ b ∈ l, less' a b = less a b) : InOrder less' l :=
  h.imp_of_mem fun {a b} ha hb hlt => by
    rw [same b hb a ha]
    exact hlt

theorem InOrder.less_first (h : InOrder less l) (order : StrictWeakOn less S) (hl : ∀ a ∈ l, a ∈ S)
    {n : α} (hn : n ∈ S) {i j : Nat} (hi : i < l.length) (hj : j < l.length) (hij : i ≤ j)
    (hless : less l[j] n) : less l[i] n := by
  rcases Nat.eq_or_lt_of_le hij with rfl | hlt
  · exact hless
  · have hnot := List.pairwise_iff_getElem.1 h i j hi hj hlt
    exact (order.between (hl _ (List.getElem_mem hj)) (hl _ (List.getElem_mem _)) hn
      hless).resolve_left hnot

theorem insertIdx_eq_append {p : Nat} (hp : p ≤ l.length) (n : α) :
    l.insertIdx p n = l.take p ++ n :: l.drop p := by
  induction l generalizing p with
  | nil =>
      obtain rfl : p = 0 := Nat.le_zero.1 hp
      rfl
  | cons a l ih =>
      cases p with
      | zero => rfl
      | succ p =>
          rw [List.insertIdx_succ_cons, ih (Nat.le_of_succ_le_succ hp)]
          rfl

theorem InOrder.insertIdx (h : InOrder less l) (order : StrictWeakOn less S) (hl : ∀ a ∈ l, a ∈ S)
    {n : α} (hn : n ∈ S) {p : Nat} (hp : p ≤ l.length)
    (before : ∀ i (hi : i < l.length), i < p → less l[i] n)
    (behind : ∀ i (hi : i < l.length), p ≤ i → ¬ less l[i] n) :
    InOrder less (l.insertIdx p n) := by
  rw [insertIdx_eq_append hp, InOrder, List.pairwise_append, List.pairwise_cons]
  refine ⟨h.take, ⟨?_, h.drop⟩, ?_⟩
  · intro b mem
    obtain ⟨i, hi, rfl⟩ := List.mem_drop_iff_getElem.1 mem
    exact behind _ _ (by omega)
  · intro a mem b mem'
    obtain ⟨i, hi, rfl⟩ := List.mem_take_iff_getElem.1 mem
    have hless := before i (by omega) (by omega)
    rcases List.mem_cons.1 mem' with rfl | mem'
    · exact order.asymm (hl _ (List.getElem_mem _)) hn hless
    · obtain ⟨j, hj, rfl⟩ := List.mem_drop_iff_getElem.1 mem'
      exact List.pairwise_iff_getElem.1 h i (p + j) (by omega) (by omega) (by omega)

end Inserting
end Cone.Lib.StrictWeak
