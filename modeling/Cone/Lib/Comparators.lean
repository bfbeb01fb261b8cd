import Mathlib.Data.List.Basic

/-! # Comparators

A function that compares two elements with a negative number, zero or a positive number, and what a
sort by it gives. -/
set_option autoImplicit false
namespace Cone.Lib.Comparators

section Orders
variable {α : Type} {cmp : α → α → Int} {l l' : List α}

structure StrictWeak (cmp : α → α → Int) (l : List α) : Prop where
  asymm : ∀ a ∈ l, ∀ b ∈ l, cmp a b < 0 ↔ 0 < cmp b a
  trans : ∀ a ∈ l, ∀ b ∈ l, ∀ c ∈ l, cmp a b < 0 → cmp b c < 0 → cmp a c < 0
  ties : ∀ a ∈ l, ∀ b ∈ l, ∀ c ∈ l, cmp a b = 0 → cmp b c = 0 → cmp a c = 0

/-- Where the signs agree, "not above" need only be transitive. -/
theorem strictWeak_iff (asymm : ∀ a ∈ l, ∀ b ∈ l, cmp a b < 0 ↔ 0 < cmp b a) :
    StrictWeak cmp l ↔
      ∀ a ∈ l, ∀ b ∈ l, ∀ c ∈ l, cmp a b ≤ 0 → cmp b c ≤ 0 → cmp a c ≤ 0 := by
  constructor
  · intro order a ha b hb c hc below below'
    by_contra above
    have swapped := (asymm c hc a ha).mpr (by omega)
    rcases Int.lt_or_eq_of_le below with lt | tie
    · have lt' := order.trans c hc a ha b hb swapped lt
      have := (asymm c hc b hb).mp lt'
      omega
    · rcases Int.lt_or_eq_of_le below' with lt' | tie'
      · have lt := order.trans b hb c hc a ha lt' swapped
        have := (asymm b hb a ha).mp lt
        omega
      · have := order.ties a ha b hb c hc tie tie'
        omega
  · intro trans
    have rev : ∀ a ∈ l, ∀ b ∈ l, cmp a b = 0 → cmp b a ≤ 0 := by
      intro a ha b hb tie
      by_contra above
      have := (asymm a ha b hb).mpr (by omega)
      omega
    refine ⟨asymm, ?_, ?_⟩
    · intro a ha b hb c hc lt lt'
      have below := trans a ha b hb c hc (by omega) (by omega)
      rcases Int.lt_or_eq_of_le below with lt'' | tie
      · exact lt''
      · have back := trans c hc a ha b hb (rev a ha c hc tie) (by omega)
        have := (asymm b hb c hc).mp lt'
        omega
    · intro a ha b hb c hc tie tie'
      have below := trans a ha b hb c hc (by omega) (by omega)
      have back := trans c hc b hb a ha (rev b hb c hc tie') (rev a ha b hb tie)
      rcases Int.lt_or_eq_of_le below with lt | same
      · have := (asymm a ha c hc).mp lt
        omega
      · exact same

theorem StrictWeak.of_perm (order : StrictWeak cmp l) (perm : l'.Perm l) : StrictWeak cmp l' where
  asymm a ha b hb := order.asymm a (perm.subset ha) b (perm.subset hb)
  trans a ha b hb c hc := order.trans a (perm.subset ha) b (perm.subset hb) c (perm.subset hc)
  ties a ha b hb c hc := order.ties a (perm.subset ha) b (perm.subset hb) c (perm.subset hc)

end Orders

section Sorting
variable {α : Type} {sort : (α → α → Int) → List α → List α} {cmp : α → α → Int} {l l' : List α}

structure Sorts (sort : (α → α → Int) → List α → List α) : Prop where
  perm : ∀ cmp l, StrictWeak cmp l → (sort cmp l).Perm l
  sorted : ∀ cmp l, StrictWeak cmp l → (sort cmp l).Pairwise fun a b => cmp a b ≤ 0

theorem Sorts.eq_of_perm (sorts : Sorts sort) (order : StrictWeak cmp l)
    (distinct : ∀ a ∈ l, ∀ b ∈ l, cmp a b = 0 → a = b) (perm : l'.Perm l) :
    sort cmp l' = sort cmp l := by
  have order' := order.of_perm perm
  have perm' : (sort cmp l').Perm l := (sorts.perm cmp l' order').trans perm
  refine List.Perm.eq_of_pairwise ?_ (sorts.sorted cmp l' order') (sorts.sorted cmp l order)
    (perm'.trans (sorts.perm cmp l order).symm)
  intro a b mem mem' below above
  have ha := perm'.subset mem
  have hb := (sorts.perm cmp l order).subset mem'
  refine distinct a ha b hb ?_
  rcases Int.lt_or_eq_of_le below with lt | tie
  · have := (order.asymm a ha b hb).mp lt
    omega
  · exact tie

def mergeSort (cmp : α → α → Int) (l : List α) : List α :=
  l.mergeSort fun a b => decide (cmp a b ≤ 0)

theorem sorts_mergeSort : Sorts (@mergeSort α) where
  perm cmp l _ := List.mergeSort_perm l _
  sorted cmp l order := by
    let le : {a // a ∈ l} → {a // a ∈ l} → Bool := fun a b => decide (cmp a.1 b.1 ≤ 0)
    have below := (strictWeak_iff order.asymm).mp order
    have trans : ∀ a b c, le a b = true → le b c = true → le a c = true := by
      intro a b c ab bc
      exact decide_eq_true (below a.1 a.2 b.1 b.2 c.1 c.2 (of_decide_eq_true ab)
        (of_decide_eq_true bc))
    have total : ∀ a b, (le a b || le b a) = true := by
      intro a b
      have signs := order.asymm b.1 b.2 a.1 a.2
      by_cases above : 0 < cmp a.1 b.1
      · have lt := signs.mpr above
        exact Bool.or_eq_true_iff.mpr (Or.inr (decide_eq_true (by omega)))
      · exact Bool.or_eq_true_iff.mpr (Or.inl (decide_eq_true (by omega)))
    -- the order is one of the elements, so they are sorted as a type
    have same : mergeSort cmp l = (l.attach.mergeSort le).map Subtype.val := by
      rw [@List.map_mergeSort _ _ le (fun a b => decide (cmp a b ≤ 0)) Subtype.val l.attach
        fun _ _ _ _ => rfl, List.attach_map_subtype_val]
      rfl
    rw [same, List.pairwise_map]
    refine (List.pairwise_mergeSort trans total l.attach).imp fun {a b} le' => ?_
    exact of_decide_eq_true le'

end Sorting

end Cone.Lib.Comparators
