import Mathlib.Logic.Relation
import Mathlib.Order.WellFounded
import Cone.Lib.LinkedList

/-! # Forests of nodes with sibling pointers

Every node points to its parent, its first and last child and its neighbours among the children of
its parent.  `Linked` ties the pointers to the lists of children that they stand for.  A node that
is taken out of its list keeps its old sibling pointers, so nothing is said about those. -/
set_option autoImplicit false
namespace Cone.Lib.SiblingForest

open Cone.Lib.LinkedList
open Function (update)

structure Links (P : Type) where
  parent : P → Option P
  firstchild : P → Option P
  lastchild : P → Option P
  prevsib : P → Option P
  nextsib : P → Option P

section Pointers
variable {P : Type} [DecidableEq P]

/-- `m` becomes the last child of `p`. -/
def Links.append (h : Links P) (m p : P) : Links P :=
  let h := { h with parent := update h.parent m (some p) }
  let h := { h with prevsib := update h.prevsib m (h.lastchild p) }
  let h :=
    match h.prevsib m with
    | some q => { h with nextsib := update h.nextsib q (some m) }
    | none => { h with firstchild := update h.firstchild p (some m) }
  { h with lastchild := update h.lastchild p (some m), nextsib := update h.nextsib m none }

/-- `m` is taken out of the children of its parent. -/
def Links.remove (h : Links P) (m : P) : Links P :=
  match h.parent m with
  | none => h
  | some p =>
    let h :=
      match h.prevsib m with
      | some q => { h with nextsib := update h.nextsib q (h.nextsib m) }
      | none => { h with firstchild := update h.firstchild p (h.nextsib m) }
    let h :=
      match h.nextsib m with
      | some q => { h with prevsib := update h.prevsib q (h.prevsib m) }
      | none => { h with lastchild := update h.lastchild p (h.prevsib m) }
    { h with parent := update h.parent m none }

/-- The two sibling pointers. -/
def Links.sibs (h : Links P) (m : P) : Option (Option P × Option P) :=
  some (h.nextsib m, h.prevsib m)

/-- The pointers stand for these lists of children. -/
structure Linked (h : Links P) (kids : P → List P) : Prop where
  nodup : ∀ p, (kids p).Nodup
  parent : ∀ m p, m ∈ kids p ↔ h.parent m = some p
  first : ∀ p, h.firstchild p = (kids p).head?
  last : ∀ p, h.lastchild p = (kids p).getLast?
  chain : ∀ p, Seg h.sibs none none (kids p)

variable {h : Links P} {kids : P → List P} {m p q : P}

/-- The pointers to the first and the last child. -/
def Links.ends (h : Links P) (p : P) : Option (Option P × Option P) :=
  some (h.firstchild p, h.lastchild p)

omit [DecidableEq P] in
/-- The parents are the owners of the lists. -/
theorem linked_iff : Linked h kids ↔ Lists h.sibs h.ends h.parent kids := by
  constructor
  · intro hl
    refine ⟨hl.chain, fun p r hr => ?_, fun p m => hl.parent m p, hl.nodup, fun _ _ => rfl⟩
    rw [← Option.some.inj hr, hl.first, hl.last]
  · intro hl
    refine ⟨hl.nodup, fun m p => hl.mem p m, fun p => ?_, fun p => ?_, hl.linked⟩
    · exact congrArg Prod.fst (hl.ends_eq p _ rfl)
    · exact congrArg Prod.snd (hl.ends_eq p _ rfl)

@[simp] theorem parent_append (h : Links P) (m p : P) :
    (h.append m p).parent = update h.parent m (some p) := by
  rw [Links.append]
  dsimp only
  split
  · rfl
  · rfl

@[simp] theorem parent_remove (h : Links P) (m : P) :
    (h.remove m).parent = update h.parent m none := by
  rw [Links.remove]
  split
  · rename_i hm
    rw [← hm, Function.update_eq_self]
  · dsimp only
    split
    · split
      · rfl
      · rfl
    · split
      · rfl
      · rfl

/-! ## A node is appended -/

theorem sibs_append (h : Links P) (m p : P) :
    (h.append m p).sibs = splice h.sibs (h.lastchild p) none m := by
  funext q
  rw [Links.sibs, Links.append, splice]
  dsimp only
  rw [Function.update_self]
  cases hlast : h.lastchild p with
  | none =>
      dsimp only
      by_cases hq : q = m
      · rw [if_pos hq, hq, Function.update_self, Function.update_self]
      · rw [if_neg hq, if_neg (by intro no; cases no), if_neg (by intro no; cases no),
          Function.update_of_ne hq, Function.update_of_ne hq]
        rfl
  | some r =>
      dsimp only
      by_cases hq : q = m
      · rw [if_pos hq, hq, Function.update_self, Function.update_self]
      · rw [if_neg hq, Function.update_of_ne hq, Function.update_of_ne hq]
        by_cases hr : q = r
        · rw [if_pos (congrArg some hr.symm), hr, Function.update_self]
          rfl
        · rw [if_neg fun heq => hr (Option.some.inj heq).symm, if_neg (by intro no; cases no),
            Function.update_of_ne hr]
          rfl

theorem ends_append (h : Links P) (m p : P) :
    (h.append m p).ends = modify h.ends p (spliceEnds (h.lastchild p) none m) := by
  funext q
  rw [Links.ends, Links.append]
  dsimp only
  rw [Function.update_self]
  by_cases hq : q = p
  · rw [hq, modify_self, Links.ends]
    cases h.lastchild p with
    | none => simp [spliceEnds]
    | some r => simp [spliceEnds]
  · rw [modify_ne h.ends hq, Links.ends]
    cases h.lastchild p with
    | none => simp [hq]
    | some r => simp [hq]

theorem firstchild_append_of_ne (h : Links P) (m : P) (hq : q ≠ p) :
    (h.append m p).firstchild q = h.firstchild q := by
  have hends := congrFun (ends_append h m p) q
  rw [modify_ne h.ends hq] at hends
  exact congrArg Prod.fst (Option.some.inj hends)

theorem Linked.append (hl : Linked h kids) (hm : h.parent m = none) :
    Linked (h.append m p) (update kids p (kids p ++ [m])) := by
  have hlists := (linked_iff.mp hl).insert (o := p) (List.append_nil _).symm hm rfl
  rwa [store_eq_update, ← hl.last p, List.head?_nil, ← sibs_append, ← ends_append,
    ← parent_append, ← linked_iff] at hlists

/-! ## A node is taken out -/

theorem sibs_setNext (h : Links P) (q : P) (v : Option P) :
    Links.sibs { h with nextsib := update h.nextsib q v } = modify h.sibs q fun r => (v, r.2) := by
  funext x
  by_cases hx : x = q
  · simp [hx, modify_self, Links.sibs]
  · simp [hx, modify_ne, Links.sibs]

theorem sibs_setPrev (h : Links P) (q : P) (v : Option P) :
    Links.sibs { h with prevsib := update h.prevsib q v } = modify h.sibs q fun r => (r.1, v) := by
  funext x
  by_cases hx : x = q
  · simp [hx, modify_self, Links.sibs]
  · simp [hx, modify_ne, Links.sibs]

theorem sibs_remove (hm : h.parent m = some p) (hne : ∀ q, h.prevsib m = some q → q ≠ m)
    (hboth : ∀ q, h.prevsib m = some q → h.nextsib m ≠ some q) :
    (h.remove m).sibs = cut h.sibs (h.prevsib m) (h.nextsib m) := by
  rw [Links.remove, hm, ← modifyAt_eq_cut' hboth]
  dsimp only
  cases hprev : h.prevsib m with
  | none =>
      dsimp only
      cases hnext : h.nextsib m with
      | none => rfl
      | some s =>
          dsimp only
          rw [hprev]
          exact sibs_setPrev h s none
  | some r =>
      have hr : m ≠ r := (hne r hprev).symm
      dsimp only
      rw [Function.update_of_ne hr]
      cases hnext : h.nextsib m with
      | none => exact sibs_setNext h r none
      | some s =>
          dsimp only
          rw [hprev]
          exact (sibs_setPrev _ s (some r)).trans (congrArg (modify · s _) (sibs_setNext h r _))

theorem ends_remove (hm : h.parent m = some p) (hne : ∀ q, h.prevsib m = some q → q ≠ m) :
    (h.remove m).ends = modify h.ends p (cutEnds (h.prevsib m) (h.nextsib m)) := by
  funext r
  rw [Links.ends, Links.remove, hm]
  dsimp only
  by_cases hr : r = p
  · rw [hr, modify_self, Links.ends]
    cases hprev : h.prevsib m with
    | none =>
        dsimp only
        cases hnext : h.nextsib m with
        | none => simp [cutEnds, hprev]
        | some s => simp [cutEnds]
    | some q =>
        have hq : m ≠ q := (hne q hprev).symm
        dsimp only
        rw [Function.update_of_ne hq]
        cases hnext : h.nextsib m with
        | none => simp [cutEnds, hprev]
        | some s => simp [cutEnds]
  · rw [modify_ne h.ends hr, Links.ends]
    cases hprev : h.prevsib m with
    | none =>
        dsimp only
        cases hnext : h.nextsib m with
        | none => simp [hr]
        | some s => simp [hr]
    | some q =>
        have hq : m ≠ q := (hne q hprev).symm
        dsimp only
        rw [Function.update_of_ne hq]
        cases hnext : h.nextsib m with
        | none => simp [hr]
        | some s => simp

omit [DecidableEq P] in
/-- The neighbours of a child. -/
theorem Linked.neighbours (hl : Linked h kids) {l t : List P} (hkids : kids p = l ++ m :: t) :
    h.prevsib m = l.getLast? ∧ h.nextsib m = t.head? := by
  have hseg := hl.chain p
  rw [hkids] at hseg
  have hmid := hseg.links_mid
  rw [Option.or_none, Option.or_none] at hmid
  have hpair := Option.some.inj hmid
  exact ⟨congrArg Prod.snd hpair, congrArg Prod.fst hpair⟩

theorem Linked.remove (hl : Linked h kids) (hm : h.parent m = some p) :
    Linked (h.remove m) (update kids p ((kids p).erase m)) := by
  obtain ⟨l, t, hkids⟩ := List.append_of_mem ((hl.parent m p).mpr hm)
  obtain ⟨hprev, hnext⟩ := hl.neighbours hkids
  have hnodup := hl.nodup p
  rw [hkids] at hnodup
  have hml : m ∉ l := fun hin =>
    (List.nodup_append.mp hnodup).2.2 m hin m List.mem_cons_self rfl
  have herase : (kids p).erase m = l ++ t := by
    rw [hkids, List.erase_append_right _ hml, List.erase_cons_head]
  have hne : ∀ q, h.prevsib m = some q → q ≠ m := by
    intro q hq heq
    rw [hprev, heq] at hq
    exact hml (List.mem_of_getLast? hq)
  have hboth : ∀ q, h.prevsib m = some q → h.nextsib m ≠ some q := by
    intro q hq
    rw [hprev] at hq
    rw [hnext]
    exact ends_disjoint (hnodup.sublist (by simp)) hq
  have hlists := (linked_iff.mp hl).remove hkids
  rw [← hprev, ← hnext, ← ends_remove hm hne, ← sibs_remove hm hne hboth, ← herase,
    free_eq_update h.parent, ← parent_remove] at hlists
  -- the node that is taken out keeps its own pointers
  refine linked_iff.mpr (hlists.congr fun x hx => (free_ne _ ?_).symm)
  rintro rfl
  exact hx (by simp)

/-! ## No node is above itself -/

/-- `p` is the parent of `m`. -/
def Links.Up (h : Links P) (p m : P) : Prop := h.parent m = some p

theorem wellFounded_remove (hwf : WellFounded h.Up) (m : P) : WellFounded (h.remove m).Up := by
  refine Subrelation.wf (fun {p x} hup => ?_) hwf
  rw [Links.Up, parent_remove] at hup
  by_cases hx : x = m
  · rw [hx, Function.update_self] at hup
    cases hup
  · rwa [Function.update_of_ne hx] at hup

/-- A node may go below one that it is not above. -/
theorem wellFounded_append (hwf : WellFounded h.Up) (hp : ¬ Relation.ReflTransGen h.Up m p) :
    WellFounded (h.append m p).Up := by
  have same : ∀ x, x ≠ m → ∀ y, (h.append m p).Up y x → h.Up y x := by
    intro x hx y hup
    rwa [Links.Up, parent_append, Function.update_of_ne hx] at hup
  have apart : ∀ x, ¬ Relation.ReflTransGen h.Up m x → Acc (h.append m p).Up x := by
    intro x
    induction x using hwf.induction with
    | _ x ih =>
        intro hx
        have hne : x ≠ m := fun heq => hx (heq ▸ Relation.ReflTransGen.refl)
        exact ⟨x, fun y hup => ih y (same x hne y hup) fun hy => hx (hy.tail (same x hne y hup))⟩
  refine ⟨fun x => ?_⟩
  induction x using hwf.induction with
  | _ x ih =>
      refine ⟨x, fun y hup => ?_⟩
      by_cases hx : x = m
      · rw [hx, Links.Up, parent_append, Function.update_self] at hup
        exact Option.some.inj hup ▸ apart p hp
      · exact ih y (same x hx y hup)

end Pointers
end Cone.Lib.SiblingForest
