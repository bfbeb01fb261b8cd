import Mathlib.Data.List.Basic
import Mathlib.Data.List.Nodup
import Mathlib.Logic.Function.Basic

/-! # Cells and doubly linked lists

A heap gives the cell at a pointer.  `links` gives the two pointers, next and previous, by which
the cells of one list hang together; a cell can be on several lists, with `links` of its own for
each of them. -/
set_option autoImplicit false
namespace Cone.Lib.LinkedList

/-! ## Cells -/

section Heap
variable {P C : Type} [DecidableEq P]

def modify (heap : P → Option C) (p : P) (f : C → C) : P → Option C :=
  fun q => if q = p then (heap q).map f else heap q

def store (heap : P → Option C) (p : P) (c : C) : P → Option C :=
  fun q => if q = p then some c else heap q

def free (heap : P → Option C) (p : P) : P → Option C := fun q => if q = p then none else heap q

theorem modify_self (heap : P → Option C) (p : P) (f : C → C) :
    modify heap p f p = (heap p).map f := if_pos rfl

theorem modify_ne (heap : P → Option C) {p q : P} (h : q ≠ p) (f : C → C) :
    modify heap p f q = heap q := if_neg h

theorem store_self (heap : P → Option C) (p : P) (c : C) : store heap p c p = some c := if_pos rfl

theorem store_ne (heap : P → Option C) {p q : P} (h : q ≠ p) (c : C) :
    store heap p c q = heap q := if_neg h

theorem free_self (heap : P → Option C) (p : P) : free heap p p = none := if_pos rfl

theorem free_ne (heap : P → Option C) {p q : P} (h : q ≠ p) : free heap p q = heap q := if_neg h

theorem store_eq_update (heap : P → Option C) (p : P) (c : C) :
    store heap p c = Function.update heap p (some c) := by
  funext q
  rw [store, Function.update_apply]

theorem free_eq_update (heap : P → Option C) (p : P) :
    free heap p = Function.update heap p none := by
  funext q
  rw [free, Function.update_apply]

theorem map_modify {D : Type} (heap : P → Option C) (p : P) (f : C → C) (g : C → D) (q : P) :
    (modify heap p f q).map g = if q = p then (heap q).map fun c => g (f c) else (heap q).map g := by
  rw [modify]
  split
  · rw [Option.map_map]
    rfl
  · rfl

theorem modify_view {D : Type} (heap : P → Option C) (p : P) {f : C → C} {v : C → D} {g : D → D}
    (hg : ∀ c, v (f c) = g (v c)) :
    (fun q => (modify heap p f q).map v) = modify (fun q => (heap q).map v) p g := by
  funext q
  rw [map_modify, modify, Option.map_map, show (fun c => v (f c)) = g ∘ v from funext hg]

theorem modify_id (heap : P → Option C) (p : P) : modify heap p (fun c => c) = heap := by
  funext q
  simp [modify]

theorem modify_modify (heap : P → Option C) (p : P) (f g : C → C) :
    modify (modify heap p f) p g = modify heap p fun c => g (f c) := by
  funext q
  simp only [modify]
  split
  · exact Option.map_map _ _ _
  · rfl

theorem modify_store (heap : P → Option C) (p : P) (c : C) (f : C → C) :
    modify (store heap p c) p f = store heap p (f c) := by
  funext q
  rw [modify, store, store]
  split
  · rfl
  · rfl

theorem map_store {D : Type} (heap : P → Option C) (p : P) (c : C) (v : C → D) :
    (fun q => (store heap p c q).map v) = store (fun q => (heap q).map v) p (v c) := by
  funext q
  rw [store, store, apply_ite (Option.map v)]
  rfl

theorem map_free {D : Type} (heap : P → Option C) (p : P) (v : C → D) :
    (fun q => (free heap p q).map v) = free (fun q => (heap q).map v) p := by
  funext q
  rw [free, free, apply_ite (Option.map v)]
  rfl

def modifyAt (heap : P → Option C) (o : Option P) (f : C → C) : P → Option C :=
  match o with
  | some p => modify heap p f
  | none => heap

theorem modifyAt_apply (heap : P → Option C) (o : Option P) (f : C → C) (q : P) :
    modifyAt heap o f q = if o = some q then (heap q).map f else heap q := by
  cases o with
  | none => rfl
  | some p => simp only [modifyAt, modify, Option.some.injEq, eq_comm]

/-- What a modification leaves alone can still be read. -/
theorem modify_frame {D : Type} (heap : P → Option C) (p : P) {f : C → C} {g : C → D}
    (hg : ∀ c, g (f c) = g c) (q : P) : (modify heap p f q).map g = (heap q).map g := by
  rw [map_modify, show (fun c => g (f c)) = g from funext hg, ite_self]

theorem modify_isSome (heap : P → Option C) (p : P) (f : C → C) (q : P) :
    (modify heap p f q).isSome = (heap q).isSome := by
  rw [modify]
  split
  · rw [Option.isSome_map]
  · rfl

end Heap

/-! ## Segments of a list -/

section Seg
variable {P : Type}

def Seg (links : P → Option (Option P × Option P)) (before after : Option P) : List P → Prop
  | [] => True
  | x :: l => links x = some (l.head?.or after, before) ∧ Seg links (some x) after l

theorem Seg.congr {links links' : P → Option (Option P × Option P)} {before after : Option P}
    {l : List P} (h : Seg links before after l) (hlinks : ∀ x ∈ l, links' x = links x) :
    Seg links' before after l := by
  induction l generalizing before with
  | nil => trivial
  | cons x l ih =>
      obtain ⟨hx, hl⟩ := h
      exact ⟨(hlinks x List.mem_cons_self).trans hx,
        ih hl fun y hy => hlinks y (List.mem_cons_of_mem _ hy)⟩

theorem seg_append {links : P → Option (Option P × Option P)} {before after : Option P}
    {l m : List P} : Seg links before after (l ++ m) ↔
      Seg links before (m.head?.or after) l ∧ Seg links (l.getLast?.or before) after m := by
  induction l generalizing before with
  | nil => simp [Seg]
  | cons x l ih =>
      rw [List.cons_append, Seg, Seg, ih]
      have hhead : (l ++ m).head?.or after = l.head?.or (m.head?.or after) := by
        cases l <;> simp
      have hlast : (x :: l).getLast?.or before = l.getLast?.or (some x) := by
        rw [List.getLast?_cons]
        cases l.getLast? <;> rfl
      rw [hhead, hlast, and_assoc]

theorem Seg.links_mid {links : P → Option (Option P × Option P)} {before after : Option P}
    {l m : List P} {x : P} (h : Seg links before after (l ++ x :: m)) :
    links x = some (m.head?.or after, l.getLast?.or before) := (seg_append.mp h).2.1

theorem Seg.exists_links {links : P → Option (Option P × Option P)} {before after : Option P}
    {l : List P} (h : Seg links before after l) {x : P} (hx : x ∈ l) : (links x).isSome = true := by
  obtain ⟨a, b, rfl⟩ := List.append_of_mem hx
  rw [h.links_mid]
  rfl

section Change
variable {links links' : P → Option (Option P × Option P)} {before after : Option P}

theorem Seg.setNext (after' : Option P) {l : List P} (h : Seg links before after l) (hnodup : l.Nodup)
    (hlast : ∀ x ∈ l.getLast?, links' x = (links x).map fun p => (after', p.2))
    (hrest : ∀ x ∈ l, x ∉ l.getLast? → links' x = links x) : Seg links' before after' l := by
  induction l generalizing before with
  | nil => trivial
  | cons x l ih =>
      obtain ⟨hx, hl⟩ := h
      obtain ⟨hnotMem, htail⟩ := List.nodup_cons.mp hnodup
      cases l with
      | nil =>
          refine ⟨?_, trivial⟩
          rw [hlast x rfl, hx]
          rfl
      | cons y l =>
          rw [List.getLast?_cons_cons] at hlast hrest
          refine ⟨?_, ih hl htail hlast fun z hz => hrest z (List.mem_cons_of_mem _ hz)⟩
          rw [hrest x List.mem_cons_self fun hmem => hnotMem (List.mem_of_getLast? hmem), hx]
          rfl

/-- The first cell gets another previous pointer. -/
theorem Seg.setPrev (before' : Option P) {l : List P} (h : Seg links before after l)
    (hnodup : l.Nodup) (hhead : ∀ x ∈ l.head?, links' x = (links x).map fun p => (p.1, before'))
    (hrest : ∀ x ∈ l, x ∉ l.head? → links' x = links x) : Seg links' before' after l := by
  cases l with
  | nil => trivial
  | cons x l =>
      obtain ⟨hx, hl⟩ := h
      refine ⟨?_, hl.congr fun y hy => hrest y (List.mem_cons_of_mem _ hy) ?_⟩
      · rw [hhead x rfl, hx]
        rfl
      · intro heq
        rw [List.head?_cons, Option.mem_some_iff] at heq
        exact (List.nodup_cons.mp hnodup).1 (heq ▸ hy)

theorem Seg.insert {l m : List P} {x : P} (h : Seg links before after (l ++ m))
    (hnodup : (l ++ m).Nodup) (hnew : links' x = some (m.head?.or after, l.getLast?.or before))
    (hlast : ∀ y ∈ l.getLast?, links' y = (links y).map fun p => (some x, p.2))
    (hhead : ∀ y ∈ m.head?, links' y = (links y).map fun p => (p.1, some x))
    (hrest : ∀ y ∈ l ++ m, y ∉ l.getLast? → y ∉ m.head? → links' y = links y) :
    Seg links' before after (l ++ x :: m) := by
  obtain ⟨hl, hm⟩ := seg_append.mp h
  obtain ⟨hnodupl, hnodupm, hdisjoint⟩ := List.nodup_append.mp hnodup
  refine seg_append.mpr ⟨?_, hnew, ?_⟩
  · refine hl.setNext _ hnodupl hlast fun y hy hne => hrest y (List.mem_append_left _ hy) hne ?_
    exact fun hmem => hdisjoint y hy y (List.mem_of_mem_head? hmem) rfl
  · refine hm.setPrev _ hnodupm hhead fun y hy hne => hrest y (List.mem_append_right _ hy) ?_ hne
    exact fun hmem => hdisjoint y (List.mem_of_getLast? hmem) y hy rfl

/-- The cell `x` is taken out. -/
theorem Seg.remove {l m : List P} {x : P} (h : Seg links before after (l ++ x :: m))
    (hnodup : (l ++ x :: m).Nodup)
    (hlast : ∀ y ∈ l.getLast?, links' y = (links y).map fun p => (m.head?.or after, p.2))
    (hhead : ∀ y ∈ m.head?, links' y = (links y).map fun p => (p.1, l.getLast?.or before))
    (hrest : ∀ y ∈ l ++ m, y ∉ l.getLast? → y ∉ m.head? → links' y = links y) :
    Seg links' before after (l ++ m) := by
  obtain ⟨hl, -, hm⟩ := seg_append.mp h
  obtain ⟨hnodupl, hnodupm, hdisjoint⟩ := List.nodup_append.mp hnodup
  refine seg_append.mpr ⟨?_, ?_⟩
  · refine hl.setNext _ hnodupl hlast fun y hy hne => hrest y (List.mem_append_left _ hy) hne ?_
    exact fun hmem => hdisjoint y hy y (List.mem_cons_of_mem _ (List.mem_of_mem_head? hmem)) rfl
  · refine hm.setPrev _ (List.nodup_cons.mp hnodupm).2 hhead fun y hy hne =>
      hrest y (List.mem_append_right _ hy) ?_ hne
    exact fun hmem => hdisjoint y (List.mem_of_getLast? hmem) y (List.mem_cons_of_mem _ hy) rfl

end Change

theorem ends_disjoint {l m : List P} (hnodup : (l ++ m).Nodup) {y : P} (hl : l.getLast? = some y) :
    m.head? ≠ some y := fun hm =>
  (List.nodup_append.mp hnodup).2.2 y (List.mem_of_getLast? hl) y (List.mem_of_mem_head? hm) rfl

section Splice
variable [DecidableEq P] (links : P → Option (Option P × Option P)) (prev next : Option P) (x : P)

def splice (q : P) : Option (Option P × Option P) :=
  if q = x then some (next, prev)
  else if prev = some q then (links q).map fun r => (some x, r.2)
  else if next = some q then (links q).map fun r => (r.1, some x)
  else links q

def cut (q : P) : Option (Option P × Option P) :=
  if prev = some q then (links q).map fun r => (next, r.2)
  else if next = some q then (links q).map fun r => (r.1, prev)
  else links q

variable {links prev next x}

theorem modifyAt_store_eq_splice (hprev : prev ≠ some x) (hnext : next ≠ some x)
    (hne : ∀ q, prev = some q → next ≠ some q) :
    modifyAt (modifyAt (store links x (next, prev)) next fun r => (r.1, some x)) prev
      (fun r => (some x, r.2)) = splice links prev next x := by
  funext q
  rw [modifyAt_apply, modifyAt_apply, store, splice]
  by_cases hq : q = x
  · rw [hq, if_neg hprev, if_neg hnext, if_pos rfl, if_pos rfl]
  · rw [if_neg hq, if_neg hq]
    by_cases hp : prev = some q
    · rw [if_pos hp, if_pos hp, if_neg (hne q hp)]
    · rw [if_neg hp, if_neg hp]

theorem modifyAt_eq_cut (hne : ∀ q, prev = some q → next ≠ some q) :
    modifyAt (modifyAt links next fun r => (r.1, prev)) prev (fun r => (next, r.2)) =
      cut links prev next := by
  funext q
  rw [modifyAt_apply, modifyAt_apply, cut]
  by_cases hp : prev = some q
  · rw [if_pos hp, if_pos hp, if_neg (hne q hp)]
  · rw [if_neg hp, if_neg hp]

theorem modifyAt_eq_cut' (hne : ∀ q, prev = some q → next ≠ some q) :
    modifyAt (modifyAt links prev fun r => (next, r.2)) next (fun r => (r.1, prev)) =
      cut links prev next := by
  funext q
  rw [modifyAt_apply, modifyAt_apply, cut]
  by_cases hp : prev = some q
  · rw [if_neg (hne q hp), if_pos hp, if_pos hp]
  · rw [if_neg hp, if_neg hp]

theorem splice_of_ne {q : P} (hx : q ≠ x) (hprev : prev ≠ some q) (hnext : next ≠ some q) :
    splice links prev next x q = links q := by
  rw [splice, if_neg hx, if_neg hprev, if_neg hnext]

theorem cut_of_ne {q : P} (hprev : prev ≠ some q) (hnext : next ≠ some q) :
    cut links prev next q = links q := by
  rw [cut, if_neg hprev, if_neg hnext]

theorem Seg.splice {l m : List P} (h : Seg links none none (l ++ m)) (hnodup : (l ++ m).Nodup)
    (hx : x ∉ l ++ m) : Seg (splice links l.getLast? m.head? x) none none (l ++ x :: m) := by
  have hne : ∀ y ∈ l ++ m, y ≠ x := fun y hy heq => hx (heq ▸ hy)
  refine h.insert hnodup ?_ ?_ ?_ ?_
  · rw [LinkedList.splice, if_pos rfl, Option.or_none, Option.or_none]
  · intro y hy
    have hmem := List.mem_append_left m (List.mem_of_getLast? hy)
    rw [LinkedList.splice, if_neg (hne y hmem), if_pos (Option.mem_def.mp hy)]
  · intro y hy
    have hmem := List.mem_append_right l (List.mem_of_mem_head? hy)
    rw [LinkedList.splice, if_neg (hne y hmem), if_neg fun hl => ends_disjoint hnodup hl hy, if_pos (Option.mem_def.mp hy)]
  · exact fun y hy hl hm => splice_of_ne (hne y hy) hl hm

theorem Seg.cut {l m : List P} (h : Seg links none none (l ++ x :: m))
    (hnodup : (l ++ x :: m).Nodup) : Seg (cut links l.getLast? m.head?) none none (l ++ m) := by
  have hnodup' : (l ++ m).Nodup := hnodup.sublist (by simp)
  refine h.remove hnodup ?_ ?_ fun y _ hl hm => cut_of_ne hl hm
  · intro y hy
    rw [LinkedList.cut, if_pos (Option.mem_def.mp hy), Option.or_none]
  · intro y hy
    rw [LinkedList.cut, if_neg fun hl => ends_disjoint hnodup' hl hy, if_pos (Option.mem_def.mp hy), Option.or_none]

def spliceEnds (prev next : Option P) (x : P) (ends : Option P × Option P) : Option P × Option P :=
  (prev.elim (some x) fun _ => ends.1, next.elim (some x) fun _ => ends.2)

def cutEnds (prev next : Option P) (ends : Option P × Option P) : Option P × Option P :=
  (prev.elim next fun _ => ends.1, next.elim prev fun _ => ends.2)

omit [DecidableEq P] in
theorem spliceEnds_append (l m : List P) (x : P) :
    spliceEnds l.getLast? m.head? x ((l ++ m).head?, (l ++ m).getLast?) =
      ((l ++ x :: m).head?, (l ++ x :: m).getLast?) := by
  refine Prod.ext ?_ ?_
  · cases l with
    | nil => rfl
    | cons y l => simp [spliceEnds, List.getLast?_cons]
  · cases m with
    | nil => simp [spliceEnds]
    | cons y m => simp [spliceEnds, List.getLast?_append, List.getLast?_cons]

omit [DecidableEq P] in
theorem cutEnds_append (l m : List P) (x : P) :
    cutEnds l.getLast? m.head? ((l ++ x :: m).head?, (l ++ x :: m).getLast?) =
      ((l ++ m).head?, (l ++ m).getLast?) := by
  refine Prod.ext ?_ ?_
  · cases l with
    | nil => rfl
    | cons y l => simp [cutEnds, List.getLast?_cons]
  · cases m with
    | nil => simp [cutEnds]
    | cons y m => simp [cutEnds, List.getLast?_append, List.getLast?_cons]

/-- The links once the neighbours `q` and `p`, between the cells `before` and `after`, stand in the
other order. -/
def exchange (links : P → Option (Option P × Option P)) (before after : Option P) (p q y : P) :
    Option (Option P × Option P) :=
  if y = p then some (some q, before)
  else if y = q then some (after, some p)
  else if before = some y then (links y).map fun r => (some p, r.2)
  else if after = some y then (links y).map fun r => (r.1, some q)
  else links y

variable {before after : Option P} {p q : P}

theorem modify_eq_exchange_up (hp : (links p).isSome = true) (hq : (links q).isSome = true)
    (hpq : p ≠ q) (hbefore : before ≠ some p ∧ before ≠ some q)
    (hafter : after ≠ some p ∧ after ≠ some q) (hne : ∀ y, before = some y → after ≠ some y) :
    modifyAt (modifyAt (modifyAt (modifyAt (modifyAt (modifyAt links
      (some q) fun r => (after, r.2)) after fun r => (r.1, some q))
      (some p) fun r => (r.1, before)) before fun r => (some p, r.2))
      (some p) fun r => (some q, r.2)) (some q) (fun r => (r.1, some p)) =
        exchange links before after p q := by
  obtain ⟨c, hc⟩ := Option.isSome_iff_exists.mp hp
  obtain ⟨d, hd⟩ := Option.isSome_iff_exists.mp hq
  funext y
  simp only [modifyAt_apply, exchange, Option.some.injEq]
  by_cases yp : y = p
  · subst yp
    simp [hpq.symm, hbefore.1, hafter.1, hc]
  · by_cases yq : y = q
    · subst yq
      simp [hpq, hpq.symm, hbefore.2, hafter.2, hd]
    · by_cases yb : before = some y
      · simp [Ne.symm yp, Ne.symm yq, yp, yq, yb, hne y yb]
      · simp [Ne.symm yp, Ne.symm yq, yp, yq, yb]

theorem modify_eq_exchange_down (hp : (links p).isSome = true) (hq : (links q).isSome = true)
    (hpq : p ≠ q) (hbefore : before ≠ some p ∧ before ≠ some q)
    (hafter : after ≠ some p ∧ after ≠ some q) (hne : ∀ y, before = some y → after ≠ some y) :
    modifyAt (modifyAt (modifyAt (modifyAt (modifyAt (modifyAt links
      (some p) fun r => (r.1, before)) before fun r => (some p, r.2))
      (some q) fun r => (after, r.2)) after fun r => (r.1, some q))
      (some q) fun r => (r.1, some p)) (some p) (fun r => (some q, r.2)) =
        exchange links before after p q := by
  obtain ⟨c, hc⟩ := Option.isSome_iff_exists.mp hp
  obtain ⟨d, hd⟩ := Option.isSome_iff_exists.mp hq
  funext y
  simp only [modifyAt_apply, exchange, Option.some.injEq]
  by_cases yp : y = p
  · subst yp
    simp [hpq.symm, hbefore.1, hafter.1, hc]
  · by_cases yq : y = q
    · subst yq
      simp [hpq, hpq.symm, hbefore.2, hafter.2, hd]
    · by_cases yb : before = some y
      · simp [Ne.symm yp, Ne.symm yq, yp, yq, yb, hne y yb]
      · simp [Ne.symm yp, Ne.symm yq, yp, yq, yb]

theorem Seg.exchange {l m : List P} (h : Seg links none none (l ++ q :: p :: m))
    (hnodup : (l ++ q :: p :: m).Nodup) :
    Seg (exchange links l.getLast? m.head? p q) none none (l ++ p :: q :: m) := by
  obtain ⟨hl, -, -, hm⟩ := seg_append.mp h
  obtain ⟨hnodupl, hnodupm, hdisjoint⟩ := List.nodup_append.mp hnodup
  obtain ⟨hqnot, hnodupm⟩ := List.nodup_cons.mp hnodupm
  obtain ⟨hpnot, hnodupm⟩ := List.nodup_cons.mp hnodupm
  have hpq : p ≠ q := fun heq => hqnot (heq ▸ List.mem_cons_self)
  have hleft : ∀ y ∈ l, y ≠ p ∧ y ≠ q := fun y hy =>
    ⟨hdisjoint y hy p (by simp), hdisjoint y hy q (by simp)⟩
  have hright : ∀ y ∈ m, y ≠ p ∧ y ≠ q := fun y hy =>
    ⟨fun heq => hpnot (heq ▸ hy), fun heq => hqnot (heq ▸ List.mem_cons_of_mem _ hy)⟩
  have hends : ∀ y ∈ l, ∀ z ∈ m, y ≠ z := fun y hy z hz => hdisjoint y hy z (by simp [hz])
  refine seg_append.mpr ⟨?_, ?_, ?_, ?_⟩
  · refine hl.setNext _ hnodupl (fun y hy => ?_) fun y hy hne => ?_
    · obtain ⟨yp, yq⟩ := hleft y (List.mem_of_getLast? hy)
      rw [LinkedList.exchange, if_neg yp, if_neg yq, if_pos (Option.mem_def.mp hy)]
      rfl
    · obtain ⟨yp, yq⟩ := hleft y hy
      rw [LinkedList.exchange, if_neg yp, if_neg yq,
        if_neg (show l.getLast? ≠ some y from hne), if_neg]
      exact fun head => hends y hy y (List.mem_of_mem_head? head) rfl
  · rw [LinkedList.exchange, if_pos rfl, Option.or_none, Option.or_none, List.head?_cons]
  · rw [LinkedList.exchange, if_neg hpq.symm, if_pos rfl, Option.or_none]
  · refine hm.setPrev _ hnodupm (fun y hy => ?_) fun y hy hne => ?_
    · obtain ⟨yp, yq⟩ := hright y (List.mem_of_mem_head? hy)
      rw [LinkedList.exchange, if_neg yp, if_neg yq, if_neg, if_pos (Option.mem_def.mp hy)]
      exact fun last => hends y (List.mem_of_getLast? last) y (List.mem_of_mem_head? hy) rfl
    · obtain ⟨yp, yq⟩ := hright y hy
      rw [LinkedList.exchange, if_neg yp, if_neg yq, if_neg,
        if_neg (show m.head? ≠ some y from hne)]
      exact fun last => hends y (List.mem_of_getLast? last) y hy rfl

/-- The pointers to the first and the last cell, once the neighbours between `before` and `after`
are `p` and then `q`. -/
def exchangeEnds (before after : Option P) (p q : P) (ends : Option P × Option P) :
    Option P × Option P :=
  (before.elim (some p) fun _ => ends.1, after.elim (some q) fun _ => ends.2)

omit [DecidableEq P] in
theorem exchangeEnds_append (l m : List P) (p q : P) :
    exchangeEnds l.getLast? m.head? p q
      ((l ++ q :: p :: m).head?, (l ++ q :: p :: m).getLast?) =
      ((l ++ p :: q :: m).head?, (l ++ p :: q :: m).getLast?) := by
  refine Prod.ext ?_ ?_
  · cases l with
    | nil => rfl
    | cons y l => simp [exchangeEnds, List.getLast?_cons]
  · cases m with
    | nil => simp [exchangeEnds]
    | cons y m => simp [exchangeEnds, List.getLast?_append, List.getLast?_cons]

end Splice

def walk (next : P → Option P) (p : P → Bool) : Nat → Option P → Option P
  | 0, _ => none
  | _ + 1, none => none
  | fuel + 1, some x => if p x then some x else walk next p fuel (next x)

theorem walk_seg {links : P → Option (Option P × Option P)} {next : P → Option P}
    {before : Option P} {l : List P} (h : Seg links before none l)
    (hnext : ∀ x ∈ l, next x = (links x).bind Prod.fst) (p : P → Bool) {fuel : Nat}
    (hfuel : l.length < fuel) : walk next p fuel l.head? = l.find? p := by
  induction l generalizing before fuel with
  | nil =>
      cases fuel with
      | zero => rfl
      | succ fuel => rfl
  | cons x l ih =>
      obtain ⟨hx, hl⟩ := h
      cases fuel with
      | zero => exact absurd hfuel (Nat.not_lt_zero _)
      | succ fuel =>
          rw [List.head?_cons, walk, List.find?_cons]
          cases hp : p x with
          | true => rfl
          | false =>
              have hstep : next x = l.head? := by
                rw [hnext x List.mem_cons_self, hx]
                cases l <;> rfl
              rw [hstep]
              exact ih hl (fun y hy => hnext y (List.mem_cons_of_mem _ hy)) (Nat.lt_of_succ_lt_succ hfuel)

end Seg

/-! ## Sorted lists -/

section Sorted
variable {A : Type}

theorem exists_split (p : A → Bool) (l : List A) :
    ∃ a b, l = a ++ b ∧ b.head? = l.find? p ∧ ∀ x ∈ a, p x = false := by
  induction l with
  | nil => exact ⟨[], [], rfl, rfl, nofun⟩
  | cons x l ih =>
      cases hp : p x with
      | true => exact ⟨[], x :: l, rfl, by rw [List.find?_cons, hp]; rfl, nofun⟩
      | false =>
          obtain ⟨a, b, hl, hb, ha⟩ := ih
          refine ⟨x :: a, b, congrArg (x :: ·) hl, ?_, ?_⟩
          · rw [List.find?_cons, hp]
            exact hb
          · exact List.forall_mem_cons.mpr ⟨hp, ha⟩

theorem pairwise_insert {R : A → A → Prop} (htrans : ∀ x y z, R x y → R y z → R x z)
    {l m : List A} {x : A} (h : (l ++ m).Pairwise R) (hl : ∀ y ∈ l, R y x)
    (hm : ∀ y ∈ m.head?, R x y) : (l ++ x :: m).Pairwise R := by
  obtain ⟨hl', hm', hlm⟩ := List.pairwise_append.mp h
  have hm'' : ∀ y ∈ m, R x y := by
    cases m with
    | nil => nofun
    | cons z m =>
        have hz : R x z := hm z rfl
        refine List.forall_mem_cons.mpr ⟨hz, fun y hy => htrans x z y hz ?_⟩
        exact (List.pairwise_cons.mp hm').1 y hy
  refine List.pairwise_append.mpr ⟨hl', List.pairwise_cons.mpr ⟨hm'', hm'⟩, fun y hy z hz => ?_⟩
  obtain rfl | hz := List.mem_cons.mp hz
  · exact hl y hy
  · exact hlm y hy z hz

end Sorted

/-! ## The lists of many owners -/

section Lists
variable {O P : Type} [DecidableEq O] [DecidableEq P]

structure Lists (links : P → Option (Option P × Option P)) (ends : O → Option (Option P × Option P))
    (owner : P → Option O) (on : O → List P) : Prop where
  linked : ∀ o, Seg links none none (on o)
  ends_eq : ∀ o r, ends o = some r → r = ((on o).head?, (on o).getLast?)
  mem : ∀ o x, x ∈ on o ↔ owner x = some o
  nodup : ∀ o, (on o).Nodup
  live : ∀ o, on o ≠ [] → (ends o).isSome = true

namespace Lists
variable {links : P → Option (Option P × Option P)} {ends : O → Option (Option P × Option P)}
  {owner : P → Option O} {on : O → List P} {o : O} {x : P} {l m : List P}

omit [DecidableEq O] [DecidableEq P] in
theorem disjoint (h : Lists links ends owner on) {o' : O} (hne : o' ≠ o) (hx : x ∈ on o) :
    x ∉ on o' := fun hx' =>
  hne (Option.some.inj (((h.mem o' x).mp hx').symm.trans ((h.mem o x).mp hx)))

omit [DecidableEq O] [DecidableEq P] in
theorem congr {links' : P → Option (Option P × Option P)} (h : Lists links ends owner on)
    (hlinks : ∀ x, owner x ≠ none → links' x = links x) : Lists links' ends owner on := by
  refine ⟨fun o => (h.linked o).congr fun x hx => hlinks x ?_, h.ends_eq, h.mem, h.nodup, h.live⟩
  rw [(h.mem o x).mp hx]
  exact nofun

theorem insert (h : Lists links ends owner on) (hon : on o = l ++ m) (hx : owner x = none)
    (hlive : (ends o).isSome = true) :
    Lists (splice links l.getLast? m.head? x) (modify ends o (spliceEnds l.getLast? m.head? x))
      (store owner x o) (Function.update on o (l ++ x :: m)) := by
  have hnotMem : ∀ o', x ∉ on o' := fun o' hmem => by
    rw [h.mem, hx] at hmem
    exact nomatch hmem
  have hnotMem' : x ∉ l ++ m := hon ▸ hnotMem o
  have hnodup : (l ++ m).Nodup := hon ▸ h.nodup o
  refine ⟨fun o' => ?_, fun o' r hr => ?_, fun o' y => ?_, fun o' => ?_, fun o' hne => ?_⟩
  · by_cases heq : o' = o
    · rw [heq, Function.update_self]
      exact Seg.splice (hon ▸ h.linked o) hnodup hnotMem'
    · rw [Function.update_of_ne heq]
      refine (h.linked o').congr fun y hy => splice_of_ne (fun hyx => hnotMem o' (hyx ▸ hy)) ?_ ?_
      · intro hl
        exact h.disjoint heq (hon ▸ List.mem_append_left m (List.mem_of_getLast? hl)) hy
      · intro hm
        exact h.disjoint heq (hon ▸ List.mem_append_right l (List.mem_of_mem_head? hm)) hy
  · by_cases heq : o' = o
    · rw [heq, modify_self] at hr
      obtain ⟨r', hr', rfl⟩ := Option.map_eq_some_iff.mp hr
      rw [heq, Function.update_self, h.ends_eq o r' hr', hon]
      exact spliceEnds_append l m x
    · rw [modify_ne ends heq] at hr
      rw [Function.update_of_ne heq]
      exact h.ends_eq o' r hr
  · by_cases heq : o' = o
    · rw [heq, Function.update_self]
      by_cases hyx : y = x
      · rw [hyx, store_self]
        simp
      · rw [store_ne owner hyx, ← h.mem o y, hon]
        simp [hyx]
    · rw [Function.update_of_ne heq, h.mem o' y]
      by_cases hyx : y = x
      · rw [hyx, store_self, hx]
        simp [Ne.symm heq]
      · rw [store_ne owner hyx]
  · by_cases heq : o' = o
    · rw [heq, Function.update_self]
      exact List.nodup_middle.mpr (List.nodup_cons.mpr ⟨hnotMem', hnodup⟩)
    · rw [Function.update_of_ne heq]
      exact h.nodup o'
  · rw [modify_isSome]
    by_cases heq : o' = o
    · rw [heq]
      exact hlive
    · rw [Function.update_of_ne heq] at hne
      exact h.live o' hne

theorem remove (h : Lists links ends owner on) (hon : on o = l ++ x :: m) :
    Lists (free (cut links l.getLast? m.head?) x) (modify ends o (cutEnds l.getLast? m.head?))
      (free owner x) (Function.update on o (l ++ m)) := by
  have hnodup : (l ++ x :: m).Nodup := hon ▸ h.nodup o
  obtain ⟨hnotMem, hnodup'⟩ := List.nodup_cons.mp (List.nodup_middle.mp hnodup)
  have hx : x ∈ on o := by
    rw [hon]
    simp
  refine ⟨fun o' => ?_, fun o' r hr => ?_, fun o' y => ?_, fun o' => ?_, fun o' hne => ?_⟩
  · by_cases heq : o' = o
    · rw [heq, Function.update_self]
      refine (Seg.cut (hon ▸ h.linked o) hnodup).congr fun y hy => free_ne _ ?_
      exact fun hyx => hnotMem (hyx ▸ hy)
    · rw [Function.update_of_ne heq]
      refine (h.linked o').congr fun y hy => ?_
      rw [free_ne _ fun hyx : y = x => h.disjoint heq hx (hyx ▸ hy)]
      refine cut_of_ne ?_ ?_
      · intro hl
        have hmem : y ∈ on o := hon ▸ List.mem_append_left _ (List.mem_of_getLast? hl)
        exact h.disjoint heq hmem hy
      · intro hm
        have hmem : y ∈ on o :=
          hon ▸ List.mem_append_right _ (List.mem_cons_of_mem x (List.mem_of_mem_head? hm))
        exact h.disjoint heq hmem hy
  · by_cases heq : o' = o
    · rw [heq, modify_self] at hr
      obtain ⟨r', hr', rfl⟩ := Option.map_eq_some_iff.mp hr
      rw [heq, Function.update_self, h.ends_eq o r' hr', hon]
      exact cutEnds_append l m x
    · rw [modify_ne ends heq] at hr
      rw [Function.update_of_ne heq]
      exact h.ends_eq o' r hr
  · by_cases hyx : y = x
    · rw [hyx, free_self]
      refine iff_of_false ?_ nofun
      by_cases heq : o' = o
      · rw [heq, Function.update_self]
        exact hnotMem
      · rw [Function.update_of_ne heq]
        exact h.disjoint heq hx
    · rw [free_ne owner hyx, ← h.mem o' y]
      by_cases heq : o' = o
      · rw [heq, Function.update_self, hon]
        simp [hyx]
      · rw [Function.update_of_ne heq]
  · by_cases heq : o' = o
    · rw [heq, Function.update_self]
      exact hnodup'
    · rw [Function.update_of_ne heq]
      exact h.nodup o'
  · rw [modify_isSome]
    by_cases heq : o' = o
    · rw [heq]
      exact h.live o (List.ne_nil_of_mem hx)
    · rw [Function.update_of_ne heq] at hne
      exact h.live o' hne

omit [DecidableEq P] in
theorem newOwner (h : Lists links ends owner on) (ho : ends o = none) :
    Lists links (store ends o (none, none)) owner on := by
  have hnil : on o = [] := by
    by_contra hne
    have hlive := h.live o hne
    rw [ho] at hlive
    exact nomatch hlive
  refine ⟨h.linked, fun o' r hr => ?_, h.mem, h.nodup, fun o' hne => ?_⟩
  · by_cases heq : o' = o
    · rw [heq, store_self] at hr
      rw [heq, hnil, ← Option.some.inj hr]
      rfl
    · rw [store_ne ends heq] at hr
      exact h.ends_eq o' r hr
  · rw [store_ne ends fun heq : o' = o => hne (heq ▸ hnil)]
    exact h.live o' hne

omit [DecidableEq P] in
theorem freeOwner (h : Lists links ends owner on) (hnil : on o = []) :
    Lists links (free ends o) owner on := by
  refine ⟨h.linked, fun o' r hr => ?_, h.mem, h.nodup, fun o' hne => ?_⟩
  · by_cases heq : o' = o
    · rw [heq, free_self] at hr
      exact nomatch hr
    · rw [free_ne ends heq] at hr
      exact h.ends_eq o' r hr
  · rw [free_ne ends fun heq : o' = o => hne (heq ▸ hnil)]
    exact h.live o' hne

end Lists

end Lists

end Cone.Lib.LinkedList
