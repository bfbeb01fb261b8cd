import Mathlib.Data.List.SplitBy

/-! # Runs of related elements

How `List.splitBy` cuts a list into runs, from the front and group by group. -/
set_option autoImplicit false
namespace Cone.Lib.Runs

section SplitBy
variable {A : Type}

theorem splitBy_cons_of_not (r : A → A → Bool) (a b : A) (bs : List A) (cut : r a b = false) :
    (a :: b :: bs).splitBy r = [a] :: (b :: bs).splitBy r := by
  have h := List.splitBy_append_cons (r := r) (l := [a]) (a := b) bs (by simpa using cut)
  have one : [a].splitBy r = [[a]] := List.splitBy_of_isChain (by simp) (by simp)
  rw [one] at h
  exact h

theorem splitBy_cons_of_rel (r : A → A → Bool) (a b : A) (bs : List A) (rel : r a b = true) :
    ∃ g gs, (b :: bs).splitBy r = (b :: g) :: gs ∧
      (a :: b :: bs).splitBy r = (a :: b :: g) :: gs := by
  cases runs : (b :: bs).splitBy r with
  | nil =>
      rw [List.splitBy_eq_nil] at runs
      cases runs
  | cons m gs =>
      obtain ⟨whole, ne, chains, cuts⟩ := List.splitBy_eq_iff.mp runs
      cases m with
      | nil => simp at ne
      | cons c g =>
          obtain ⟨rfl, rest⟩ : b = c ∧ bs = g ++ gs.flatten := by simpa using whole
          refine ⟨g, gs, rfl, List.splitBy_eq_iff.mpr ⟨by simp [rest], ?_, ?_, ?_⟩⟩
          · intro h
            apply ne
            simpa using h
          · intro m hm
            rcases List.mem_cons.mp hm with rfl | hm
            · exact List.isChain_cons_cons.mpr ⟨rel, chains _ (by simp)⟩
            · exact chains m (by simp [hm])
          · cases gs with
            | nil => simp
            | cons m' gs =>
                rw [List.isChain_cons_cons] at cuts ⊢
                obtain ⟨⟨h₁, h₂, cut⟩, later⟩ := cuts
                exact ⟨⟨by simp, h₂, by simpa using cut⟩, later⟩

/-- Groups that nothing relates to the next one are cut apart, and then each by itself. -/
theorem splitBy_flatten_of_cut (r : A → A → Bool) (gs : List (List A))
    (cut : ∀ g ∈ gs, ∀ a ∈ g.getLast?, ∀ b, r a b = false) :
    gs.flatten.splitBy r = gs.flatMap (List.splitBy r) := by
  induction gs with
  | nil => simp
  | cons g gs ih =>
      have rest := ih (fun g' hg' => cut g' (by simp [hg']))
      have first := List.splitBy_append (r := r) (l := g) (m := gs.flatten)
        (fun a ha b _ => cut g (by simp) a ha b)
      rw [List.flatten_cons, first, rest, List.flatMap_cons]

theorem splitBy_eq_singleton_iff (r : A → A → Bool) (g : List A) (ne : g ≠ []) :
    g.splitBy r = [g] ↔ g.IsChain fun a b => r a b := by
  constructor
  · intro whole
    exact List.isChain_of_mem_splitBy (l := g) (by rw [whole]; simp)
  · exact List.splitBy_of_isChain ne

theorem splitBy_length_pos (r : A → A → Bool) (g : List A) (ne : g ≠ []) :
    0 < (g.splitBy r).length := by
  rw [List.length_pos_iff]
  exact List.splitBy_ne_nil.mpr ne

theorem splitBy_length_eq_one_iff (r : A → A → Bool) (g : List A) (ne : g ≠ []) :
    (g.splitBy r).length = 1 ↔ g.IsChain fun a b => r a b := by
  rw [← splitBy_eq_singleton_iff r g ne]
  constructor
  · intro one
    obtain ⟨m, split⟩ := List.length_eq_one_iff.mp one
    have whole := List.flatten_splitBy r g
    rw [split] at whole
    have same : m = g := by simpa using whole
    rw [split, same]
  · intro whole
    simp [whole]

/-- As many runs as groups means that every group is one run. -/
theorem isChain_of_length_eq (r : A → A → Bool) (gs : List (List A)) (ne : ∀ g ∈ gs, g ≠ [])
    (same : (gs.flatMap (List.splitBy r)).length = gs.length) :
    ∀ g ∈ gs, g.IsChain fun a b => r a b := by
  have atLeast : ∀ hs : List (List A), (∀ g ∈ hs, g ≠ []) →
      hs.length ≤ (hs.flatMap (List.splitBy r)).length := by
    intro hs hne
    induction hs with
    | nil => simp
    | cons h hs ih =>
        have first := splitBy_length_pos r h (hne h (by simp))
        have rest := ih (fun g hg => hne g (by simp [hg]))
        simp only [List.flatMap_cons, List.length_append, List.length_cons]
        omega
  induction gs with
  | nil => simp
  | cons g gs ih =>
      have first := splitBy_length_pos r g (ne g (by simp))
      have rest := atLeast gs (fun g' hg' => ne g' (by simp [hg']))
      simp only [List.flatMap_cons, List.length_append, List.length_cons] at same
      have one : (g.splitBy r).length = 1 := by omega
      have later := ih (fun g' hg' => ne g' (by simp [hg'])) (by omega)
      intro g' hg'
      rcases List.mem_cons.mp hg' with rfl | hg'
      · exact (splitBy_length_eq_one_iff r _ (ne _ (by simp))).mp one
      · exact later g' hg'

end SplitBy

section MapLast
variable {A B C : Type}

def mapLast (w z : A → B) : List A → List B
  | [] => []
  | [a] => [z a]
  | a :: b :: l => w a :: mapLast w z (b :: l)

theorem map_mapLast (f : B → C) (w z : A → B) (l : List A) :
    (mapLast w z l).map f = mapLast (fun a => f (w a)) (fun a => f (z a)) l := by
  induction l using mapLast.induct with
  | case1 => rfl
  | case2 a => rfl
  | case3 a b l ih => simp [mapLast, ih]

theorem mapLast_ne_nil (w z : A → B) {l : List A} (ne : l ≠ []) : mapLast w z l ≠ [] := by
  cases l with
  | nil => exact absurd rfl ne
  | cons a l =>
      cases l with
      | nil => simp [mapLast]
      | cons b l => simp [mapLast]

theorem getLast?_mapLast (w z : A → B) (l : List A) : (mapLast w z l).getLast? = l.getLast?.map z := by
  induction l using mapLast.induct with
  | case1 => rfl
  | case2 a => rfl
  | case3 a b l ih =>
      rw [mapLast, List.getLast?_cons_cons, ← ih]
      cases rest : mapLast w z (b :: l) with
      | nil => exact absurd rest (mapLast_ne_nil w z (by simp))
      | cons c cs => exact List.getLast?_cons_cons

end MapLast

end Cone.Lib.Runs
