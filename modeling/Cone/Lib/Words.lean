import Mathlib.Data.List.TakeWhile

/-! # Words up to a boundary

What `takeWhile` and `dropWhile` make of a word and what stands behind it. -/
set_option autoImplicit false
namespace Cone.Lib.Words

section Words
variable {α : Type} {q : α → Bool} {w rest : List α}

theorem takeWhile_append_stop (hw : ∀ c ∈ w, q c = true) (hrest : ∀ c ∈ rest.head?, q c = false) :
    (w ++ rest).takeWhile q = w := by
  rw [List.takeWhile_append_of_pos hw]
  cases rest with
  | nil => simp
  | cons c rest => simp [hrest c rfl]

theorem dropWhile_append_stop (hw : ∀ c ∈ w, q c = true) (hrest : ∀ c ∈ rest.head?, q c = false) :
    (w ++ rest).dropWhile q = rest := by
  rw [List.dropWhile_append_of_pos hw]
  cases rest with
  | nil => rfl
  | cons c rest => simp [hrest c rfl]

theorem dropWhile_eq_cons {l : List α} {d : α} (h : l.dropWhile q = d :: rest) :
    ∃ w, l = w ++ d :: rest ∧ (∀ c ∈ w, q c = true) ∧ q d = false := by
  refine ⟨l.takeWhile q, ?_, fun c hc => List.mem_takeWhile_imp hc, ?_⟩
  · rw [← h, List.takeWhile_append_dropWhile]
  · have hd := List.head?_dropWhile_not q l
    rwa [h] at hd

end Words

end Cone.Lib.Words
