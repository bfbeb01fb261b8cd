import Mathlib.Data.List.Basic

/-! # Lists sifted by what came before

An element goes where a predicate of it and of the elements before it holds, whether or not those
went themselves. -/
set_option autoImplicit false
namespace Cone.Lib.Sift

section Sift
variable {α : Type*} (goes : List α → α → Prop) [∀ before e, Decidable (goes before e)]

def sift (before : List α) : List α → List α
  | [] => []
  | e :: es =>
    if goes before e then sift (before ++ [e]) es else e :: sift (before ++ [e]) es

variable {goes}

theorem sift_of_goes {before : List α} {e : α} (es : List α) (h : goes before e) :
    sift goes before (e :: es) = sift goes (before ++ [e]) es := by
  rw [sift, if_pos h]

theorem sift_of_stays {before : List α} {e : α} (es : List α) (h : ¬ goes before e) :
    sift goes before (e :: es) = e :: sift goes (before ++ [e]) es := by
  rw [sift, if_neg h]

/-- Two lists before are as good as one another where they agree on every element. -/
theorem sift_congr {before before' : List α}
    (same : ∀ after e, goes (before ++ after) e ↔ goes (before' ++ after) e) (l : List α) :
    sift goes before l = sift goes before' l := by
  induction l generalizing before before' with
  | nil => rfl
  | cons e es ih =>
      have here : goes before e ↔ goes before' e := by simpa using same [] e
      have rest : sift goes (before ++ [e]) es = sift goes (before' ++ [e]) es := by
        apply ih
        intro after e'
        rw [List.append_assoc, List.append_assoc]
        exact same _ e'
      by_cases h : goes before e
      · rw [sift_of_goes es h, sift_of_goes es (here.mp h), rest]
      · rw [sift_of_stays es h, sift_of_stays es (fun h' => h (here.mpr h')), rest]

/-- Elements that go in any case and on which no other depends can be taken out first. -/
theorem sift_filter {before : List α} (p : α → Bool)
    (out : ∀ after e, p e = false → goes (before ++ after) e)
    (blind : ∀ after after' e e', p e = false →
      (goes (before ++ (after ++ e :: after')) e' ↔ goes (before ++ (after ++ after')) e'))
    (l : List α) : sift goes before (l.filter p) = sift goes before l := by
  induction l generalizing before with
  | nil => rfl
  | cons e es ih =>
      cases stays : p e with
      | false =>
          have goesNow : goes before e := by simpa using out [] e stays
          have dropped : sift goes (before ++ [e]) es = sift goes before es := by
            apply sift_congr
            intro after e'
            rw [List.append_assoc]
            exact blind [] after e e' stays
          rw [List.filter_cons_of_neg (by simp [stays]), sift_of_goes es goesNow, dropped]
          exact ih out blind
      | true =>
          have rest : sift goes (before ++ [e]) (es.filter p) = sift goes (before ++ [e]) es := by
            apply ih
            · intro after e' gone
              rw [List.append_assoc]
              exact out _ e' gone
            · intro after after' e' e'' gone
              rw [List.append_assoc, List.append_assoc]
              exact blind (e :: after) after' e' e'' gone
          rw [List.filter_cons_of_pos stays]
          by_cases h : goes before e
          · rw [sift_of_goes _ h, sift_of_goes _ h, rest]
          · rw [sift_of_stays _ h, sift_of_stays _ h, rest]

variable {goes' : List α → α → Prop} [∀ before e, Decidable (goes' before e)]

theorem sift_sublist (more : ∀ before e, goes' before e → goes before e) (before l : List α) :
    (sift goes before l).Sublist (sift goes' before l) := by
  induction l generalizing before with
  | nil => exact List.Sublist.refl _
  | cons e es ih =>
      have rest := ih (before ++ [e])
      by_cases h' : goes' before e
      · rw [sift_of_goes es h', sift_of_goes es (more _ _ h')]
        exact rest
      · rw [sift_of_stays es h']
        by_cases h : goes before e
        · rw [sift_of_goes es h]
          exact rest.cons e
        · rw [sift_of_stays es h]
          exact rest.cons_cons e

/-- Of two such predicates the stronger one leaves as much only where they agree. -/
theorem sift_eq_iff (more : ∀ before e, goes' before e → goes before e) (before l : List α) :
    sift goes before l = sift goes' before l ↔
      ∀ front e back, l = front ++ e :: back →
        goes (before ++ front) e → goes' (before ++ front) e := by
  induction l generalizing before with
  | nil => simp [sift]
  | cons e es ih =>
      have rest := ih (before ++ [e])
      have short := (sift_sublist more (before ++ [e]) es).length_le
      have splits : (∀ front e' back, e :: es = front ++ e' :: back →
            goes (before ++ front) e' → goes' (before ++ front) e') ↔
          (goes before e → goes' before e) ∧ ∀ front e' back, es = front ++ e' :: back →
            goes (before ++ [e] ++ front) e' → goes' (before ++ [e] ++ front) e' := by
        constructor
        · intro all
          refine ⟨by simpa using all [] e es rfl, fun front e' back split => ?_⟩
          have later := all (e :: front) e' back (by rw [split, List.cons_append])
          rwa [← List.append_cons]
        · rintro ⟨here, all⟩ front e' back split
          cases front with
          | nil =>
              obtain ⟨rfl, rfl⟩ := List.cons.inj split
              simpa using here
          | cons d front =>
              rw [List.cons_append] at split
              obtain ⟨rfl, rfl⟩ := List.cons.inj split
              rw [List.append_cons]
              exact all front e' back rfl
      rw [splits]
      by_cases h' : goes' before e
      · rw [sift_of_goes es h', sift_of_goes es (more _ _ h'), rest]
        exact ⟨fun all => ⟨fun _ => h', all⟩, fun all => all.2⟩
      · rw [sift_of_stays es h']
        by_cases h : goes before e
        · rw [sift_of_goes es h]
          constructor
          · intro same
            have long := congrArg List.length same
            rw [List.length_cons] at long
            omega
          · intro all
            exact absurd (all.1 h) h'
        · rw [sift_of_stays es h, List.cons.injEq, rest]
          exact ⟨fun all => ⟨fun is => absurd is h, all.2⟩, fun all => ⟨rfl, all.2⟩⟩

end Sift

end Cone.Lib.Sift
