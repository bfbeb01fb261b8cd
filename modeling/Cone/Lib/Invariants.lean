import Mathlib.Data.List.Induction

/-! # Invariants along a run

A deterministic system that may refuse an event.  When a step keeps the invariant exactly under a
condition on the state before it, so does a whole run.  And a computation that is given fuel for its
loops and is `none` where that runs out. -/
set_option autoImplicit false
namespace Cone.Lib.Invariants

section Runs
variable {S E : Type} (step : S → E → Option S)

/-- `P` holds in every state of the run. -/
def Always (P : S → Prop) : S → List E → Prop
  | s, [] => P s
  | s, e :: es => P s ∧ ∀ s', step s e = some s' → Always P s' es

/-- Every step of the run is taken in a state that meets its condition. -/
def EachStep (C : S → E → Prop) : S → List E → Prop
  | _, [] => True
  | s, e :: es => C s e ∧ ∀ s', step s e = some s' → EachStep C s' es

variable {step} {P : S → Prop} {C : S → E → Prop}

theorem Always.head {s : S} {es : List E} (h : Always step P s es) : P s := by
  cases es with
  | nil => exact h
  | cons e es => exact h.1

theorem always_of_eachStep (hkeep : ∀ s e s', P s → step s e = some s' → C s e → P s')
    {s : S} {es : List E} (hs : P s) (h : EachStep step C s es) : Always step P s es := by
  induction es generalizing s with
  | nil => exact hs
  | cons e es ih =>
      apply And.intro hs
      intro s' hstep
      exact ih (hkeep s e s' hs hstep h.1) (h.2 s' hstep)

theorem always_iff_eachStep (hkeep : ∀ s e s', P s → step s e = some s' → (P s' ↔ C s e))
    (hrefuse : ∀ s e, P s → step s e = none → C s e) {s : S} {es : List E} (hs : P s) :
    Always step P s es ↔ EachStep step C s es := by
  constructor
  · intro h
    induction es generalizing s with
    | nil => trivial
    | cons e es ih =>
        constructor
        · cases hstep : step s e with
          | none => exact hrefuse s e hs hstep
          | some s' => exact (hkeep s e s' hs hstep).mp (h.2 s' hstep).head
        · intro s' hstep
          exact ih (h.2 s' hstep).head (h.2 s' hstep)
  · intro h
    exact always_of_eachStep (fun s e s' hs hstep hc => (hkeep s e s' hs hstep).mpr hc) hs h

end Runs

/-- From some fuel on the result is one and the same, and such a one. -/
def Ends {A : Type} (f : Nat → Option A) (P : A → Prop) : Prop :=
  ∃ a, P a ∧ ∃ n, ∀ fuel, n ≤ fuel → f fuel = some a

section Rules
variable {A B : Type} {P : A → Prop} {Q : B → Prop}

theorem Ends.pure {a : A} (h : P a) : Ends (fun _ => some a) P := ⟨a, h, 0, fun _ _ => rfl⟩

theorem Ends.mono {P' : A → Prop} {f : Nat → Option A} (h : Ends f P) (himp : ∀ a, P a → P' a) :
    Ends f P' := by
  obtain ⟨a, ha, h⟩ := h
  exact ⟨a, himp a ha, h⟩

theorem Ends.bind {f : Nat → Option A} {g : Nat → A → Option B} (h : Ends f P)
    (hg : ∀ a, P a → Ends (g · a) Q) : Ends (fun fuel => f fuel >>= g fuel) Q := by
  obtain ⟨a, ha, n, hf⟩ := h
  obtain ⟨b, hb, k, hg⟩ := hg a ha
  refine ⟨b, hb, max n k, fun fuel hfuel => ?_⟩
  show f fuel >>= g fuel = some b
  rw [hf fuel (by omega), Option.bind_eq_bind, Option.bind_some]
  exact hg fuel (by omega)

/-- One round more. -/
theorem Ends.succ {f : Nat → Option A} (h : Ends (fun fuel => f (fuel + 1)) P) : Ends f P := by
  obtain ⟨a, ha, n, hf⟩ := h
  refine ⟨a, ha, n + 1, fun fuel hfuel => ?_⟩
  cases fuel with
  | zero => omega
  | succ fuel => exact hf fuel (by omega)

/-- What a round keeps. -/
theorem Ends.foldlM {f : Nat → B → A → Option B} {I : List A → B → Prop}
    (step : ∀ l a b, I l b → Ends (f · b a) (I (l ++ [a]))) {b : B} (h : I [] b) (l : List A) :
    Ends (fun fuel => l.foldlM (f fuel) b) (I l) := by
  induction l using List.reverseRecOn with
  | nil => exact Ends.pure h
  | append_singleton l a ih =>
      simp only [List.foldlM_append, List.foldlM_cons, List.foldlM_nil, bind_pure]
      exact ih.bind fun b hb => step l a b hb

end Rules

end Cone.Lib.Invariants
