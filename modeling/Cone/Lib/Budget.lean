import Mathlib.Control.Basic

/-! # Recursion on a budget

A `Run` changes a state and answers, or runs out of the depth it was given.  An `Allowance` says
what a state has spent, and what every state keeps.  A run is `Within` it when it
answers with the depth that is left, and answers one of the `stop` answers when it has spent
the last of it; a run that spends nothing is `Free`. -/
set_option autoImplicit false
namespace Cone.Lib.Budget

abbrev Run (S R : Type) := StateT S Option R

structure Allowance (S : Type) where
  spent : S → Nat
  limit : Nat
  Keeps : S → Prop

section Rules
variable {S R T : Type} (b : Allowance S)

def Free (m : Run S R) : Prop :=
  ∀ s, ∃ r t, m s = some (r, t) ∧ b.spent t = b.spent s ∧ (b.Keeps s → b.Keeps t)

def Within (depth : Nat) (stop : R → Prop) (m : Run S R) : Prop :=
  ∀ s, b.Keeps s → b.spent s < b.limit → b.limit ≤ b.spent s + depth →
    ∃ r t, m s = some (r, t) ∧ b.Keeps t ∧ b.spent s ≤ b.spent t ∧ b.spent t ≤ b.limit ∧
      (b.spent t = b.limit → stop r)

def Answers (stop : R → Prop) (m : Run S R) : Prop := ∀ s r t, m s = some (r, t) → stop r

theorem Answers.pure {stop : R → Prop} {r : R} (h : stop r) :
    Answers stop (pure r : Run S R) := by
  intro s r' t hrun
  obtain ⟨rfl, -⟩ := Prod.mk.inj (Option.some.inj hrun)
  exact h

theorem bind_of_eq {m : Run S R} {f : R → Run S T} {s t : S} {r : R} (h : m s = some (r, t)) :
    (m >>= f) s = f r t := by
  change (m s).bind (fun p => f p.1 p.2) = f r t
  rw [h]
  rfl

theorem Free.pure (r : R) : Free b (pure r : Run S R) := by
  intro s
  exact ⟨r, s, rfl, rfl, id⟩

variable {b}

theorem Free.bind {m : Run S R} {f : R → Run S T} (hm : Free b m) (hf : ∀ r, Free b (f r)) :
    Free b (m >>= f) := by
  intro s
  obtain ⟨r, t, hrun, hspent, hkeeps⟩ := hm s
  obtain ⟨r', u, hrun', hspent', hkeeps'⟩ := hf r t
  exact ⟨r', u, (bind_of_eq hrun).trans hrun', hspent'.trans hspent, hkeeps' ∘ hkeeps⟩

theorem Free.ite {c : Prop} [Decidable c] {m m' : Run S R} (hm : Free b m) (hm' : Free b m') :
    Free b (if c then m else m') := by
  by_cases h : c
  · rw [if_pos h]
    exact hm
  · rw [if_neg h]
    exact hm'

variable {depth : Nat} {stop : R → Prop} {stop' : T → Prop}

/-- What spends nothing cannot have spent the last. -/
theorem Free.within {m : Run S R} (hm : Free b m) : Within b depth stop m := by
  intro s hkeeps hlt _
  obtain ⟨r, t, hrun, hspent, hkeeps'⟩ := hm s
  exact ⟨r, t, hrun, hkeeps' hkeeps, Nat.le_of_eq hspent.symm, by omega, fun h => by omega⟩

theorem Within.ite {c : Prop} [Decidable c] {m m' : Run S R}
    (hm : Within b depth stop m) (hm' : Within b depth stop m') :
    Within b depth stop (if c then m else m') := by
  by_cases h : c
  · rw [if_pos h]
    exact hm
  · rw [if_neg h]
    exact hm'

theorem Free.bind_within {m : Run S R} {f : R → Run S T} (hm : Free b m)
    (hf : ∀ r, Within b depth stop' (f r)) : Within b depth stop' (m >>= f) := by
  intro s hkeeps hlt hdepth
  obtain ⟨r, t, hrun, hspent, hkeeps'⟩ := hm s
  obtain ⟨r', u, hrun', hu, hle, hlimit, hstop⟩ :=
    hf r t (hkeeps' hkeeps) (by omega) (by omega)
  exact ⟨r', u, (bind_of_eq hrun).trans hrun', hu, by omega, hlimit, hstop⟩

theorem Within.bind {m : Run S R} {f : R → Run S T} (hm : Within b depth stop m)
    (hf : ∀ r, Within b depth stop' (f r))
    (hstop : ∀ r, stop r → Free b (f r) ∧ Answers stop' (f r)) :
    Within b depth stop' (m >>= f) := by
  intro s hkeeps hlt hdepth
  obtain ⟨r, t, hrun, hkeeps', hle, hlimit, hlast⟩ := hm s hkeeps hlt hdepth
  by_cases hspent : b.spent t = b.limit
  · obtain ⟨hfree, hanswers⟩ := hstop r (hlast hspent)
    obtain ⟨r', u, hrun', hu, hkeeps''⟩ := hfree t
    exact ⟨r', u, (bind_of_eq hrun).trans hrun', hkeeps'' hkeeps', by omega, by omega,
      fun _ => hanswers t r' u hrun'⟩
  · obtain ⟨r', u, hrun', hu, hle', hlimit', hlast'⟩ := hf r t hkeeps' (by omega) (by omega)
    exact ⟨r', u, (bind_of_eq hrun).trans hrun', hu, by omega, hlimit', hlast'⟩

theorem within_of_step {I : Type} {call : Nat → I → Run S R}
    (hstep : ∀ n, (∀ i, Within b n stop (call n i)) → ∀ i, Within b (n + 1) stop (call (n + 1) i))
    (n : Nat) (i : I) : Within b n stop (call n i) := by
  induction n generalizing i with
  | zero =>
      intro s _ hlt hdepth
      omega
  | succ n ih => exact hstep n ih i

end Rules

section Depth
variable {S R T : Type}

def Extends (m m' : Run S R) : Prop := ∀ s x, m s = some x → m' s = some x

theorem Extends.refl (m : Run S R) : Extends m m := fun _ _ h => h

theorem Extends.bind {m m' : Run S R} {f f' : R → Run S T} (hm : Extends m m')
    (hf : ∀ r, Extends (f r) (f' r)) : Extends (m >>= f) (m' >>= f') := by
  intro s x h
  obtain ⟨⟨r, t⟩, hrun, hrest⟩ := Option.bind_eq_some_iff.mp h
  rw [bind_of_eq (hm s _ hrun)]
  exact hf r t x hrest

theorem Extends.ite {c : Prop} [Decidable c] {m m' n n' : Run S R} (hm : Extends m m')
    (hn : Extends n n') : Extends (if c then m else n) (if c then m' else n') := by
  by_cases h : c
  · rw [if_pos h, if_pos h]
    exact hm
  · rw [if_neg h, if_neg h]
    exact hn

/-- More depth changes no answer. -/
theorem extends_of_step {I : Type} {call : Nat → I → Run S R}
    (hzero : ∀ i s, call 0 i s = none)
    (hstep : ∀ n n', (∀ i, Extends (call n i) (call n' i)) →
      ∀ i, Extends (call (n + 1) i) (call (n' + 1) i))
    {n n' : Nat} (hle : n ≤ n') (i : I) : Extends (call n i) (call n' i) := by
  induction n generalizing n' i with
  | zero =>
      intro s x h
      rw [hzero] at h
      cases h
  | succ n ih =>
      obtain ⟨k, rfl⟩ : ∃ k, n' = k + 1 := ⟨n' - 1, by omega⟩
      exact hstep n k (ih (by omega)) i

end Depth
end Cone.Lib.Budget
