import Mathlib.Logic.Basic

/-! # Checked computations

A computation over checked memory gives a value, returns a null pointer, or stops at a fault.
It is safe when it stops at none; a sequence is safe when its first part is, and what follows
is safe for the value it gave. -/
set_option autoImplicit false
namespace Cone.Lib.Checked

inductive Outcome (F A : Type) where
  | fault (f : F)
  | null
  | value (a : A)
  deriving DecidableEq, Repr

section Sequence
variable {F A B : Type}

def Outcome.andThen : Outcome F A → (A → Outcome F B) → Outcome F B
  | .fault f, _ => .fault f
  | .null, _ => .null
  | .value a, next => next a

instance : Monad (Outcome F) where
  pure := .value
  bind := Outcome.andThen

def Outcome.test : Outcome F A → Outcome F (Option A)
  | .fault f => .fault f
  | .null => .value none
  | .value a => .value (some a)

def Safe (x : Outcome F A) : Prop := ∀ f, x ≠ .fault f

@[simp] theorem value_bind (a : A) (next : A → Outcome F B) :
    (Outcome.value a >>= next) = next a := rfl

@[simp] theorem null_bind (next : A → Outcome F B) : (Outcome.null >>= next) = .null := rfl

@[simp] theorem fault_bind (f : F) (next : A → Outcome F B) :
    (Outcome.fault f >>= next) = .fault f := rfl

@[simp] theorem safe_value (a : A) : Safe (Outcome.value a : Outcome F A) := nofun

@[simp] theorem safe_null : Safe (Outcome.null : Outcome F A) := nofun

@[simp] theorem not_safe_fault (f : F) : ¬ Safe (Outcome.fault f : Outcome F A) :=
  fun h => h f rfl

theorem bind_eq_value {x : Outcome F A} {next : A → Outcome F B} {b : B} :
    (x >>= next) = .value b ↔ ∃ a, x = .value a ∧ next a = .value b := by
  cases x with
  | fault f => simp
  | null => simp
  | value a => simp

theorem safe_bind {x : Outcome F A} {next : A → Outcome F B} :
    Safe (x >>= next) ↔ Safe x ∧ ∀ a, x = .value a → Safe (next a) := by
  cases x with
  | fault f => simp
  | null => simp
  | value a => simp

theorem safe_test {x : Outcome F A} : Safe x.test ↔ Safe x := by
  cases x with
  | fault f => exact iff_of_false (not_safe_fault f) (not_safe_fault f)
  | null => exact iff_of_true (safe_value _) safe_null
  | value a => exact iff_of_true (safe_value _) (safe_value a)

theorem test_eq_some {x : Outcome F A} {a : A} : x.test = .value (some a) ↔ x = .value a := by
  cases x <;> simp [Outcome.test]

theorem safe_ite {c : Prop} [Decidable c] {x y : Outcome F A} (hx : c → Safe x)
    (hy : ¬ c → Safe y) : Safe (if c then x else y) := by
  by_cases h : c
  · rw [if_pos h]
    exact hx h
  · rw [if_neg h]
    exact hy h

def NonNull (x : Outcome F A) : Prop := x ≠ .null

@[simp] theorem nonNull_value (a : A) : NonNull (Outcome.value a : Outcome F A) := nofun

theorem NonNull.bind {x : Outcome F A} {next : A → Outcome F B} (hx : NonNull x)
    (hnext : ∀ a, NonNull (next a)) : NonNull (x >>= next) := by
  cases x with
  | fault f => nofun
  | null => exact absurd rfl hx
  | value a => exact hnext a

theorem NonNull.ite {c : Prop} [Decidable c] {x y : Outcome F A} (hx : NonNull x)
    (hy : NonNull y) : NonNull (if c then x else y) := by
  by_cases h : c
  · rw [if_pos h]
    exact hx
  · rw [if_neg h]
    exact hy

theorem NonNull.eq_value {x : Outcome F A} (hx : NonNull x) (hsafe : Safe x) :
    ∃ a, x = .value a := by
  cases x with
  | fault f => exact absurd hsafe (not_safe_fault f)
  | null => exact absurd rfl hx
  | value a => exact ⟨a, rfl⟩

end Sequence

section Many
variable {F A P : Type} (item : P → Outcome F (A × P))

def many : Nat → P → Outcome F (List A × P)
  | 0, p => .value ([], p)
  | n + 1, p => do
    let (a, q) ← item p
    let (as, r) ← many n q
    .value (a :: as, r)

inductive After : Nat → P → P → Prop where
  | zero {p : P} : After 0 p p
  | succ {n : Nat} {p q r : P} {a : A} (h : After n p q) (h' : item q = .value (a, r)) :
      After (n + 1) p r

variable {item}

theorem After.cons {n : Nat} {p q r : P} {a : A} (h : item p = .value (a, q))
    (h' : After item n q r) : After item (n + 1) p r := by
  induction h' with
  | zero => exact .succ .zero h
  | succ _ hitem ih => exact .succ (ih h) hitem

theorem after_succ_iff {n : Nat} {p r : P} :
    After item (n + 1) p r ↔ ∃ a q, item p = .value (a, q) ∧ After item n q r := by
  constructor
  · intro h
    induction n generalizing r with
    | zero =>
        cases h with
        | succ h hitem =>
            cases h
            exact ⟨_, _, hitem, .zero⟩
    | succ n ih =>
        cases h with
        | succ h hitem =>
            obtain ⟨a, q, hfirst, hrest⟩ := ih h
            exact ⟨a, q, hfirst, .succ hrest hitem⟩
  · intro ⟨a, q, hfirst, hrest⟩
    exact .cons hfirst hrest

theorem safe_many {n : Nat} {p : P} :
    Safe (many item n p) ↔ ∀ i, i < n → ∀ q, After item i p q → Safe (item q) := by
  induction n generalizing p with
  | zero => simp [many]
  | succ n ih =>
      rw [many, safe_bind]
      constructor
      · intro ⟨hfirst, hrest⟩ i hi q hq
        cases i with
        | zero =>
            cases hq
            exact hfirst
        | succ i =>
            obtain ⟨a, r, hitem, hafter⟩ := after_succ_iff.mp hq
            have hsafe := (safe_bind.mp (hrest (a, r) hitem)).1
            exact ih.mp hsafe i (by omega) q hafter
      · intro h
        apply And.intro (h 0 (by omega) p .zero)
        intro (a, q) hitem
        apply safe_bind.mpr
        apply And.intro _ fun _ _ => safe_value _
        apply ih.mpr
        intro i hi r hr
        exact h (i + 1) (by omega) r (.cons hitem hr)

/-- What was read was read at the places reached. -/
theorem after_of_many {n : Nat} {p q : P} {as : List A} (h : many item n p = .value (as, q)) :
    After item n p q ∧ ∀ a ∈ as, ∃ i r r', i < n ∧ After item i p r ∧ item r = .value (a, r') := by
  induction n generalizing p as with
  | zero =>
      cases h
      exact ⟨.zero, nofun⟩
  | succ n ih =>
      rw [many] at h
      obtain ⟨⟨a, r⟩, hitem, h⟩ := bind_eq_value.mp h
      obtain ⟨⟨as', q'⟩, hrest, h⟩ := bind_eq_value.mp h
      cases h
      obtain ⟨hafter, hall⟩ := ih hrest
      apply And.intro (.cons hitem hafter)
      intro a' ha'
      rcases List.mem_cons.mp ha' with rfl | ha'
      · exact ⟨0, p, r, by omega, .zero, hitem⟩
      · obtain ⟨i, r₁, r₂, hi, hr₁, hr₂⟩ := hall a' ha'
        exact ⟨i + 1, r₁, r₂, by omega, .cons hitem hr₁, hr₂⟩

theorem many_add (m n : Nat) (p : P) :
    many item (m + n) p = (many item m p >>= fun x => many item n x.2 >>= fun y =>
      .value (x.1 ++ y.1, y.2)) := by
  induction m generalizing p with
  | zero =>
      rw [Nat.zero_add, many, value_bind]
      cases many item n p <;> rfl
  | succ m ih =>
      rw [Nat.succ_add, many, many]
      cases item p with
      | fault f => rfl
      | null => rfl
      | value x =>
          obtain ⟨a, q⟩ := x
          rw [value_bind, value_bind]
          dsimp only
          rw [ih]
          cases many item m q with
          | fault f => rfl
          | null => rfl
          | value y =>
              rw [value_bind, value_bind, value_bind]
              cases many item n y.2 <;> rfl

theorem many_of_after {n : Nat} {p q : P} (h : After item n p q) :
    ∃ as, many item n p = .value (as, q) := by
  induction h with
  | zero => exact ⟨[], rfl⟩
  | @succ n p q r a _ hitem ih =>
      obtain ⟨as, has⟩ := ih
      have hlast : many item 1 q = .value ([a], r) := by
        rw [many, hitem]
        rfl
      refine ⟨as ++ [a], ?_⟩
      rw [many_add, has, value_bind, hlast, value_bind]

theorem safe_many_add {m n : Nat} {p : P} :
    Safe (many item (m + n) p) ↔
      Safe (many item m p) ∧ ∀ x, many item m p = .value x → Safe (many item n x.2) := by
  rw [many_add, safe_bind]
  apply and_congr_right
  intro _
  apply forall_congr'
  intro x
  apply imp_congr_right
  intro _
  rw [safe_bind]
  exact and_iff_left fun y _ => safe_value _

end Many
end Cone.Lib.Checked
