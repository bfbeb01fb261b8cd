import Mathlib.Data.List.Basic

/-! # Return codes

A C function that updates a state and returns an `int`, zero for success, is a function
`S → Int × S`.  `andThen` is the idiom `if ((rc=f()) != 0) return rc;`.  A `Callback` is an
output function with the client's own state behind its `void *` argument. -/
set_option autoImplicit false
namespace Cone.Lib.ReturnCode

section Sequence
variable {S : Type}

def andThen (r : Int × S) (next : S → Int × S) : Int × S :=
  if r.1 ≠ 0 then r else next r.2

@[simp] theorem andThen_ok (s : S) (next : S → Int × S) : andThen (0, s) next = next s := by
  simp [andThen]

/-- What the first step and, when that succeeds, the second one give has `P`. -/
theorem andThen_rule (P : Int × S → Prop) (r : Int × S) (next : S → Int × S) (first : P r)
    (later : r.1 = 0 → P (next r.2)) : P (andThen r next) := by
  rw [andThen]
  by_cases stop : r.1 ≠ 0
  · rw [if_pos stop]
    exact first
  · rw [if_neg stop]
    exact later (not_not.mp stop)

end Sequence

abbrev Callback (σ : Type) := List UInt8 → σ → Int × σ

def collect : Callback (List UInt8) := fun bytes got => (0, got ++ bytes)

@[simp] theorem collect_apply (bytes got : List UInt8) : collect bytes got = (0, got ++ bytes) := rfl

/-! ## Failures -/

section Watch
variable {S : Type}

/-- The return code says whether something has failed on the way. -/
def Honest (failed : S → Bool) (r : Int × S) : Prop := failed r.2 = true ↔ r.1 ≠ 0

/-- The client `u` with a record of whether it has failed. -/
def watched {σ : Type} (u : Callback σ) : Callback (σ × Bool) := fun bytes s =>
  let r := u bytes s.1
  (r.1, (r.2, s.2 || decide (r.1 ≠ 0)))

theorem watched_honest {σ : Type} (u : Callback σ) (bytes : List UInt8) (m : σ) :
    Honest Prod.snd (watched u bytes (m, false)) := by
  simp [Honest, watched]

end Watch

end Cone.Lib.ReturnCode
