import Cone.Lib.ReturnCode

/-! # Machines that hold values back

A machine reads a text item by item and puts one value for each item into a sink.  The value
of an item may depend on what follows it, so the machine may hold values back until later
items decide them.  `held s rest` are the values it still owes in the state `s` when `rest` is
all that is to come. -/
set_option autoImplicit false
namespace Cone.Lib.HeldBack
open Cone.Lib.ReturnCode

section Batch
variable {C V : Type}

/-- The values of a text, by what stands before an item (nearest first), the item, and what
follows it. -/
def batch (value : List C → C → List C → V) : List C → List C → List V
  | _, [] => []
  | before, c :: rest => value before c rest :: batch value (c :: before) rest

@[simp] theorem batch_nil (value : List C → C → List C → V) (before : List C) :
    batch value before [] = [] := rfl

@[simp] theorem batch_cons (value : List C → C → List C → V) (before : List C) (c : C)
    (rest : List C) :
    batch value before (c :: rest) = value before c rest :: batch value (c :: before) rest := rfl

@[simp] theorem length_batch (value : List C → C → List C → V) (before text : List C) :
    (batch value before text).length = text.length := by
  induction text generalizing before with
  | nil => rfl
  | cons c rest ih => simp [ih]

end Batch

section Machine
variable {S C V A : Type}

/-- `while (cnt) { rc=next(s, *chars++); if (rc) return rc; }` -/
def feed (next : S → C → Int × S) : S → List C → Int × S
  | s, [] => (0, s)
  | s, c :: cs => andThen (next s c) fun s' => feed next s' cs

@[simp] theorem feed_nil (next : S → C → Int × S) (s : S) : feed next s [] = (0, s) := rfl

@[simp] theorem feed_cons (next : S → C → Int × S) (s : S) (c : C) (cs : List C) :
    feed next s (c :: cs) = andThen (next s c) fun s' => feed next s' cs := rfl

theorem feed_map {D : Type} (next : S → C → Int × S) (f : D → C) (s : S) (ds : List D) :
    feed (fun s d => next s (f d)) s ds = feed next s (ds.map f) := by
  induction ds generalizing s with
  | nil => rfl
  | cons d ds ih => simp only [List.map_cons, feed_cons, ih]

/-- `Reads before s`: the machine may be in the state `s` after `before`. -/
structure Machine (S C V A : Type) where
  put : A → V → A
  sink : S → A
  next : S → C → Int × S
  value : List C → C → List C → V
  Reads : List C → S → Prop
  held : S → List C → List V

variable (m : Machine S C V A)

def Machine.Emits (s s' : S) (out : List V) : Prop :=
  m.sink s' = out.foldl m.put (m.sink s)

theorem Machine.Emits.refl (s : S) : m.Emits s s [] := rfl

variable {m}

theorem Machine.Emits.trans {s s' s'' : S} {out out' : List V} (h : m.Emits s s' out)
    (h' : m.Emits s' s'' out') : m.Emits s s'' (out ++ out') := by
  unfold Machine.Emits at *
  rw [h', h, List.foldl_append]

/-- One item: the machine succeeds and, whatever follows, still owes what it owed, with the
value of this item at the end and without what it has put out. -/
def Machine.Step (m : Machine S C V A) (before : List C) (s : S) (c : C) (r : Int × S) : Prop :=
  r.1 = 0 ∧ m.Reads (c :: before) r.2 ∧
    ∃ out, m.Emits s r.2 out ∧
      ∀ rest, out ++ m.held r.2 rest = m.held s (c :: rest) ++ [m.value before c rest]

theorem Machine.Step.after {before : List C} {s s' : S} {c : C} {r : Int × S} {out : List V}
    (step : m.Step before s' c r) (emits : m.Emits s s' out)
    (owes : ∀ rest, m.held s (c :: rest) = out ++ m.held s' (c :: rest)) :
    m.Step before s c r := by
  obtain ⟨ok, reads, out', emits', owes'⟩ := step
  refine ⟨ok, reads, out ++ out', emits.trans emits', ?_⟩
  intro rest
  rw [List.append_assoc, owes' rest, owes rest, List.append_assoc]

def Machine.Sound (m : Machine S C V A) : Prop :=
  ∀ before s c, m.Reads before s → m.Step before s c (m.next s c)

theorem Machine.Sound.feed (sound : m.Sound) {before : List C} {s : S} (text : List C)
    (reads : m.Reads before s) :
    ∃ s' out, Lib.HeldBack.feed m.next s text = (0, s') ∧ m.Reads (text.reverse ++ before) s' ∧
      m.Emits s s' out ∧
      ∀ rest, out ++ m.held s' rest ++ batch m.value (text.reverse ++ before) rest =
        m.held s (text ++ rest) ++ batch m.value before (text ++ rest) := by
  induction text generalizing before s with
  | nil => exact ⟨s, [], rfl, reads, Machine.Emits.refl m s, fun rest => by simp⟩
  | cons c text ih =>
      obtain ⟨ok, reads', out, emits, owes⟩ := sound before s c reads
      obtain ⟨s', out', run, last, emits', owes'⟩ := ih reads'
      refine ⟨s', out ++ out', ?_, ?_, emits.trans emits', ?_⟩
      · rw [feed_cons, ← run, show m.next s c = (0, (m.next s c).2) from Prod.ext ok rfl,
          andThen_ok]
      · simpa using last
      · intro rest
        have here := owes (text ++ rest)
        have later := owes' rest
        simp only [List.reverse_cons, List.append_assoc, List.cons_append, List.nil_append,
          batch_cons] at later ⊢
        rw [later, ← List.append_assoc, here]
        simp

end Machine

end Cone.Lib.HeldBack
