import Mathlib.Data.List.Basic

/-! # Push parsers

A push parser is handed its input piece by piece.  One call of `f` takes a state and the
rest of the piece, consumes some of it and reports what it saw; the caller's loop calls it
again until the piece is used up.  `none` is a call that does not return.

`Peels f step` says that a call on a longer piece does what calls on single items do, so the
whole input may be read item by item and its cuts do not matter. -/
set_option autoImplicit false
namespace Cone.Lib.PushParser

section Loop
variable {S A E : Type}

/-- What a call does: the items it consumed, the state it leaves, its reports. -/
abbrev Handled (S E : Type) := Option (Nat × S × List E)

/-- `while (cnt) { n=f(ptr, cnt); ptr += n; cnt -= n; }` -/
def feed (f : S → List A → Handled S E) : Nat → S → List A → Option (S × List E)
  | _, s, [] => some (s, [])
  | 0, _, _ :: _ => none
  | fuel + 1, s, cs =>
    match f s cs with
    | none => none
    | some (n, s', es) => (feed f fuel s' (cs.drop n)).map fun r => (r.1, es ++ r.2)

/-- Reports made ahead of a call. -/
def before (es : List E) (r : Handled S E) : Handled S E :=
  r.map fun h => (h.1, h.2.1, es ++ h.2.2)

/-- Reports made ahead of a step. -/
def also (es : List E) (r : S × List E) : S × List E := (r.1, es ++ r.2)

@[simp] theorem before_nil (r : Handled S E) : before [] r = r := by
  cases r with
  | none => rfl
  | some h => rfl

@[simp] theorem before_some (es : List E) (n : Nat) (s : S) (es' : List E) :
    before es (some (n, s, es')) = some (n, s, es ++ es') := rfl

@[simp] theorem before_before (es es' : List E) (r : Handled S E) :
    before es (before es' r) = before (es ++ es') r := by
  cases r with
  | none => rfl
  | some h => simp [before]

@[simp] theorem feed_nil (f : S → List A → Handled S E) (fuel : Nat) (s : S) :
    feed f fuel s [] = some (s, []) := by
  cases fuel with
  | zero => rfl
  | succ fuel => rfl

/-- Item by item. -/
def run (step : S → A → S × List E) (s : S) : List A → S × List E
  | [] => (s, [])
  | c :: cs =>
    let r := step s c
    let rest := run step r.1 cs
    (rest.1, r.2 ++ rest.2)

@[simp] theorem run_nil (step : S → A → S × List E) (s : S) : run step s [] = (s, []) := rfl

@[simp] theorem run_cons (step : S → A → S × List E) (s : S) (c : A) (cs : List A) :
    run step s (c :: cs) =
      ((run step (step s c).1 cs).1, (step s c).2 ++ (run step (step s c).1 cs).2) := rfl

theorem run_append (step : S → A → S × List E) (s : S) (xs ys : List A) :
    run step s (xs ++ ys) =
      ((run step (run step s xs).1 ys).1, (run step s xs).2 ++ (run step (run step s xs).1 ys).2) := by
  induction xs generalizing s with
  | nil => simp
  | cons x xs ih => simp [ih]

end Loop

section Peeling
variable {S A E : Type}

/-- A call that has read a first item with outcome `r` and may go on into `d :: ds`: it stops
in a state from which the rest is read alike, or goes on the way a second call would. -/
def Extends (f : S → List A → Handled S E) (long : Handled S E) (r : S × List E) (d : A)
    (ds : List A) : Prop :=
  (∃ s', long = some (1, s', r.2) ∧ f s' (d :: ds) = f r.1 (d :: ds)) ∨
  (∃ m s' es, f r.1 (d :: ds) = some (m + 1, s', es) ∧ long = some (m + 2, s', r.2 ++ es))

structure Agrees (f : S → List A → Handled S E) (call : List A → Handled S E) (c : A)
    (r : S × List E) : Prop where
  single : call [c] = some (1, r)
  more : ∀ d ds, Extends f (call (c :: d :: ds)) r d ds

def Peels (f : S → List A → Handled S E) (step : S → A → S × List E) : Prop :=
  ∀ s c, Agrees f (f s) c (step s c)

theorem Agrees.of_one {f : S → List A → Handled S E} {call : List A → Handled S E} {c : A}
    {r : S × List E} (one : ∀ ds, call (c :: ds) = some (1, r)) : Agrees f call c r where
  single := one []
  more := by
    intro d ds
    left
    exact ⟨r.1, one (d :: ds), rfl⟩

theorem Agrees.of_eq {f : S → List A → Handled S E} {call call' : List A → Handled S E} {c : A}
    {r : S × List E} (h : Agrees f call' c r) (same : ∀ ds, call (c :: ds) = call' (c :: ds)) :
    Agrees f call c r where
  single := by rw [same, h.single]
  more := by
    intro d ds
    rw [same]
    exact h.more d ds

theorem Agrees.before {f : S → List A → Handled S E} {call : List A → Handled S E} {c : A}
    {r : S × List E} (h : Agrees f call c r) (es : List E) :
    Agrees f (fun cs => PushParser.before es (call cs)) c (also es r) where
  single := by
    rw [h.single]
    rfl
  more := by
    intro d ds
    rcases h.more d ds with ⟨s', long, alike⟩ | ⟨m, s', es', second, long⟩
    · left
      exact ⟨s', by simp [long, also], alike⟩
    · right
      exact ⟨m, s', es', second, by simp [long, also]⟩

theorem feed_congr (f : S → List A → Handled S E) (fuel : Nat) (s s' : S) (cs : List A)
    (ne : cs ≠ []) (alike : f s cs = f s' cs) : feed f fuel s cs = feed f fuel s' cs := by
  cases cs with
  | nil => exact absurd rfl ne
  | cons c cs =>
      cases fuel with
      | zero => rfl
      | succ fuel => simp only [feed, alike]

theorem feed_succ (f : S → List A → Handled S E) (fuel : Nat) (s : S) (cs : List A)
    (r : S × List E) (returns : feed f fuel s cs = some r) : feed f (fuel + 1) s cs = some r := by
  induction fuel generalizing s cs r with
  | zero =>
      cases cs with
      | nil => simpa using returns
      | cons c cs => simp [feed] at returns
  | succ fuel ih =>
      cases cs with
      | nil => simpa using returns
      | cons c cs =>
          simp only [feed] at returns ⊢
          cases call : f s (c :: cs) with
          | none => simp [call] at returns
          | some h =>
              obtain ⟨n, s', es⟩ := h
              simp only [call] at returns ⊢
              cases left : feed f fuel s' ((c :: cs).drop n) with
              | none => simp [left] at returns
              | some r' =>
                  rw [ih s' _ r' left]
                  simpa [left] using returns

/-- The loop returns, and reads its piece item by item. -/
theorem feed_eq_run {f : S → List A → Handled S E} {step : S → A → S × List E}
    (peels : Peels f step) (cs : List A) :
    ∀ (s : S) (fuel : Nat), cs.length ≤ fuel → feed f fuel s cs = some (run step s cs) := by
  induction cs with
  | nil =>
      intro s fuel _
      simp
  | cons c cs ih =>
      intro s fuel enough
      cases fuel with
      | zero => simp at enough
      | succ fuel =>
          have enough' : cs.length ≤ fuel := by simpa using enough
          cases cs with
          | nil => simp [feed, (peels s c).single]
          | cons d ds =>
              have next := ih (step s c).1 fuel enough'
              rcases (peels s c).more d ds with ⟨s', call, alike⟩ | ⟨m, s', es, second, call⟩
              · -- the call stopped after `c`
                have rest : feed f fuel s' (d :: ds) = some (run step (step s c).1 (d :: ds)) := by
                  rw [feed_congr f fuel s' (step s c).1 (d :: ds) (by simp) alike, next]
                simp only [feed, call, List.drop_succ_cons, List.drop_zero, rest]
                rfl
              · -- the call went on into `d :: ds`
                cases fuel with
                | zero => simp at enough'
                | succ fuel =>
                    have rest := ih (step s c).1 (fuel + 1) enough'
                    simp only [feed, second, List.drop_succ_cons] at rest
                    cases left : feed f fuel s' (ds.drop m) with
                    | none => simp [left] at rest
                    | some r =>
                        have again := feed_succ f fuel s' (ds.drop m) r left
                        rw [left] at rest
                        simp only [feed, call, List.drop_succ_cons, again, run_cons (c := c)]
                        have := Option.some.inj rest
                        simp [← this, List.append_assoc]

end Peeling

end Cone.Lib.PushParser
