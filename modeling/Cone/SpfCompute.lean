import Cone.Spf

/-! # The verdict of a record

What `spf_compute` makes of the words of a record, whatever its mechanisms answer, beside the
verdict the record has when every word but the modifiers is evaluated. -/
set_option autoImplicit false
namespace Cone.SpfCompute

open Cone.Ctype Cone.Spf Cone.Lib.Budget

abbrev Text := List UInt8

section Words

def namechar (c : UInt8) : Bool := validchar c || [byte '-', byte '_', byte '.'].contains c

def isalpha (c : UInt8) : Bool :=
  (byte 'A' ≤ c && c ≤ byte 'Z') || (byte 'a' ≤ c && c ≤ byte 'z')

def isModifier (word : Text) : Bool :=
  isalpha (charAt word) && charAt (word.dropWhile namechar) = byte '='

def findRedirect (redirect : Option Text) (words : List Text) : Option Text :=
  words.foldl
    (fun redirect word =>
      if strncasecmp word (str "redirect=") then some (word.drop 9) else redirect) redirect

def prefixOf (word : Text) : UInt8 := if isPrefixChar (charAt word) then charAt word else byte '+'

def nameOf (word : Text) : Text := if isPrefixChar (charAt word) then word.drop 1 else word

end Words

section Verdict
variable (w : World) (mech : Text → Info → Run State UInt8) (lookup : Info → Run State UInt8)
  (info : Info)

/-- The loop of `spf_compute` with any function for `mechanism`. -/
def computeLoop (exp : Option Text) : Option Text → List Text → Run State UInt8
  | redirect, [] => noMatch w lookup info exp redirect
  | redirect, word :: words =>
    let redirect := if strncasecmp word (str "redirect=") then some (word.drop 9) else redirect
    if word.contains (byte '=') then computeLoop exp redirect words
    else do
      let rc ← mech (nameOf word) info
      if rc = SPF_PASS then do
        explain w (if prefixOf word ≠ SPF_PASS then exp else none) info
        pure (prefixOf word)
      else if rc = SPF_FAIL then computeLoop exp redirect words
      else pure rc

def compute (words : List Text) : Run State UInt8 :=
  computeLoop w mech lookup info (findExp words) none words

theorem spfComputeLoop_eq (exp redirect : Option Text) (words : List Text) :
    spfComputeLoop w lookup info exp redirect words =
      computeLoop w (mechanism w lookup) lookup info exp redirect words := by
  induction words generalizing redirect with
  | nil => rfl
  | cons word words ih =>
      rw [spfComputeLoop, computeLoop]
      simp only [ih]
      rfl

theorem spfCompute_eq (words : List Text) :
    spfCompute w lookup words info = compute w (mechanism w lookup) lookup info words :=
  spfComputeLoop_eq w lookup info _ _ words

/-- What ends the evaluation of the directives. -/
inductive Outcome where
  | matched (prefixChar : UInt8)
  | exception (rc : UInt8)
  deriving DecidableEq, Repr

def evaluate : List Text → Run State (Option Outcome)
  | [] => pure none
  | directive :: directives => do
    let rc ← mech (nameOf directive) info
    if rc = SPF_PASS then pure (some (.matched (prefixOf directive)))
    else if rc = SPF_FAIL then evaluate directives
    else pure (some (.exception rc))

def conclude (exp redirect : Option Text) : Option Outcome → Run State UInt8
  | some (.matched prefixChar) => do
    explain w (if prefixChar ≠ SPF_PASS then exp else none) info
    pure prefixChar
  | some (.exception rc) => pure rc
  | none => noMatch w lookup info exp redirect

def verdict (words : List Text) : Run State UInt8 :=
  evaluate mech info (words.filter fun word => !isModifier word) >>=
    conclude w lookup info (findExp words) (findRedirect none words)

end Verdict

section Agreement
variable {w : World} {mech : Text → Info → Run State UInt8} {lookup : Info → Run State UInt8}
  {info : Info}

theorem computeLoop_eq (exp redirect : Option Text) (words : List Text) :
    computeLoop w mech lookup info exp redirect words =
      evaluate mech info (words.filter fun word => !word.contains (byte '=')) >>=
        conclude w lookup info exp (findRedirect redirect words) := by
  induction words generalizing redirect with
  | nil => rfl
  | cons word words ih =>
      rw [computeLoop, findRedirect, List.foldl_cons, ← findRedirect]
      by_cases h : word.contains (byte '=') = true
      · rw [List.filter_cons_of_neg (by rw [h]; decide)]
        simp only [h, if_true]
        exact ih _
      · rw [List.filter_cons_of_pos (by rw [Bool.eq_false_of_not_eq_true h]; rfl), evaluate,
          bind_assoc]
        simp only [h, Bool.false_eq_true, if_false]
        refine bind_congr fun rc => ?_
        by_cases hpass : rc = SPF_PASS
        · rw [if_pos hpass, if_pos hpass, pure_bind]
          rfl
        · rw [if_neg hpass, if_neg hpass]
          by_cases hfail : rc = SPF_FAIL
          · rw [if_pos hfail, if_pos hfail]
            exact ih _
          · rw [if_neg hfail, if_neg hfail, pure_bind]
            rfl

theorem contains_of_isModifier {word : Text} (h : isModifier word = true) :
    word.contains (byte '=') = true := by
  have hchar := of_decide_eq_true (Bool.and_eq_true_iff.1 h).2
  have hmem : byte '=' ∈ word.dropWhile namechar := by
    cases hrest : word.dropWhile namechar with
    | nil =>
        rw [hrest] at hchar
        exact absurd hchar (by decide)
    | cons c rest =>
        rw [hrest] at hchar
        rw [← hchar]
        exact List.mem_cons_self
  exact List.contains_iff_mem.2 ((List.dropWhile_suffix _).subset hmem)

theorem contains_nameOf (word : Text) :
    (nameOf word).contains (byte '=') = word.contains (byte '=') := by
  rw [nameOf]
  by_cases h : isPrefixChar (charAt word) = true
  · rw [if_pos h]
    cases word with
    | nil => rfl
    | cons c word =>
        have hne : byte '=' ≠ c := by
          rintro rfl
          exact absurd h (show ¬ isPrefixChar (byte '=') = true by decide)
        rw [List.contains_cons, beq_false_of_ne hne, Bool.false_or]
        rfl
  · rw [if_neg h]

def throwing (name : Text) (_info : Info) : Run State UInt8 :=
  pure (if name.contains (byte '=') then SPF_UNKNOWN else SPF_FAIL)

theorem evaluate_throwing (words : List Text) :
    evaluate throwing info words =
      pure (if words.any (·.contains (byte '=')) then some (.exception SPF_UNKNOWN) else none) := by
  induction words with
  | nil => rfl
  | cons word words ih =>
      rw [evaluate, throwing, pure_bind, contains_nameOf, List.any_cons]
      by_cases h : word.contains (byte '=') = true
      · rw [h]
        rfl
      · rw [Bool.eq_false_of_not_eq_true h, Bool.false_or, ← ih]
        rfl

theorem noMatch_ne (exp redirect : Option Text) (s t : State) :
    noMatch w (fun _ => pure SPF_NEUTRAL) info exp redirect s ≠ some (SPF_UNKNOWN, t) := by
  intro h
  cases redirect with
  | none =>
      obtain ⟨x, _, hx⟩ := Option.bind_eq_some_iff.1 h
      exact absurd (congrArg Prod.fst (Option.some.inj hx)) (by decide : SPF_NEUTRAL ≠ SPF_UNKNOWN)
  | some domainSpec =>
      obtain ⟨⟨x, u⟩, _, hx⟩ := Option.bind_eq_some_iff.1 h
      cases x with
      | none =>
          exact absurd (congrArg Prod.fst (Option.some.inj hx))
            (by decide : SPF_ERROR ≠ SPF_UNKNOWN)
      | some newDomain =>
          exact absurd (congrArg Prod.fst (Option.some.inj hx))
            (by decide : SPF_NEUTRAL ≠ SPF_UNKNOWN)

theorem compute_eq (words : List Text) :
    compute w mech lookup info words =
      evaluate mech info (words.filter fun word => !word.contains (byte '=')) >>=
        conclude w lookup info (findExp words) (findRedirect none words) :=
  computeLoop_eq _ _ words

theorem compute_of_modifiers {words : List Text}
    (h : ∀ word ∈ words, word.contains (byte '=') = true → isModifier word = true) :
    compute w mech lookup info words = verdict w mech lookup info words := by
  have hfilter : (words.filter fun word => !word.contains (byte '=')) =
      words.filter fun word => !isModifier word := by
    refine List.filter_congr fun word mem => congrArg _ ?_
    rw [Bool.eq_iff_iff]
    exact ⟨h word mem, contains_of_isModifier⟩
  rw [compute_eq, hfilter, verdict]

theorem compute_throwing_ne {words : List Text} {word : Text} (mem : word ∈ words)
    (h : word.contains (byte '=') = true) (hmod : isModifier word ≠ true) (s : State) :
    compute w throwing (fun _ => pure SPF_NEUTRAL) info words s ≠
      verdict w throwing (fun _ => pure SPF_NEUTRAL) info words s := by
  have hcode : (words.filter fun word => !word.contains (byte '=')).any
      (·.contains (byte '=')) = false := by
    refine List.any_eq_false.2 fun d hd => ?_
    simpa using (List.mem_filter.1 hd).2
  have hspec : (words.filter fun word => !isModifier word).any (·.contains (byte '=')) = true := by
    refine List.any_eq_true.2 ⟨word, List.mem_filter.2 ⟨mem, ?_⟩, h⟩
    rw [Bool.eq_false_of_not_eq_true hmod]
    rfl
  rw [compute_eq, verdict, evaluate_throwing, evaluate_throwing, hcode, hspec, pure_bind,
    pure_bind]
  exact noMatch_ne _ _ s s

end Agreement

section Records

theorem compute_verdict (w : World) (record : Text) :
    (∀ lookup info, spfCompute w lookup (getWords record) info =
      compute w (mechanism w lookup) lookup info (getWords record)) ∧
    ((∀ mech lookup info, compute w mech lookup info (getWords record) =
        verdict w mech lookup info (getWords record)) ↔
      ∀ word ∈ getWords record, word.contains (byte '=') = true → isModifier word = true) := by
  refine ⟨fun lookup info => spfCompute_eq w lookup info _, ?_, ?_⟩
  · intro same word mem h
    by_contra hmod
    have hne := @compute_throwing_ne w ⟨[], [], [], [], [], [], 0⟩ _ word mem h hmod
      ⟨0, [], 0, []⟩
    exact hne (congrFun (same _ _ _) _)
  · intro h mech lookup info
    exact compute_of_modifiers h

def found : World where
  gettxt _ := (SPF_NONE, [])
  aton _ := none
  malloc _ := true
  strerror := []
  a _ _ := (0, [])
  mxlist _ _ := (0, [])
  ptr _ _ := .enoent
  txt _ _ := none

def sender : Info := ⟨str "u@d", str "d", str "::1", [], [], [], 0⟩

/-- The directive with the `=` delimiter matches, and is passed over for the one behind it. -/
theorem exists_skipped :
    let words := getWords (str "v=spf1 exists:%{l=}.x -all")
    let lookup := fun _ => pure SPF_NEUTRAL
    let s : State := ⟨0, [], 0, []⟩
    (spfCompute found lookup words sender s).map Prod.fst = some SPF_FAIL ∧
      (verdict found (mechanism found lookup) lookup sender words s).map Prod.fst =
        some SPF_PASS := by
  decide +kernel

end Records
end Cone.SpfCompute
