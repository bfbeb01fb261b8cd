import Cone.Wordbreak

/-! # The word boundary rules over a whole text

`value before cl after` is the rule value of a character of class `cl`, from the classes before
it (nearest first) and after it.  The handlers of `Wordbreak` put out these values, some of
them late: `held` lists what each handler still owes. -/
set_option autoImplicit false
namespace Cone.WordbreakRules
open Cone.Lib.ReturnCode
open Cone.Lib.HeldBack
open Cone.UnicodeTablookup
open Cone.Wordbreak
open WbClass

/-! ## The rules -/

/-- WB4: `cl` belongs to the character before it. -/
def attached (cl : WbClass) : List WbClass → Bool
  | [] => false
  | prev :: _ => cl.isSkipped && !prev.isNewline

def bases : List WbClass → List WbClass
  | [] => []
  | cl :: before => if attached cl before then bases before else cl :: bases before

def nextBase (after : List WbClass) : Option WbClass := after.find? fun cl => !cl.isSkipped

/-- WB13 to WB14. -/
def afterWb12 (prev cl : WbClass) : Int :=
  if prev = .katakana ∧ cl = .katakana then 0
  else if (prev = .aLetter ∨ prev = .numeric ∨ prev = .katakana ∨ prev = .extendNumLet) ∧
      cl = .extendNumLet then 0
  else if prev = .extendNumLet ∧ (cl = .aLetter ∨ cl = .numeric ∨ cl = .katakana) then 0
  else 1

def rules (prev2 : Option WbClass) (prev cl : WbClass) (next : Option WbClass) : Int :=
  if prev = .aLetter ∧ cl = .aLetter then 0 -- WB5
  else if prev = .aLetter ∧ cl.inMidLetter ∧ next = some .aLetter then 0 -- WB6
  else if prev2 = some .aLetter ∧ prev.inMidLetter ∧ cl = .aLetter then 0 -- WB7
  else if prev = .numeric ∧ cl = .numeric then 0 -- WB8
  else if prev = .aLetter ∧ cl = .numeric then 0 -- WB9
  else if prev = .numeric ∧ cl = .aLetter then 0 -- WB10
  else if prev2 = some .numeric ∧ prev.inMidNum ∧ cl = .numeric then 0 -- WB11
  else if prev = .numeric ∧ cl.inMidNum ∧ next = some .numeric then 0 -- WB12
  else afterWb12 prev cl

def value (before : List WbClass) (cl : WbClass) (after : List WbClass) : Int :=
  match before, bases before with
  | prev :: _, base :: more =>
    if prev = .cr ∧ cl = .lf then 0 -- WB3
    else if prev.isNewline then 1 -- WB3a
    else if cl.isNewline then 1 -- WB3b
    else if cl.isSkipped then 0 -- WB4
    else rules more.head? base cl (nextBase after)
  | _, _ => 1 -- WB1

def wordBreaks (text : List WbClass) : List Int := batch value [] text

/-! ## What WB4 skips -/

section Skipping

theorem bases_of_attached {cl : WbClass} {before : List WbClass} (h : attached cl before = true) :
    bases (cl :: before) = bases before := by
  rw [bases, if_pos h]

theorem bases_of_not_attached {cl : WbClass} {before : List WbClass}
    (h : attached cl before = false) : bases (cl :: before) = cl :: bases before := by
  rw [bases, if_neg (by simp [h])]

theorem isNewline_not_skipped {cl : WbClass} (h : cl.isNewline = true) : cl.isSkipped = false := by
  cases cl <;> first | rfl | cases h

/-- The last base is a line end just when the last character is. -/
theorem bases_head (prev : WbClass) (before : List WbClass) :
    ∃ base more, bases (prev :: before) = base :: more ∧
      (base.isNewline = true ∨ prev.isNewline = true → base = prev) := by
  induction before generalizing prev with
  | nil => exact ⟨prev, [], by simp [bases, attached], fun _ => rfl⟩
  | cons cl before ih =>
      by_cases skip : attached prev (cl :: before) = true
      · obtain ⟨base, more, same, newline⟩ := ih cl
        have both : prev.isSkipped = true ∧ cl.isNewline = false := by simpa [attached] using skip
        refine ⟨base, more, by rw [bases_of_attached skip, same], ?_⟩
        rintro (h | h)
        · rw [newline (.inl h), both.2] at h
          cases h
        · rw [isNewline_not_skipped h] at both
          cases both.1
      · have keep : attached prev (cl :: before) = false := by simpa using skip
        exact ⟨prev, bases (cl :: before), bases_of_not_attached keep, fun _ => rfl⟩

theorem attached_eq (cl : WbClass) {base : WbClass} {before more : List WbClass}
    (last : bases before = base :: more) :
    attached cl before = (cl.isSkipped && !base.isNewline) := by
  cases before with
  | nil => cases last
  | cons prev before =>
      obtain ⟨base', more', shape, newline⟩ := bases_head prev before
      obtain ⟨rfl, rfl⟩ := List.cons.inj (last.symm.trans shape)
      cases hprev : prev.isNewline with
      | true => rw [attached, newline (.inr hprev)]
      | false =>
          cases hbase : base.isNewline with
          | true => rw [newline (.inl hbase), hprev] at hbase; cases hbase
          | false => rw [attached, hprev]

theorem value_eq {base : WbClass} {before more : List WbClass} (cl : WbClass)
    (after : List WbClass) (last : bases before = base :: more) :
    value before cl after =
      if base = .cr ∧ cl = .lf then 0
      else if base.isNewline then 1
      else if cl.isNewline then 1
      else if cl.isSkipped then 0
      else rules more.head? base cl (nextBase after) := by
  cases before with
  | nil => cases last
  | cons prev before =>
      obtain ⟨base', more', shape, newline⟩ := bases_head prev before
      obtain ⟨rfl, rfl⟩ := List.cons.inj (last.symm.trans shape)
      simp only [value, shape]
      by_cases either : base.isNewline = true ∨ prev.isNewline = true
      · rw [newline either]
      · have notBase : base.isNewline = false := by simpa using fun h => either (.inl h)
        have notPrev : prev.isNewline = false := by simpa using fun h => either (.inr h)
        have crBase : base ≠ .cr := by rintro rfl; cases notBase
        have crPrev : prev ≠ .cr := by rintro rfl; cases notPrev
        simp only [crBase, crPrev, notBase, notPrev, false_and, if_false, Bool.false_eq_true]

theorem nextBase_skip {cl : WbClass} (h : cl.isSkipped = true) (after : List WbClass) :
    nextBase (cl :: after) = nextBase after := by
  simp [nextBase, h]

theorem nextBase_keep {cl : WbClass} (h : cl.isSkipped = false) (after : List WbClass) :
    nextBase (cl :: after) = some cl := by
  simp [nextBase, h]

end Skipping

/-! ## What the handlers owe -/

def Unbound (prev2 : Option WbClass) (prev cl : WbClass) : Prop :=
  ¬ (prev2 = some .aLetter ∧ prev.inMidLetter ∧ cl = .aLetter) ∧
    ¬ (prev2 = some .numeric ∧ prev.inMidNum ∧ cl = .numeric)

section Machine
variable {A : Type}

inductive Reads : List WbClass → Info A → Prop
  | sot {i : Info A} (next : i.nextHandler = .sot) (atEnd : i.endHandler = none)
      (fresh : i.wb4Cnt = 0) : Reads [] i
  | done {before more : List WbClass} {i : Info A} (next : i.nextHandler = .wb1and2Done)
      (atEnd : i.endHandler = none) (last : bases before = i.prevclass :: more)
      (free : ∀ cl, Unbound more.head? i.prevclass cl) : Reads before i
  | seenWb67 {before more : List WbClass} {i : Info A} (next : i.nextHandler = .seenWb67Handler)
      (atEnd : i.endHandler = some .seenWb67EndHandler) (mid : i.prevclass.inMidLetter = true)
      (last : bases before = i.prevclass :: .aLetter :: more) : Reads before i
  | seenWb1112 {before more : List WbClass} {i : Info A}
      (next : i.nextHandler = .seenWb1112Handler)
      (atEnd : i.endHandler = some .seenWb1112EndHandler) (mid : i.prevclass.inMidNum = true)
      (last : bases before = i.prevclass :: .numeric :: more) : Reads before i

def heldValue (wanted : WbClass) (rest : List WbClass) : Int :=
  if nextBase rest = some wanted then 0 else 1

def held (i : Info A) (rest : List WbClass) : List Int :=
  List.replicate i.wb4Cnt 0 ++
    match i.nextHandler with
    | .seenWb67Handler => heldValue .aLetter rest :: List.replicate i.wb4ExtraCnt 0
    | .seenWb1112Handler => heldValue .numeric rest :: List.replicate i.wb4ExtraCnt 0
    | _ => []

def put (cb : Int → A → Int × A) (a : A) (flag : Int) : A := (cb flag a).2

def machine (cb : Int → A → Int × A) : Machine (Info A) WbClass Int A where
  put := put cb
  sink := Info.cbArg
  next := nextHandler cb
  value := value
  Reads := Reads
  held := held

end Machine

/-! ## The values that are put out -/

section Output
variable {A : Type} {cb : Int → A → Int × A}

def flush (cb : Int → A → Int × A) (i : Info A) (flags : List Int) : Info A :=
  { i with
    wb4Cnt := 0
    cbArg := (List.replicate i.wb4Cnt 0 ++ flags).foldl (put cb) i.cbArg }

theorem wb4Loop_eq (ok : ∀ flag a, (cb flag a).1 = 0) (n : Nat) (a : A) :
    wb4Loop cb n 0 a = (0, (List.replicate n 0).foldl (put cb) a) := by
  induction n generalizing a with
  | zero => rfl
  | succ n ih =>
      rw [wb4Loop, if_pos rfl, ok, ih, List.replicate_succ, List.foldl_cons]
      rfl

theorem wb4_eq (ok : ∀ flag a, (cb flag a).1 = 0) (i : Info A) :
    wb4 cb i = (0, flush cb i []) := by
  unfold wb4 flush
  rw [wb4Loop_eq ok, List.append_nil]

theorem result_eq (ok : ∀ flag a, (cb flag a).1 = 0) (i : Info A) (flag : Int) :
    result cb i flag = (0, flush cb i [flag]) := by
  unfold result
  rw [wb4_eq ok, andThen_ok]
  simp only [flush, ok, List.append_nil, List.foldl_append, List.foldl_cons, List.foldl_nil]
  rfl

theorem wb1112Done_eq (ok : ∀ flag a, (cb flag a).1 = 0) (i : Info A) (prev cl : WbClass) :
    wb1112Done cb i prev cl = (0, flush cb i [afterWb12 prev cl]) := by
  unfold wb1112Done afterWb12
  simp only [result_eq ok]
  split_ifs <;> rfl

/-- After `ALetter`, the second character starts no other look-ahead. -/
theorem wb67Done_keeps_handlers (ok : ∀ flag a, (cb flag a).1 = 0) (i : Info A) {cl : WbClass}
    (mid : cl.inMidLetter = true) : wb67Done cb i .aLetter cl = (0, flush cb i [1]) := by
  unfold wb67Done
  rw [if_neg (by simp), if_neg, if_neg (by simp), if_neg (by simp), wb1112Done_eq ok]
  · cases cl <;> first | rfl | cases mid
  · rintro ⟨-, rfl⟩
    cases mid

theorem emits_flush (cb : Int → A → Int × A) (i : Info A) (flags : List Int) :
    (machine cb).Emits i (flush cb i flags) (List.replicate i.wb4Cnt 0 ++ flags) := rfl

end Output

/-! ## One character -/

section Step
variable {A : Type} {cb : Int → A → Int × A} {before more : List WbClass} {i : Info A}
  {cl : WbClass}

theorem step_result (ok : ∀ flag a, (cb flag a).1 = 0) {flag : Int}
    (next : i.nextHandler = .wb1and2Done) (atEnd : i.endHandler = none)
    (last : bases before = i.prevclass :: more) (keep : attached cl before = false)
    (free : ∀ cl', Unbound (some i.prevclass) cl cl')
    (val : ∀ rest, value before cl rest = flag) :
    (machine cb).Step before i cl (result cb { i with prevclass := cl } flag) := by
  rw [result_eq ok]
  refine ⟨rfl, ?_, List.replicate i.wb4Cnt 0 ++ [flag], rfl, ?_⟩
  · have shape : bases (cl :: before) = cl :: i.prevclass :: more := by
      rw [bases_of_not_attached keep, last]
    exact @Reads.done A _ (i.prevclass :: more) _ next atEnd shape free
  · intro rest
    show List.replicate i.wb4Cnt 0 ++ [flag] ++ held _ rest = held i (cl :: rest) ++ [value _ _ _]
    rw [val rest]
    simp [held, flush, next]

theorem unbound_of_not_mid {prev2 : Option WbClass} {prev : WbClass}
    (letter : prev.inMidLetter = false) (num : prev.inMidNum = false) (cl : WbClass) :
    Unbound prev2 prev cl := by
  simp [Unbound, letter, num]

/-- A character of WB6, WB12 or WB5 to WB14 has no look-ahead of its own when it is no
`Mid` character. -/
theorem rules_wb6 {prev2 next : Option WbClass} {cl : WbClass} (mid : cl.inMidLetter = true) :
    rules prev2 .aLetter cl next = if next = some .aLetter then 0 else 1 := by
  cases cl <;> simp_all [rules, inMidLetter, inMidNum, afterWb12]

theorem rules_wb7 {prev : WbClass} {next : Option WbClass} (mid : prev.inMidLetter = true) :
    rules (some .aLetter) prev .aLetter next = 0 := by
  cases prev <;> first | rfl | cases mid

theorem rules_wb11 {prev : WbClass} {next : Option WbClass} (mid : prev.inMidNum = true) :
    rules (some .numeric) prev .numeric next = 0 := by
  cases prev <;> first | rfl | cases mid

theorem afterWb12_numeric {cl : WbClass} (mid : cl.inMidNum = true) :
    afterWb12 .numeric cl = 1 := by
  cases cl <;> first | rfl | cases mid

theorem rules_wb12 {prev2 next : Option WbClass} {cl : WbClass} (mid : cl.inMidNum = true) :
    rules prev2 .numeric cl next = if next = some .numeric then 0 else 1 := by
  cases cl <;> simp_all [rules, inMidLetter, inMidNum, afterWb12]

theorem rules_direct {prev2 next : Option WbClass} {prev cl : WbClass}
    (free : Unbound prev2 prev cl) (wb5 : ¬ (prev = .aLetter ∧ cl = .aLetter))
    (wb6 : ¬ (prev = .aLetter ∧ cl.inMidLetter = true))
    (wb12 : ¬ (prev = .numeric ∧ cl.inMidNum = true)) :
    rules prev2 prev cl next =
      if prev = .numeric ∧ cl = .numeric then 0
      else if prev = .aLetter ∧ cl = .numeric then 0
      else if prev = .numeric ∧ cl = .aLetter then 0
      else afterWb12 prev cl := by
  have held6 : ¬ (prev = .aLetter ∧ cl.inMidLetter = true ∧ next = some .aLetter) :=
    fun h => wb6 ⟨h.1, h.2.1⟩
  have held12 : ¬ (prev = .numeric ∧ cl.inMidNum = true ∧ next = some .numeric) :=
    fun h => wb12 ⟨h.1, h.2.1⟩
  unfold rules
  rw [if_neg wb5, if_neg held6, if_neg free.1, if_neg free.2, if_neg held12]

theorem step_wb67Done (ok : ∀ flag a, (cb flag a).1 = 0)
    (next : i.nextHandler = .wb1and2Done) (atEnd : i.endHandler = none)
    (last : bases before = i.prevclass :: more) (free : Unbound more.head? i.prevclass cl)
    (base : cl.isSkipped = false)
    (val : ∀ rest, value before cl rest = rules more.head? i.prevclass cl (nextBase rest))
    (wb5 : ¬ (i.prevclass = .aLetter ∧ cl = .aLetter))
    (wb6 : ¬ (i.prevclass = .aLetter ∧ cl.inMidLetter = true)) :
    (machine cb).Step before i cl
      (wb67Done cb { i with prevclass := cl } i.prevclass cl) := by
  have keep : attached cl before = false := by rw [attached_eq _ last, base, Bool.false_and]
  by_cases wb12 : i.prevclass = .numeric ∧ cl.inMidNum = true
  · -- held back until the next character that counts
    have notNumeric : cl ≠ .numeric := by
      rintro rfl
      cases wb12.2
    have notLetter : cl ≠ .aLetter := by
      rintro rfl
      cases wb12.2
    unfold wb67Done
    rw [if_neg (fun h => notNumeric h.2), if_neg (fun h => notNumeric h.2),
      if_neg (fun h => notLetter h.2), if_pos wb12]
    have shape : bases (cl :: before) = cl :: .numeric :: more := by
      rw [bases_of_not_attached keep, last, wb12.1]
    refine ⟨rfl, Reads.seenWb1112 rfl rfl wb12.2 shape, [], rfl, ?_⟩
    intro rest
    show [] ++ held _ rest = held i (cl :: rest) ++ [value before cl rest]
    rw [val rest, wb12.1, rules_wb12 wb12.2]
    simp [held, setHandler, next, heldValue]
  · have direct : ∀ flag, (∀ rest, value before cl rest = flag) →
        (machine cb).Step before i cl (result cb { i with prevclass := cl } flag) := by
      intro flag val'
      refine step_result ok next atEnd last keep ?_ val'
      intro cl'
      exact ⟨fun h => wb6 ⟨Option.some.inj h.1, h.2.1⟩, fun h => wb12 ⟨Option.some.inj h.1, h.2.1⟩⟩
    simp only [rules_direct free wb5 wb6 wb12] at val
    unfold wb67Done
    by_cases wb8 : i.prevclass = .numeric ∧ cl = .numeric
    · rw [if_pos wb8]
      exact direct 0 fun rest => by rw [val, if_pos wb8]
    simp only [if_neg wb8] at val ⊢
    by_cases wb9 : i.prevclass = .aLetter ∧ cl = .numeric
    · rw [if_pos wb9]
      exact direct 0 fun rest => by rw [val, if_pos wb9]
    simp only [if_neg wb9] at val ⊢
    by_cases wb10 : i.prevclass = .numeric ∧ cl = .aLetter
    · rw [if_pos wb10]
      exact direct 0 fun rest => by rw [val, if_pos wb10]
    simp only [if_neg wb10] at val ⊢
    rw [if_neg wb12, wb1112Done_eq ok, ← result_eq ok]
    exact direct _ val

theorem step_wb1and2Done (ok : ∀ flag a, (cb flag a).1 = 0)
    (next : i.nextHandler = .wb1and2Done) (atEnd : i.endHandler = none)
    (last : bases before = i.prevclass :: more) (free : Unbound more.head? i.prevclass cl)
    (skipping : cl.isSkipped = true → ∀ cl', Unbound more.head? i.prevclass cl') :
    (machine cb).Step before i cl (wb1and2Done cb i cl) := by
  have val := fun rest => value_eq cl rest last
  have att := attached_eq cl last
  unfold wb1and2Done
  simp only
  by_cases wb3a : i.prevclass.isNewline = true
  · -- after a line end every character is on its own
    have keep : attached cl before = false := by rw [att, wb3a, Bool.not_true, Bool.and_false]
    have none : ∀ cl', Unbound (some i.prevclass) cl cl' := by
      intro cl'
      constructor
      · rintro ⟨h, -⟩
        rw [Option.some.inj h] at wb3a
        cases wb3a
      · rintro ⟨h, -⟩
        rw [Option.some.inj h] at wb3a
        cases wb3a
    by_cases wb3 : i.prevclass = .cr ∧ cl = .lf
    · rw [if_pos wb3]
      exact step_result ok next atEnd last keep none fun rest => by rw [val, if_pos wb3]
    · rw [if_neg wb3, if_pos wb3a]
      exact step_result ok next atEnd last keep none fun rest => by
        rw [val, if_neg wb3, if_pos wb3a]
  have wb3 : ¬ (i.prevclass = .cr ∧ cl = .lf) := by
    rintro ⟨h, -⟩
    rw [h] at wb3a
    exact wb3a rfl
  simp only [if_neg wb3, if_neg wb3a] at val ⊢
  by_cases wb3b : cl.isNewline = true
  · rw [if_pos wb3b]
    have keep : attached cl before = false := by
      rw [att, isNewline_not_skipped wb3b, Bool.false_and]
    refine step_result ok next atEnd last keep (unbound_of_not_mid ?_ ?_) fun rest => ?_
    · cases cl <;> first | rfl | cases wb3b
    · cases cl <;> first | rfl | cases wb3b
    · rw [val, if_pos wb3b]
  simp only [if_neg wb3b] at val ⊢
  by_cases wb4 : cl.isSkipped = true
  · rw [if_pos wb4]
    have join : attached cl before = true := by
      rw [att, wb4, Bool.true_and]
      simpa using wb3a
    refine ⟨rfl, Reads.done next atEnd ((bases_of_attached join).trans last) (skipping wb4), [],
      rfl, ?_⟩
    intro rest
    show [] ++ held _ rest = held i (cl :: rest) ++ [value before cl rest]
    rw [val rest, if_pos wb4]
    simp [held, next, List.replicate_succ']
  simp only [if_neg wb4] at val ⊢
  have base : cl.isSkipped = false := by simpa using wb4
  have keep : attached cl before = false := by rw [att, base, Bool.false_and]
  by_cases wb5 : i.prevclass = .aLetter ∧ cl = .aLetter
  · rw [if_pos wb5]
    refine step_result ok next atEnd last keep (unbound_of_not_mid ?_ ?_) fun rest => ?_
    · rw [wb5.2]
      rfl
    · rw [wb5.2]
      rfl
    · rw [val, rules, if_pos wb5]
  rw [if_neg wb5]
  by_cases wb6 : i.prevclass = .aLetter ∧ cl.inMidLetter = true
  · rw [if_pos wb6]
    have shape : bases (cl :: before) = cl :: .aLetter :: more := by
      rw [bases_of_not_attached keep, last, wb6.1]
    refine ⟨rfl, Reads.seenWb67 rfl rfl wb6.2 shape, [], rfl, ?_⟩
    intro rest
    show [] ++ held _ rest = held i (cl :: rest) ++ [value before cl rest]
    rw [val rest, wb6.1, rules_wb6 wb6.2]
    simp [held, setHandler, next, heldValue]
  · rw [if_neg wb6]
    exact step_wb67Done ok next atEnd last free base val wb5 wb6

/-- `i` holds the last base back until it knows whether the next one is `lead`. -/
def Owes (i : Info A) (lead : WbClass) : Prop :=
  ∀ extra rest, held { i with wb4ExtraCnt := extra } rest =
    List.replicate i.wb4Cnt 0 ++ heldValue lead rest :: List.replicate extra 0

variable {lead : WbClass}

theorem not_newline_of_mid {prev : WbClass}
    (mid : prev.inMidLetter = true ∨ prev.inMidNum = true) : prev.isNewline = false := by
  rcases mid with mid | mid <;> cases prev <;> first | rfl | cases mid

theorem step_skipped (owes : Owes i lead) (last : bases before = i.prevclass :: more)
    (mid : i.prevclass.isNewline = false) (skip : cl.isSkipped = true)
    (reads : bases (cl :: before) = bases before →
      Reads (cl :: before) { i with wb4ExtraCnt := i.wb4ExtraCnt + 1 }) :
    (machine cb).Step before i cl (0, { i with wb4ExtraCnt := i.wb4ExtraCnt + 1 }) := by
  have join : attached cl before = true := by rw [attached_eq _ last, skip, mid]; rfl
  refine ⟨rfl, reads (bases_of_attached join), [], rfl, ?_⟩
  intro rest
  have now := owes i.wb4ExtraCnt (cl :: rest)
  have zero : value before cl rest = 0 := by
    have notEnd : cl.isNewline = false := by
      cases h : cl.isNewline with
      | false => rfl
      | true => rw [isNewline_not_skipped h] at skip; cases skip
    rw [value_eq cl rest last, mid, notEnd, skip, if_neg]
    · rfl
    · rintro ⟨-, rfl⟩
      cases skip
  show [] ++ held _ rest = held i (cl :: rest) ++ [value before cl rest]
  rw [owes, zero, show held i (cl :: rest) = _ from now, heldValue, heldValue, nextBase_skip skip,
    List.replicate_succ']
  simp

theorem step_matched (ok : ∀ flag a, (cb flag a).1 = 0) (owes : Owes i lead)
    (last : bases before = i.prevclass :: lead :: more) (base : lead.isSkipped = false)
    (letter : lead.inMidLetter = false) (num : lead.inMidNum = false)
    (val : ∀ rest, value before lead rest = 0) :
    (machine cb).Step before i lead
      (matched cb (setHandler i .wb1and2Done none) i.wb4ExtraCnt lead) := by
  have keep : attached lead before = false := by rw [attached_eq _ last, base, Bool.false_and]
  have shape : bases (lead :: before) = lead :: i.prevclass :: lead :: more := by
    rw [bases_of_not_attached keep, last]
  unfold matched
  simp only [result_eq ok, if_true]
  have emits := (emits_flush cb (setHandler i .wb1and2Done none) [0]).trans
    (show (machine cb).Emits _ { flush cb { flush cb (setHandler i .wb1and2Done none) [0] with
      wb4Cnt := i.wb4ExtraCnt } [0] with prevclass := lead }
      (List.replicate i.wb4ExtraCnt 0 ++ [0]) from rfl)
  refine ⟨rfl, Reads.done rfl rfl shape (unbound_of_not_mid letter num), _, emits, ?_⟩
  · intro rest
    have now := owes i.wb4ExtraCnt (lead :: rest)
    show _ ++ held _ rest = held i (lead :: rest) ++ [value before lead rest]
    rw [val, show held i (lead :: rest) = _ from now, heldValue, nextBase_keep base, if_pos rfl]
    simp [held, flush, setHandler]

theorem step_replay (ok : ∀ flag a, (cb flag a).1 = 0) (owes : Owes i lead)
    (last : bases before = i.prevclass :: lead :: more) (base : cl.isSkipped = false)
    (other : cl ≠ lead) {done : Info A → WbClass → Int × Info A}
    (settled : ∀ i', done i' i.prevclass = (0, flush cb i' [1])) :
    (machine cb).Step before i cl
      (replay cb (setHandler i .wb1and2Done none) i.wb4ExtraCnt cl done) := by
  unfold replay
  simp only [show (setHandler i .wb1and2Done none).prevclass = i.prevclass from rfl, settled,
    if_true]
  have free : Unbound (some lead) i.prevclass cl := by
    constructor
    · rintro ⟨h, -, h'⟩
      exact other (h'.trans (Option.some.inj h).symm)
    · rintro ⟨h, -, h'⟩
      exact other (h'.trans (Option.some.inj h).symm)
  have step : (machine cb).Step before
      { flush cb (setHandler i .wb1and2Done none) [1] with
        prevclass := i.prevclass, wb4Cnt := i.wb4ExtraCnt } cl (wb1and2Done cb _ cl) :=
    step_wb1and2Done ok rfl rfl last free fun skip => by rw [base] at skip; cases skip
  have emits : (machine cb).Emits i
      { flush cb (setHandler i .wb1and2Done none) [1] with
        prevclass := i.prevclass, wb4Cnt := i.wb4ExtraCnt }
      (List.replicate i.wb4Cnt 0 ++ [1]) := rfl
  refine step.after emits ?_
  intro rest
  have now := owes i.wb4ExtraCnt (cl :: rest)
  show held i (cl :: rest) = _
  rw [show held i (cl :: rest) = _ from now, heldValue, nextBase_keep base, if_neg]
  · simp [machine, held, flush, setHandler]
  · exact fun h => other (Option.some.inj h)

/-- Every handler. -/
theorem machine_sound (ok : ∀ flag a, (cb flag a).1 = 0) : (machine cb).Sound := by
  intro before i cl reads
  show (machine cb).Step before i cl (nextHandler cb i cl)
  unfold nextHandler
  cases reads with
  | sot next atEnd fresh =>
      rw [next]
      show (machine cb).Step [] i cl (sot cb i cl)
      unfold sot
      rw [result_eq ok]
      refine ⟨rfl, @Reads.done A _ [] _ rfl rfl rfl ?_, [1], ?_, ?_⟩
      · intro cl'
        constructor
        · rintro ⟨h, -⟩
          cases h
        · rintro ⟨h, -⟩
          cases h
      · simp [Machine.Emits, machine, flush, setHandler, fresh]
      · intro rest
        simp [machine, held, flush, setHandler, fresh, next, value]
  | done next atEnd last free =>
      rw [next]
      exact step_wb1and2Done ok next atEnd last (free cl) fun _ => free
  | seenWb67 next atEnd mid last =>
      rw [next]
      have owes : Owes i .aLetter := by
        intro extra rest
        simp [held, next]
      show (machine cb).Step before i cl (seenWb67Handler cb i cl)
      unfold seenWb67Handler
      by_cases skip : cl.isSkipped = true
      · rw [if_pos skip]
        exact step_skipped owes last (not_newline_of_mid (.inl mid)) skip fun same =>
          Reads.seenWb67 next atEnd mid (same.trans last)
      rw [if_neg skip]
      have base : cl.isSkipped = false := by simpa using skip
      by_cases wb6 : cl = .aLetter
      · subst wb6
        simp only [if_true]
        refine step_matched ok owes last rfl rfl rfl fun rest => ?_
        rw [value_eq _ rest last, not_newline_of_mid (.inl mid), if_neg (fun h => nomatch h.2)]
        exact rules_wb7 mid
      · simp only [if_neg wb6]
        exact step_replay ok owes last base wb6 fun i' => wb67Done_keeps_handlers ok i' mid
  | seenWb1112 next atEnd mid last =>
      rw [next]
      have owes : Owes i .numeric := by
        intro extra rest
        simp [held, next]
      show (machine cb).Step before i cl (seenWb1112Handler cb i cl)
      unfold seenWb1112Handler
      by_cases skip : cl.isSkipped = true
      · rw [if_pos skip]
        exact step_skipped owes last (not_newline_of_mid (.inr mid)) skip fun same =>
          Reads.seenWb1112 next atEnd mid (same.trans last)
      rw [if_neg skip]
      have base : cl.isSkipped = false := by simpa using skip
      by_cases wb11 : cl = .numeric
      · subst wb11
        simp only [if_true]
        refine step_matched ok owes last rfl rfl rfl fun rest => ?_
        rw [value_eq _ rest last, not_newline_of_mid (.inr mid), if_neg (fun h => nomatch h.2)]
        exact rules_wb11 mid
      · simp only [if_neg wb11]
        refine step_replay ok owes last base wb11 fun i' => ?_
        rw [wb1112Done_eq ok, afterWb12_numeric mid]

theorem settle_eq (ok : ∀ flag a, (cb flag a).1 = 0) {done : Info A → WbClass → Int × Info A}
    (settled : done i i.prevclass = (0, flush cb i [1])) :
    (settle cb i done).1 = 0 ∧ (machine cb).Emits i (settle cb i done).2
      (List.replicate i.wb4Cnt 0 ++ 1 :: List.replicate i.wb4ExtraCnt 0) := by
  unfold settle
  simp only [settled, wb4_eq ok, if_true]
  refine ⟨trivial, ?_⟩
  simp [Machine.Emits, machine, flush]

theorem wbEnd_emits (ok : ∀ flag a, (cb flag a).1 = 0) (reads : Reads before i) :
    (wbEnd cb i).1 = 0 ∧ (machine cb).Emits i (wbEnd cb i).2 (held i []) := by
  unfold wbEnd
  cases reads with
  | sot next atEnd fresh =>
      rw [atEnd]
      simp [wb4_eq ok, held, next, Machine.Emits, machine, flush]
  | done next atEnd last free =>
      rw [atEnd]
      simp [wb4_eq ok, held, next, Machine.Emits, machine, flush]
  | seenWb67 next atEnd mid last =>
      rw [atEnd]
      have owes : held i [] = List.replicate i.wb4Cnt 0 ++ 1 :: List.replicate i.wb4ExtraCnt 0 := by
        simp [held, next, heldValue, nextBase]
      rw [owes]
      exact settle_eq ok (wb67Done_keeps_handlers ok i mid)
  | seenWb1112 next atEnd mid last =>
      rw [atEnd]
      have owes : held i [] = List.replicate i.wb4Cnt 0 ++ 1 :: List.replicate i.wb4ExtraCnt 0 := by
        simp [held, next, heldValue, nextBase]
      rw [owes]
      refine settle_eq ok ?_
      rw [wb1112Done_eq ok, afterWb12_numeric mid]

end Step

end Cone.WordbreakRules
