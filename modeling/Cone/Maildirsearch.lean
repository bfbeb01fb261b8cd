import Mathlib
import Cone.Lib.Borders

/-! # Search of one pattern in a text (`maildirsearch.c`, `maildirsearch.h`)

Indexes are the `unsigned` of the source: they count modulo `2 ^ 32`. Allocations succeed. -/
set_option autoImplicit false
namespace Cone.Maildirsearch
open Cone.Lib.Borders

def unsigned (n : Nat) : Nat := n % 2 ^ 32

/-- A string of `unicode_char`, without the zero that ends it. -/
structure UnicodeString where
  chars : List UInt32
  nonzero : ∀ c ∈ chars, c ≠ 0

/-- `s[k]` -/
def UnicodeString.char (s : UnicodeString) (k : Nat) : UInt32 := s.chars.getD k 0

structure Searchengine where
  string : Option UnicodeString
  string_l : Nat
  ptr : Option UnicodeString
  r : Nat → Nat
  i : Nat

def searchInit : Searchengine :=
  { string := none, string_l := 0, ptr := none, r := fun _ => 0, i := 0 }

def searchReset (sei : Searchengine) : Searchengine := { sei with i := 0, ptr := sei.string }

def searchFound (sei : Searchengine) : Bool :=
  match sei.ptr with
  | none => false
  | some ptr => ptr.char sei.i = 0

/-! ## The back-off table -/

section Start
variable (s : UnicodeString)

def clearLoop : Nat → Nat → (Nat → Nat) → Option (Nat → Nat)
  | 0, _, _ => none
  | fuel + 1, i, r =>
    if s.char i = 0 then some r
    else clearLoop fuel (unsigned (i + 1)) (Function.update r i 0)

/-- The inner loop: how long the string, `i` further on, goes on like its beginning. -/
def overlapLoop (i : Nat) : Nat → Nat → (Nat → Nat) → Option (Nat → Nat)
  | 0, _, _ => none
  | fuel + 1, j, r =>
    let k := unsigned (i + j)
    if s.char k = 0 then some r
    else if s.char j ≠ s.char k then some (if r k < j then Function.update r k j else r)
    else overlapLoop i fuel (unsigned (j + 1)) r

def tableLoop : Nat → Nat → (Nat → Nat) → Option (Nat → Nat)
  | 0, _, _ => none
  | fuel + 1, i, r =>
    if s.char i = 0 then some r
    else match overlapLoop s i fuel 0 r with
      | none => none
      | some r => tableLoop fuel (unsigned (i + 1)) r

/-- `maildir_search_start_unicode`; `fresh` is what `malloc` left in the table. -/
def searchStartUnicode (fuel : Nat) (fresh : Nat → Nat) (sei : Searchengine) : Option Searchengine :=
  match clearLoop s fuel 0 fresh with
  | none => none
  | some r =>
    match tableLoop s fuel 0 r with
    | none => none
    | some r =>
      some (searchReset
        { sei with string := some s, string_l := s.chars.length, r := r, i := 0 })

end Start

/-! ## One character of the text -/

section Step

def backoffLoop (ptr : UnicodeString) (r : Nat → Nat) (ch : UInt32) : Nat → Nat → Option Nat
  | 0, _ => none
  | fuel + 1, i =>
    if ptr.char i = ch then some (unsigned (i + 1))
    else if i = 0 then some i
    else backoffLoop ptr r ch fuel (r i)

def searchStepUnicode (fuel : Nat) (sei : Searchengine) (ch : UInt32) : Option Searchengine :=
  match sei.ptr with
  | none => some sei
  | some ptr =>
    if ptr.char sei.i = 0 then some sei
    else match backoffLoop ptr sei.r ch fuel sei.i with
      | none => none
      | some i => some { sei with i := i }

def searchText (fuel : Nat) (sei : Searchengine) (text : List UInt32) : Option Searchengine :=
  text.foldlM (searchStepUnicode fuel) sei

end Step

/-! ## Characters of the pattern -/

section Chars
variable {s : UnicodeString} {k m : Nat}

theorem char_eq (lt : k < s.chars.length) : s.char k = s.chars[k] := by
  unfold UnicodeString.char
  rw [List.getD_eq_getElem?_getD, List.getElem?_eq_getElem lt, Option.getD_some]

theorem char_eq_zero_iff : s.char k = 0 ↔ s.chars.length ≤ k := by
  by_cases lt : k < s.chars.length
  · rw [char_eq lt]
    exact iff_of_false (s.nonzero _ (List.getElem_mem lt)) (by omega)
  · refine iff_of_true ?_ (by omega)
    unfold UnicodeString.char
    rw [List.getD_eq_getElem?_getD, List.getElem?_eq_none (by omega), Option.getD_none]

theorem char_eq_iff (lt : k < s.chars.length) {c : UInt32} :
    s.char k = c ↔ s.chars[k]? = some c := by
  rw [char_eq lt, List.getElem?_eq_getElem lt, Option.some.injEq]

theorem char_eq_char_iff (ltk : k < s.chars.length) (ltm : m < s.chars.length) :
    s.char m = s.char k ↔ s.chars[m]? = s.chars[k]? := by
  rw [char_eq_iff ltm, List.getElem?_eq_getElem ltk, char_eq ltk]

theorem unsigned_of_lt (lt : k < 2 ^ 32) : unsigned k = k := Nat.mod_eq_of_lt lt

theorem unsigned_lt (k : Nat) : unsigned k < 2 ^ 32 := Nat.mod_lt _ (by omega)

end Chars

/-! ## The table is a back-off table -/

section Table
variable {s : UnicodeString}

theorem clearLoop_clears (short : s.chars.length < 2 ^ 32) :
    ∀ (fuel i : Nat) (r : Nat → Nat), i ≤ s.chars.length → s.chars.length < fuel + i →
      (∀ k < i, r k = 0) →
      ∃ r', clearLoop s fuel i r = some r' ∧ ∀ k < s.chars.length, r' k = 0 := by
  intro fuel
  induction fuel with
  | zero => intro i r le enough _; omega
  | succ fuel ih =>
      intro i r le enough zero
      unfold clearLoop
      by_cases done : s.char i = 0
      · rw [if_pos done]
        have := char_eq_zero_iff.mp done
        exact ⟨r, rfl, fun k lt => zero k (by omega)⟩
      · rw [if_neg done]
        rw [char_eq_zero_iff] at done
        rw [unsigned_of_lt (by omega)]
        refine ih (i + 1) _ (by omega) (by omega) fun k lt => ?_
        by_cases here : k = i
        · rw [here, Function.update_self]
        · rw [Function.update_of_ne here]
          exact zero k (by omega)

theorem overlapLoop_built (short : s.chars.length < 2 ^ 32) {i : Nat} {r : Nat → Nat}
    (built : Built s.chars i r) :
    ∀ (fuel j : Nat), i + j ≤ s.chars.length → s.chars.length < fuel + (i + j) →
      (∀ m < j, s.chars[m]? = s.chars[i + m]?) →
      ∃ r', overlapLoop s i fuel j r = some r' ∧ Built s.chars (i + 1) r' := by
  intro fuel
  induction fuel with
  | zero => intro j le enough _; omega
  | succ fuel ih =>
      intro j le enough same
      unfold overlapLoop
      simp only []
      rw [unsigned_of_lt (show i + j < 2 ^ 32 by omega)]
      by_cases done : s.char (i + j) = 0
      · rw [if_pos done]
        have := char_eq_zero_iff.mp done
        exact ⟨r, rfl, built.whole same (by omega)⟩
      · rw [if_neg done]
        rw [char_eq_zero_iff] at done
        have equal := char_eq_char_iff (s := s) (k := i + j) (m := j) (by omega) (by omega)
        by_cases differ : s.char j ≠ s.char (i + j)
        · rw [if_pos differ]
          exact ⟨_, rfl, built.differ same (fun eq => differ (equal.mpr eq))⟩
        · rw [if_neg differ, unsigned_of_lt (by omega)]
          refine ih (j + 1) (by omega) (by omega) fun m lt => ?_
          by_cases before : m < j
          · exact same m before
          · obtain rfl : m = j := by omega
            exact equal.mp (not_not.mp differ)

theorem tableLoop_built (short : s.chars.length < 2 ^ 32) :
    ∀ (fuel i : Nat) (r : Nat → Nat), i ≤ s.chars.length → 2 * s.chars.length < fuel + i →
      Built s.chars i r →
      ∃ r', tableLoop s fuel i r = some r' ∧ Backoff s.chars r' := by
  intro fuel
  induction fuel with
  | zero => intro i r le enough _; omega
  | succ fuel ih =>
      intro i r le enough built
      unfold tableLoop
      by_cases done : s.char i = 0
      · rw [if_pos done]
        have := char_eq_zero_iff.mp done
        obtain rfl : i = s.chars.length := by omega
        exact ⟨r, rfl, built.backoff⟩
      · rw [if_neg done]
        rw [char_eq_zero_iff] at done
        obtain ⟨r', run, built'⟩ := overlapLoop_built short built fuel 0 (by omega) (by omega)
          fun m lt => by omega
        rw [run]
        simp only []
        rw [unsigned_of_lt (by omega)]
        exact ih (i + 1) r' (by omega) (by omega) built'

/-- An index of 32 bits never gets to the end of a longer string. -/
theorem clearLoop_long (long : 2 ^ 32 ≤ s.chars.length) (fuel : Nat) :
    ∀ (i : Nat) (r : Nat → Nat), i < 2 ^ 32 → clearLoop s fuel i r = none := by
  induction fuel with
  | zero => intro i r _; rfl
  | succ fuel ih =>
      intro i r lt
      unfold clearLoop
      rw [if_neg (by rw [char_eq_zero_iff]; omega)]
      exact ih _ _ (unsigned_lt _)

end Table

/-! ## Search -/

section Search
variable {s : UnicodeString}

/-- What a started engine is, after the text `t`. -/
structure Ready (s : UnicodeString) (sei : Searchengine) (t : List UInt32) : Prop where
  ptr : sei.ptr = some s
  table : Backoff s.chars sei.r
  tracks : Tracks s.chars t sei.i

theorem searchStart_ready (short : s.chars.length < 2 ^ 32) (fresh : Nat → Nat)
    (sei : Searchengine) {fuel : Nat} (enough : 2 * s.chars.length < fuel) :
    ∃ sei', searchStartUnicode s fuel fresh sei = some sei' ∧ Ready s sei' [] := by
  obtain ⟨r, clear, zero⟩ := clearLoop_clears short fuel 0 fresh (Nat.zero_le _) (by omega)
    fun k lt => by omega
  obtain ⟨r', build, table⟩ := tableLoop_built short fuel 0 r (Nat.zero_le _) (by omega)
    (built_zero zero)
  unfold searchStartUnicode
  rw [clear]
  simp only []
  rw [build]
  exact ⟨_, rfl, { ptr := rfl, table := table, tracks := tracks_nil }⟩

theorem backoffLoop_reads (short : s.chars.length < 2 ^ 32) {r : Nat → Nat}
    (table : Backoff s.chars r) (ch : UInt32) :
    ∀ (fuel i : Nat), i < s.chars.length → i < fuel →
      ∃ k, backoffLoop s r ch fuel i = some k ∧ Reads s.chars r ch i k := by
  intro fuel
  induction fuel with
  | zero => intro i _ enough; omega
  | succ fuel ih =>
      intro i lt enough
      unfold backoffLoop
      by_cases same : s.char i = ch
      · rw [if_pos same, unsigned_of_lt (by omega)]
        exact ⟨i + 1, rfl, Reads.hit ((char_eq_iff lt).mp same)⟩
      · rw [if_neg same]
        have other : s.chars[i]? ≠ some ch := fun eq => same ((char_eq_iff lt).mpr eq)
        by_cases first : i = 0
        · subst first
          rw [if_pos rfl]
          exact ⟨0, rfl, Reads.stop other⟩
        · rw [if_neg first]
          have smaller := table.smaller i (by omega) lt
          obtain ⟨k, run, reads⟩ := ih (r i) (by omega) (by omega)
          exact ⟨k, run, Reads.back other (by omega) reads⟩

theorem searchStep_ready (short : s.chars.length < 2 ^ 32) {fuel : Nat}
    (enough : s.chars.length ≤ fuel) {sei : Searchengine} {t : List UInt32}
    (ready : Ready s sei t) (ch : UInt32) :
    ∃ sei', searchStepUnicode fuel sei ch = some sei' ∧ Ready s sei' (t ++ [ch]) := by
  have le := ready.tracks.le
  unfold searchStepUnicode
  rw [ready.ptr]
  simp only []
  by_cases found : s.char sei.i = 0
  · rw [if_pos found]
    have full : sei.i = s.chars.length := by
      have := char_eq_zero_iff.mp found
      omega
    refine ⟨sei, rfl, { ptr := ready.ptr, table := ready.table, tracks := ?_ }⟩
    rw [full]
    exact (full ▸ ready.tracks).stay ch
  · rw [if_neg found]
    rw [char_eq_zero_iff] at found
    obtain ⟨k, run, reads⟩ := backoffLoop_reads short ready.table ch fuel sei.i (by omega) (by omega)
    rw [run]
    have tracks := ready.tracks.reads ready.table (by omega) reads
    exact ⟨_, rfl, { ptr := rfl, table := ready.table, tracks := tracks }⟩

theorem searchText_ready (short : s.chars.length < 2 ^ 32) {fuel : Nat}
    (enough : s.chars.length ≤ fuel) (text : List UInt32) :
    ∀ {sei : Searchengine} {t : List UInt32}, Ready s sei t →
      ∃ sei', searchText fuel sei text = some sei' ∧ Ready s sei' (t ++ text) := by
  unfold searchText
  induction text with
  | nil =>
      intro sei t ready
      rw [List.append_nil]
      exact ⟨sei, rfl, ready⟩
  | cons ch text ih =>
      intro sei t ready
      obtain ⟨sei', step, ready'⟩ := searchStep_ready short enough ready ch
      rw [List.foldlM_cons, step, Option.bind_eq_bind, Option.bind_some, List.append_cons]
      exact ih ready'

theorem Ready.found_iff {sei : Searchengine} {t : List UInt32} (ready : Ready s sei t) :
    searchFound sei = true ↔ s.chars <:+: t := by
  have le := ready.tracks.le
  unfold searchFound
  rw [ready.ptr]
  simp only [decide_eq_true_iff]
  rw [char_eq_zero_iff, ← ready.tracks.eq_length_iff]
  omega

/-- The engine for the pattern `s` can be started, and then does what it is for: it reads every
text, its index stays within the pattern, each back-off of the loop goes to a smaller index, it
has found the pattern exactly when the text read so far contains it, and more text does not
change that. -/
def Searches (s : UnicodeString) (fresh : Nat → Nat) (old : Searchengine) : Prop :=
  ∃ fuel sei, searchStartUnicode s fuel fresh old = some sei ∧
    (∀ k, 0 < k → k < s.chars.length → sei.r k < k) ∧
    ∀ text, ∃ sei', searchText fuel sei text = some sei' ∧ sei'.i ≤ s.chars.length ∧
      (searchFound sei' = true ↔ s.chars <:+: text) ∧
      ∀ more, ∃ sei'', searchText fuel sei' more = some sei'' ∧
        (searchFound sei' = true → searchFound sei'' = true)

theorem searches_iff (s : UnicodeString) (fresh : Nat → Nat) (old : Searchengine) :
    Searches s fresh old ↔ s.chars.length < 2 ^ 32 := by
  constructor
  · rintro ⟨fuel, sei, start, -⟩
    by_contra long
    unfold searchStartUnicode at start
    rw [clearLoop_long (by omega) fuel 0 fresh (by omega)] at start
    exact absurd start (by simp)
  · intro short
    have enough : s.chars.length ≤ 2 * s.chars.length + 1 := by omega
    obtain ⟨sei, start, ready⟩ := searchStart_ready short fresh old (Nat.lt_succ_self _)
    refine ⟨2 * s.chars.length + 1, sei, start, ready.table.smaller, fun text => ?_⟩
    obtain ⟨sei', run, ready'⟩ := searchText_ready short enough text ready
    refine ⟨sei', run, ready'.tracks.le, ready'.found_iff, fun more => ?_⟩
    obtain ⟨sei'', run', ready''⟩ := searchText_ready short enough more ready'
    refine ⟨sei'', run', fun found => ?_⟩
    rw [ready''.found_iff]
    exact (ready'.found_iff.mp found).trans (List.prefix_append _ more).isInfix

def longPattern : UnicodeString where
  chars := List.replicate (2 ^ 32) 97
  nonzero := by
    intro c mem
    rw [List.eq_of_mem_replicate mem]
    decide

theorem longPattern_never_starts :
    longPattern.chars ≠ [] ∧ ∀ fuel fresh, searchStartUnicode longPattern fuel fresh searchInit = none := by
  have len : longPattern.chars.length = 2 ^ 32 := List.length_replicate
  refine ⟨List.ne_nil_of_length_pos (by omega), fun fuel fresh => ?_⟩
  unfold searchStartUnicode
  rw [clearLoop_long (by omega) fuel 0 fresh (by omega)]

end Search

end Cone.Maildirsearch
