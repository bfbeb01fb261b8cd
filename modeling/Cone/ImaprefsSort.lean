import Mathlib.Tactic.SplitIfs
import Mathlib.Data.List.Forall2
import Cone.Lib.Comparators

/-! # The order of the messages of a thread

`cmp_msgs` and `dothreadsort` (`imaprefs.c`), on the tree of messages. -/
set_option autoImplicit false
namespace Cone.ImaprefsSort

open Cone.Lib.Comparators

/-- `struct imap_refmsg` with its children; `P` is the type of the pointers to messages, and
`timestamp` is zero where the message has no date that can be parsed. -/
inductive Refmsg (P : Type) where
  | mk (ptr : P) (isdummy : Bool) (timestamp : Int) (seqnum : Nat) (children : List (Refmsg P))

section Model
variable {P : Type}

/-- Timestamp and sequence number by which a message is sorted: a dummy's are those of the first
message below it. -/
def dated : Refmsg P → Int × Nat
  | .mk _ false timestamp seqnum _ => (timestamp, seqnum)
  | .mk _ true _ _ [] => (0, 0)
  | .mk _ true _ _ (child :: _) => dated child

def cmp_msgs (a b : Refmsg P) : Int :=
  let (ta, na) := dated a
  let (tb, nb) := dated b
  if ta ≠ 0 ∧ tb ≠ 0 ∧ ta ≠ tb then if ta < tb then -1 else 1
  else if na < nb then -1 else if na > nb then 1 else 0

variable (qsort : (Refmsg P → Refmsg P → Int) → List (Refmsg P) → List (Refmsg P))

mutual

def dothreadsort : Refmsg P → Refmsg P
  | .mk ptr isdummy timestamp seqnum children =>
    .mk ptr isdummy timestamp seqnum (qsort cmp_msgs (sortEach children))

def sortEach : List (Refmsg P) → List (Refmsg P)
  | [] => []
  | m :: ms => dothreadsort m :: sortEach ms

end

theorem sortEach_eq_map (ms : List (Refmsg P)) :
    sortEach qsort ms = ms.map (dothreadsort qsort) := by
  induction ms with
  | nil => rfl
  | cons m ms ih => rw [sortEach, ih, List.map_cons]

/-- The same messages with siblings linked in another order, at any depth. -/
inductive Relinked : Refmsg P → Refmsg P → Prop where
  | mk {ptr : P} {isdummy : Bool} {timestamp : Int} {seqnum : Nat} {cs ds es : List (Refmsg P)} :
      List.Forall₂ Relinked cs ds → es.Perm ds →
        Relinked (.mk ptr isdummy timestamp seqnum cs) (.mk ptr isdummy timestamp seqnum es)

inductive EachSorted (good : List (Refmsg P) → Prop) : Refmsg P → Prop where
  | mk {ptr : P} {isdummy : Bool} {timestamp : Int} {seqnum : Nat} {cs : List (Refmsg P)} :
      good (cs.map (dothreadsort qsort)) → (∀ c ∈ cs, EachSorted good c) →
        EachSorted good (.mk ptr isdummy timestamp seqnum cs)

end Model

section Comparator
variable {P : Type} {a b : Refmsg P} {l : List (Refmsg P)}

def Between (l : List (Refmsg P)) : Prop :=
  ∃ a ∈ l, ∃ b ∈ l, ∃ c ∈ l,
    (dated a).2 ≤ (dated b).2 ∧ (dated b).2 ≤ (dated c).2 ∧
      (dated a).1 ≠ 0 ∧ (dated b).1 = 0 ∧ (dated c).1 ≠ 0 ∧ (dated c).1 < (dated a).1

theorem cmp_msgs_swap (a b : Refmsg P) : cmp_msgs a b = -cmp_msgs b a := by
  simp only [cmp_msgs]
  split_ifs <;> omega

theorem cmp_msgs_asymm (a b : Refmsg P) : cmp_msgs a b < 0 ↔ 0 < cmp_msgs b a := by
  rw [cmp_msgs_swap a b]
  omega

theorem cmp_msgs_le_iff (a b : Refmsg P) :
    cmp_msgs a b ≤ 0 ↔
      if (dated a).1 ≠ 0 ∧ (dated b).1 ≠ 0 ∧ (dated a).1 ≠ (dated b).1 then
        (dated a).1 < (dated b).1
      else (dated a).2 ≤ (dated b).2 := by
  simp only [cmp_msgs]
  split_ifs <;> omega

theorem strictWeak_cmp_msgs_iff : StrictWeak cmp_msgs l ↔ ¬ Between l := by
  rw [strictWeak_iff fun a _ b _ => cmp_msgs_asymm a b]
  constructor
  · rintro trans ⟨a, ha, b, hb, c, hc, low, high, dated_a, undated, dated_c, later⟩
    have below : cmp_msgs a b ≤ 0 := by
      rw [cmp_msgs_le_iff, if_neg fun both => both.2.1 undated]
      exact low
    have below' : cmp_msgs b c ≤ 0 := by
      rw [cmp_msgs_le_iff, if_neg fun both => both.1 undated]
      exact high
    have last := trans a ha b hb c hc below below'
    rw [cmp_msgs_le_iff, if_pos ⟨dated_a, dated_c, by omega⟩] at last
    omega
  · intro none' a ha b hb c hc below below'
    by_contra above
    rw [cmp_msgs_le_iff] at below below' above
    -- the one of the three that has no date is between the other two
    by_cases undated_b : (dated b).1 = 0
    · rw [if_neg fun both => both.2.1 undated_b] at below
      rw [if_neg fun both => both.1 undated_b] at below'
      refine none' ⟨a, ha, b, hb, c, hc, below, below', ?_⟩
      split_ifs at above with dates
      · exact ⟨dates.1, undated_b, dates.2.1, by omega⟩
      · omega
    · by_cases undated_a : (dated a).1 = 0
      · rw [if_neg fun both => both.1 undated_a] at below above
        split_ifs at below' with dates
        · exact none' ⟨c, hc, a, ha, b, hb, by omega, below, dates.2.1, undated_a, dates.1, below'⟩
        · omega
      · by_cases undated_c : (dated c).1 = 0
        · rw [if_neg fun both => both.2.1 undated_c] at below' above
          split_ifs at below with dates
          · exact none'
              ⟨b, hb, c, hc, a, ha, below', by omega, dates.2.1, undated_c, dates.1, below⟩
          · omega
        · split_ifs at below below' above <;> omega

end Comparator

section Threads
variable {P : Type} {qsort : (Refmsg P → Refmsg P → Int) → List (Refmsg P) → List (Refmsg P)}

def Orderly (siblings : List (Refmsg P)) : Prop :=
  ¬ Between siblings ∧ ∀ a ∈ siblings, ∀ b ∈ siblings, cmp_msgs a b = 0 → a = b

theorem dothreadsort_relinked (sorts : Sorts qsort) {m m' : Refmsg P}
    (each : EachSorted qsort Orderly m) (relinked : Relinked m m') :
    dothreadsort qsort m' = dothreadsort qsort m := by
  induction each generalizing m' with
  | @mk ptr isdummy timestamp seqnum cs orderly inner ih =>
      obtain ⟨below, perm⟩ := relinked
      rename_i ds es
      have same : ds.map (dothreadsort qsort) = cs.map (dothreadsort qsort) := by
        clear perm orderly inner
        induction below with
        | nil => rfl
        | cons first _ later =>
            rw [List.map_cons, List.map_cons, ih _ List.mem_cons_self first,
              later fun c mem => ih c (List.mem_cons_of_mem _ mem)]
      have perm' : (es.map (dothreadsort qsort)).Perm (cs.map (dothreadsort qsort)) :=
        same ▸ perm.map (dothreadsort qsort)
      have sorted := sorts.eq_of_perm (strictWeak_cmp_msgs_iff.mpr orderly.1) orderly.2 perm'
      rw [dothreadsort, dothreadsort, sortEach_eq_map, sortEach_eq_map, sorted]

/-- How messages are ordered, when the comparator is an order, and what the threads depend on. -/
theorem threadsort_order (P : Type) :
    (∀ a b : Refmsg P, cmp_msgs a b = -cmp_msgs b a) ∧
      (∀ l : List (Refmsg P), StrictWeak cmp_msgs l ↔ ¬ Between l) ∧
      ∀ qsort : (Refmsg P → Refmsg P → Int) → List (Refmsg P) → List (Refmsg P), Sorts qsort →
        ∀ m m' : Refmsg P, EachSorted qsort Orderly m → Relinked m m' →
          dothreadsort qsort m' = dothreadsort qsort m :=
  ⟨cmp_msgs_swap, fun _ => strictWeak_cmp_msgs_iff,
    fun _ sorts _ _ each relinked => dothreadsort_relinked sorts each relinked⟩

/-- The second message has no date: by it the first comes before the third, by their dates not.  And
two messages that the caller gave one number stay in the order in which they were linked. -/
theorem threadsort_undated :
    ¬ StrictWeak cmp_msgs
        [Refmsg.mk 1 false 20 1 [], Refmsg.mk 2 false 0 2 [], Refmsg.mk 3 false 10 3 []] ∧
      dothreadsort mergeSort
          (.mk 0 true 0 0 [Refmsg.mk 2 false 20 1 [], Refmsg.mk 1 false 20 1 []]) ≠
        dothreadsort mergeSort
          (.mk 0 true 0 0 [Refmsg.mk 1 false 20 1 [], Refmsg.mk 2 false 20 1 []]) := by
  constructor
  · intro order
    have trans := order.trans (Refmsg.mk 1 false 20 1 []) (by simp) (Refmsg.mk 2 false 0 2 [])
      (by simp) (Refmsg.mk 3 false 10 3 []) (by simp)
    exact absurd (trans (by decide) (by decide)) (by decide)
  · intro same
    simp [dothreadsort, sortEach, mergeSort, List.mergeSort, List.MergeSort.Internal.splitInTwo,
      cmp_msgs, dated] at same

theorem threadsort_order_sample :
    dothreadsort mergeSort
        (.mk 0 true 0 0 [Refmsg.mk 2 false 10 2 [], Refmsg.mk 1 false 20 1 []]) =
      dothreadsort mergeSort
        (.mk 0 true 0 0 [Refmsg.mk 1 false 20 1 [], Refmsg.mk 2 false 10 2 []]) := by
  have leaf : ∀ ptr timestamp seqnum, dothreadsort mergeSort
      (Refmsg.mk ptr false timestamp seqnum [] : Refmsg Nat) =
        .mk ptr false timestamp seqnum [] := by
    intro ptr timestamp seqnum
    simp [dothreadsort, sortEach, mergeSort]
  have alone : ∀ ptr timestamp seqnum,
      EachSorted mergeSort Orderly (Refmsg.mk ptr false timestamp seqnum [] : Refmsg Nat) :=
    fun ptr timestamp seqnum => .mk ⟨by simp [Between], by simp⟩ (by simp)
  refine (threadsort_order Nat).2.2 mergeSort sorts_mergeSort _ _ (EachSorted.mk ⟨?_, ?_⟩ ?_)
    (Relinked.mk (List.Forall₂.cons (.mk .nil (.refl _)) (.cons (.mk .nil (.refl _)) .nil))
      (.swap _ _ _))
  · simp [leaf, Between, dated]
  · simp [leaf, cmp_msgs, dated]
  · intro c mem
    rcases List.mem_pair.mp mem with rfl | rfl
    · exact alone 1 20 1
    · exact alone 2 10 2

end Threads

end Cone.ImaprefsSort
