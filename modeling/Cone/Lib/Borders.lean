import Mathlib.Data.List.Basic
import Mathlib.Data.List.Infix

/-! # The longest beginning of a pattern that ends a text

What an automaton for one pattern has to remember of the text read so far, and a table of
back-off indexes with which it follows the text one element at a time. -/
set_option autoImplicit false
namespace Cone.Lib.Borders

section Ends
variable {α : Type}

/-- The first `k` elements of `p` end the text `t`. -/
def Ends (p t : List α) (k : Nat) : Prop := p.take k <:+ t

structure Longest (p t : List α) (k : Nat) : Prop where
  le : k ≤ p.length
  ends : Ends p t k
  greatest : ∀ j ≤ p.length, Ends p t j → j ≤ k

theorem ends_zero (p t : List α) : Ends p t 0 := by
  unfold Ends
  rw [List.take_zero]
  exact List.nil_suffix

theorem ends_concat_succ {p t : List α} {c : α} {k : Nat} (h : k < p.length) :
    Ends p (t ++ [c]) (k + 1) ↔ Ends p t k ∧ p[k]? = some c := by
  unfold Ends
  rw [List.take_add_one, List.getElem?_eq_getElem h, Option.toList_some, List.suffix_concat_iff]
  constructor
  · rintro (empty | ⟨u, eq, ends⟩)
    · rw [List.append_eq_nil_iff] at empty
      exact absurd empty.2 (List.cons_ne_nil _ _)
    · obtain ⟨rfl, same⟩ := List.append_inj' eq rfl
      exact ⟨ends, by simpa using same⟩
  · rintro ⟨ends, same⟩
    exact Or.inr ⟨p.take k, by rw [Option.some.inj same], ends⟩

/-- Below a beginning that ends the text, the others end the text where they end it. -/
theorem ends_take_iff {p t : List α} {j k : Nat} (h : Ends p t k) (le : j ≤ k) (bound : k ≤ p.length) :
    Ends p (p.take k) j ↔ Ends p t j := by
  unfold Ends at *
  constructor
  · intro border
    exact border.trans h
  · intro ends
    refine List.suffix_of_suffix_length_le ends h ?_
    rw [List.length_take, List.length_take]
    omega

theorem ends_take_iff_getElem {p : List α} {j k : Nat} (le : j ≤ k) (bound : k ≤ p.length) :
    Ends p (p.take k) j ↔ ∀ m < j, p[m]? = p[k - j + m]? := by
  have jlen : (p.take j).length = j := List.length_take_of_le (by omega)
  have klen : (p.take k).length = k := List.length_take_of_le bound
  unfold Ends
  rw [List.suffix_iff_eq_drop, jlen, klen]
  constructor
  · intro eq m lt
    have at_m := congrArg (fun l => l[m]?) eq
    simp only [List.getElem?_drop] at at_m
    rwa [List.getElem?_take_of_lt lt, List.getElem?_take_of_lt (by omega)] at at_m
  · intro same
    refine List.ext_getElem? fun m => ?_
    rw [List.getElem?_drop]
    by_cases lt : m < j
    · rw [List.getElem?_take_of_lt lt, List.getElem?_take_of_lt (by omega)]
      exact same m lt
    · rw [List.getElem?_eq_none (by omega), List.getElem?_eq_none (by omega)]

theorem ends_length_iff {p t : List α} : Ends p t p.length ↔ p <:+ t := by
  unfold Ends
  rw [List.take_length]

end Ends

section Automaton
variable {α : Type} {p : List α} {r : Nat → Nat}

/-- The back-off index of `k` is the longest border of the first `k` elements that another
element follows. -/
structure Backoff (p : List α) (r : Nat → Nat) : Prop where
  smaller : ∀ k, 0 < k → k < p.length → r k < k
  border : ∀ k < p.length, Ends p (p.take k) (r k)
  greatest : ∀ k < p.length, ∀ j < k, Ends p (p.take k) j → p[j]? ≠ p[k]? → j ≤ r k

inductive Reads (p : List α) (r : Nat → Nat) (c : α) : Nat → Nat → Prop
  | hit {i : Nat} : p[i]? = some c → Reads p r c i (i + 1)
  | stop : p[0]? ≠ some c → Reads p r c 0 0
  | back {i k : Nat} : p[i]? ≠ some c → 0 < i → Reads p r c (r i) k → Reads p r c i k

/-- What one element does: an index that no beginning followed by `c` exceeds goes to the
longest beginning that ends the longer text. -/
theorem longest_of_reads (table : Backoff p r) {c : α} {i k : Nat} (reads : Reads p r c i k)
    {t : List α} (lt : i < p.length) (ends : Ends p t i)
    (above : ∀ j < p.length, Ends p t j → p[j]? = some c → j ≤ i) :
    Longest p (t ++ [c]) k := by
  induction reads with
  | @hit i same =>
      refine ⟨lt, (ends_concat_succ lt).mpr ⟨ends, same⟩, ?_⟩
      intro j le h
      rcases j with _ | j
      · omega
      · obtain ⟨endsj, samej⟩ := (ends_concat_succ (by omega)).mp h
        have := above j (by omega) endsj samej
        omega
  | stop other =>
      refine ⟨Nat.zero_le _, ends_zero _ _, ?_⟩
      intro j le h
      rcases j with _ | j
      · exact Nat.le_refl 0
      · obtain ⟨endsj, samej⟩ := (ends_concat_succ (by omega)).mp h
        have zero := above j (by omega) endsj samej
        obtain rfl : j = 0 := by omega
        exact absurd samej other
  | @back i k other pos _ ih =>
      have smaller := table.smaller i pos lt
      have bound : i ≤ p.length := Nat.le_of_lt lt
      refine ih (by omega) ((ends_take_iff ends (Nat.le_of_lt smaller) bound).mp
        (table.border i lt)) ?_
      intro j ltj endsj samej
      have le := above j ltj endsj samej
      have ne : j ≠ i := by
        rintro rfl
        exact other samej
      refine table.greatest i lt j (by omega) ((ends_take_iff ends le bound).mpr endsj) ?_
      intro eq
      exact other (eq ▸ samej)

end Automaton

section Table
variable {α : Type} {p : List α} {r : Nat → Nat} {i d : Nat}

/-- A table in the making: the overlaps of the pattern with itself are known for the shifts
below `i`. -/
structure Built (p : List α) (i : Nat) (r : Nat → Nat) : Prop where
  border : ∀ k < p.length, r k = 0 ∨ (r k < k ∧ Ends p (p.take k) (r k))
  greatest : ∀ k < p.length, ∀ j < k, k - j < i → Ends p (p.take k) j → p[j]? ≠ p[k]? → j ≤ r k

theorem built_zero (zero : ∀ k < p.length, r k = 0) : Built p 0 r where
  border := fun k lt => Or.inl (zero k lt)
  greatest := fun k _ j _ shift => by omega

/-- One more shift, whose overlap is followed by the end of the pattern. -/
theorem Built.whole (h : Built p i r) (same : ∀ m < d, p[m]? = p[i + m]?)
    (len : i + d = p.length) : Built p (i + 1) r where
  border := h.border
  greatest := by
    intro k lt j ltj shift ends other
    by_cases before : k - j < i
    · exact h.greatest k lt j ltj before ends other
    · obtain rfl : k = i + j := by omega
      exact absurd (same j (by omega)) other

/-- One more shift, whose overlap of length `d` is followed by another element. -/
theorem Built.differ (h : Built p i r) (same : ∀ m < d, p[m]? = p[i + m]?)
    (differ : p[d]? ≠ p[i + d]?) :
    Built p (i + 1) (if r (i + d) < d then Function.update r (i + d) d else r) where
  border := by
    intro k lt
    by_cases larger : r (i + d) < d
    · rw [if_pos larger]
      by_cases here : k = i + d
      · subst here
        rw [Function.update_self]
        have pos : i ≠ 0 := by
          rintro rfl
          exact differ (by rw [Nat.zero_add])
        refine Or.inr ⟨by omega, (ends_take_iff_getElem (by omega) (Nat.le_of_lt lt)).mpr ?_⟩
        intro m ltm
        rw [Nat.add_sub_cancel]
        exact same m ltm
      · rw [Function.update_of_ne here]
        exact h.border k lt
    · rw [if_neg larger]
      exact h.border k lt
  greatest := by
    intro k lt j ltj shift ends other
    have grows : r k ≤ (if r (i + d) < d then Function.update r (i + d) d else r) k := by
      split
      · by_cases here : k = i + d
        · subst here
          rw [Function.update_self]
          omega
        · rw [Function.update_of_ne here]
      · exact Nat.le_refl _
    by_cases before : k - j < i
    · exact Nat.le_trans (h.greatest k lt j ltj before ends other) grows
    · obtain rfl : k = i + j := by omega
      rw [ends_take_iff_getElem (by omega) (Nat.le_of_lt lt)] at ends
      -- the shift has one overlap only: the first difference ends it
      rcases Nat.lt_trichotomy j d with less | rfl | more
      · exact absurd (same j less) other
      · split
        · rw [Function.update_self]
        · omega
      · have := ends d more
        rw [Nat.add_sub_cancel] at this
        exact absurd this differ

theorem Built.backoff (h : Built p p.length r) : Backoff p r where
  smaller := by
    intro k pos lt
    rcases h.border k lt with zero | ⟨less, -⟩
    · omega
    · exact less
  border := by
    intro k lt
    rcases h.border k lt with zero | ⟨-, ends⟩
    · rw [zero]
      exact ends_zero _ _
    · exact ends
  greatest := fun k lt j ltj ends other => h.greatest k lt j ltj (by omega) ends other

end Table

section Search
variable {α : Type} {p : List α} {r : Nat → Nat}

/-- The index after the text `t`: all of the pattern once `t` has it somewhere. -/
def Tracks (p t : List α) (i : Nat) : Prop :=
  (p <:+: t ∧ i = p.length) ∨ (¬ p <:+: t ∧ Longest p t i)

theorem tracks_nil : Tracks p [] 0 := by
  by_cases empty : p = []
  · subst empty
    exact Or.inl ⟨List.infix_rfl, rfl⟩
  · refine Or.inr ⟨fun occurs => empty (List.infix_nil.mp occurs), Nat.zero_le _, ends_zero _ _, ?_⟩
    intro j le ends
    unfold Ends at ends
    rw [List.suffix_nil, List.take_eq_nil_iff] at ends
    rcases ends with zero | nil
    · omega
    · exact absurd nil empty

theorem Tracks.le {t : List α} {i : Nat} (h : Tracks p t i) : i ≤ p.length := by
  obtain ⟨-, rfl⟩ | ⟨-, longest⟩ := h
  · exact Nat.le_refl _
  · exact longest.le

theorem Tracks.eq_length_iff {t : List α} {i : Nat} (h : Tracks p t i) :
    i = p.length ↔ p <:+: t := by
  obtain ⟨occurs, rfl⟩ | ⟨absent, longest⟩ := h
  · exact iff_of_true rfl occurs
  · refine iff_of_false ?_ absent
    rintro rfl
    exact absent (ends_length_iff.mp longest.ends).isInfix

theorem Tracks.stay {t : List α} (h : Tracks p t p.length) (c : α) :
    Tracks p (t ++ [c]) p.length := by
  have occurs := h.eq_length_iff.mp rfl
  exact Or.inl ⟨occurs.trans (List.prefix_append t [c]).isInfix, rfl⟩

theorem Tracks.reads {t : List α} {i k : Nat} {c : α} (h : Tracks p t i) (table : Backoff p r)
    (lt : i < p.length) (reads : Reads p r c i k) : Tracks p (t ++ [c]) k := by
  obtain ⟨-, rfl⟩ | ⟨absent, longest⟩ := h
  · omega
  have next : Longest p (t ++ [c]) k :=
    longest_of_reads table reads lt longest.ends
      fun j ltj ends _ => longest.greatest j (Nat.le_of_lt ltj) ends
  by_cases occurs : p <:+: t ++ [c]
  · refine Or.inl ⟨occurs, ?_⟩
    rcases List.infix_concat_iff.mp occurs with ends | before
    · have := next.greatest _ (Nat.le_refl _) (ends_length_iff.mpr ends)
      have := next.le
      omega
    · exact absurd before absent
  · exact Or.inr ⟨occurs, next⟩

end Search

end Cone.Lib.Borders
