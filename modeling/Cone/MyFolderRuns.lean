import Cone.MyFolder

/-! # The folder over a run of events

`sorted_index` stays a permutation of the first positions of `serverIndex`, the cursor stays on its
message, and the filter's range keeps its messages, whatever the server reports. -/
set_option autoImplicit false
namespace Cone.MyFolder

open Cone.Lib.Renumber

section Lists
variable {A : Type} {P : A → Bool}

/-- The element at `j`, where it is kept, follows the kept ones in front of it. -/
theorem getElem?_filter_take {l : List A} {j : Nat} {a : A} (h : l[j]? = some a) (ha : P a = true) :
    (l.filter P)[((l.take j).filter P).length]? = some a := by
  induction l generalizing j with
  | nil => cases h
  | cons x xs ih =>
      cases j with
      | zero =>
          cases h
          rw [List.take_zero, List.filter_nil, List.filter_cons_of_pos ha]
          rfl
      | succ j =>
          rw [List.take_succ_cons]
          by_cases hx : P x = true
          · rw [List.filter_cons_of_pos hx, List.filter_cons_of_pos hx, List.length_cons,
              List.getElem?_cons_succ]
            exact ih h
          · rw [List.filter_cons_of_neg hx, List.filter_cons_of_neg hx]
            exact ih h

end Lists

section Range
variable {rs : List Range} {p : Nat}

def stays (rs : List Range) (p : Nat) : Bool := !decide (Gone rs p)

@[simp] theorem stays_iff : stays rs p = true ↔ ¬ Gone rs p := by
  simp [stays]

def left (rs : List Range) (l : List Nat) : List Nat := (l.filter (stays rs)).map (place rs)

theorem left_cons_of_gone {l : List Nat} (h : Gone rs p) : left rs (p :: l) = left rs l := by
  rw [left, List.filter_cons_of_neg (by rw [stays_iff]; exact not_not.mpr h), left]

theorem left_cons {l : List Nat} (h : ¬ Gone rs p) :
    left rs (p :: l) = place rs p :: left rs l := by
  rw [left, List.filter_cons_of_pos (stays_iff.mpr h), List.map_cons, left]

theorem left_append (l l' : List Nat) : left rs (l ++ l') = left rs l ++ left rs l' := by
  rw [left, List.filter_append, List.map_append, left, left]

theorem left_range (k : Nat) : left rs (List.range k) = List.range (place rs k) := by
  induction k with
  | zero => simp [left]
  | succ k ih =>
      rw [List.range_succ, left_append, ih, place_succ]
      by_cases h : Gone rs k
      · rw [left_cons_of_gone h, if_pos h, Nat.add_zero]
        exact List.append_nil _
      · rw [left_cons h, if_neg h, List.range_succ]
        rfl

theorem left_perm {l : List Nat} {k : Nat} (h : l.Perm (List.range k)) :
    (left rs l).Perm (List.range (place rs k)) := by
  rw [← left_range k]
  exact (h.filter _).map _

end Range

section Adjust
variable {nfrom nto : Nat}

theorem adjust_fst (h : nfrom ≤ nto) (i : Nat) (sorted : List Nat) (c : Cursor) :
    (adjust nfrom nto i sorted c).1 = left [(nfrom, nto)] sorted := by
  induction sorted generalizing i c with
  | nil => rfl
  | cons n rest ih =>
      rw [adjust]
      by_cases hgone : n ≥ nfrom ∧ n ≤ nto
      · rw [if_pos hgone, ih, left_cons_of_gone (gone_singleton.mpr hgone)]
      · have hplace : (if n > nto then n - (nto - nfrom + 1) else n) = place [(nfrom, nto)] n := by
          rw [place_singleton h]
          dsimp only
          grind
        rw [if_neg hgone, left_cons (fun hg => hgone (gone_singleton.mp hg))]
        dsimp only
        rw [ih, hplace]

/-- What is in front of the loop moves no more. -/
theorem adjust_of_lt (i : Nat) (sorted : List Nat) {c : Cursor} (h : c.currentMessage < i) :
    (adjust nfrom nto i sorted c).2.currentMessage = c.currentMessage := by
  induction sorted generalizing i c with
  | nil => rfl
  | cons n rest ih =>
      rw [adjust]
      by_cases hgone : n ≥ nfrom ∧ n ≤ nto
      · have hsame : (c.erased i).currentMessage = c.currentMessage := by
          rw [Cursor.erased, if_neg (by omega)]
        rw [if_pos hgone, ih i (by rw [hsame]; exact h), hsame]
      · rw [if_neg hgone]
        exact ih (i + 1) (Nat.lt_succ_of_lt h)

theorem adjust_cursor (i : Nat) {sorted : List Nat} {c : Cursor} {j n : Nat}
    (hc : c.currentMessage = i + j) (hj : sorted[j]? = some n) (hn : ¬ Gone [(nfrom, nto)] n) :
    (adjust nfrom nto i sorted c).2.currentMessage =
      i + ((sorted.take j).filter (stays [(nfrom, nto)])).length := by
  induction sorted generalizing i c j with
  | nil => cases hj
  | cons m rest ih =>
      rw [adjust]
      cases j with
      | zero =>
          cases hj
          rw [if_neg (fun hg => hn (gone_singleton.mpr hg))]
          dsimp only
          rw [adjust_of_lt (i + 1) rest (by omega), hc]
          rfl
      | succ j =>
          rw [List.take_succ_cons]
          by_cases hgone : m ≥ nfrom ∧ m ≤ nto
          · have hmove : (c.erased i).currentMessage = i + j := by
              rw [Cursor.erased, if_pos (by omega), if_pos (by omega)]
              dsimp only
              omega
            rw [if_pos hgone, ih i hmove hj, List.filter_cons_of_neg]
            rw [stays_iff]
            exact not_not.mpr (gone_singleton.mpr hgone)
          · have hkept : stays [(nfrom, nto)] m = true :=
              stays_iff.mpr fun hg => hgone (gone_singleton.mp hg)
            have hnext := ih (i + 1) (c := c) (j := j) (by omega) hj
            rw [if_neg hgone, List.filter_cons_of_pos hkept, List.length_cons]
            dsimp only
            omega

end Adjust

section Filter
variable {nfrom nto : Nat}

theorem filtered_add (h : nfrom ≤ nto) {f : FolderFilter} (hf : f.filterStart ≤ f.filterEnd) :
    f.filterEnd + place [(nfrom, nto)] f.filterStart =
      f.filterStart + place [(nfrom, nto)] f.filterEnd + filtered nfrom nto f := by
  rw [place_singleton h, place_singleton h, filtered]
  dsimp only
  split_ifs <;> omega

theorem update_filter (h : nfrom ≤ nto) {f : FolderFilter} (hf : f.filterStart ≤ f.filterEnd) :
    f.update nfrom nto =
      ⟨place [(nfrom, nto)] f.filterStart, place [(nfrom, nto)] f.filterEnd⟩ := by
  have hadd := filtered_add h hf
  have hmono : place [(nfrom, nto)] f.filterStart ≤ place [(nfrom, nto)] f.filterEnd :=
    place_mono hf
  have hstart : place [(nfrom, nto)] f.filterStart =
      if nfrom < f.filterStart then
        f.filterStart - ((if nto + 1 > f.filterStart then f.filterStart else nto + 1) - nfrom)
      else f.filterStart := by
    rw [place_singleton h]
    dsimp only
    split_ifs <;> omega
  have hle : (if nto + 1 > f.filterStart then f.filterStart else nto + 1) ≤ f.filterStart := by
    split_ifs <;> omega
  rw [FolderFilter.update]
  dsimp only
  by_cases hlow : nfrom < f.filterStart
  · rw [if_pos hlow] at hstart
    rw [if_pos hlow, FolderFilter.mk.injEq]
    omega
  · rw [if_neg hlow] at hstart
    rw [if_neg hlow, FolderFilter.mk.injEq]
    omega

end Filter

section Removed
variable {I : Type}

structure Removed (rs : List Range) (s s' : Folder I) : Prop where
  size : s'.serverIndex.length = place rs s.serverIndex.length
  entries : ∀ p < s.serverIndex.length, ¬ Gone rs p →
    s'.serverIndex[place rs p]? = s.serverIndex[p]?
  order : s'.sorted_index = left rs s.sorted_index
  cursor : ∀ n, s.sorted_index[s.currentMessage]? = some n → ¬ Gone rs n →
    s'.sorted_index[s'.currentMessage]? = some (place rs n)
  filter : s'.currentFilter =
    s.currentFilter.map fun f => ⟨place rs f.filterStart, place rs f.filterEnd⟩

structure Inv (s : Folder I) : Prop where
  sorted : ∃ k ≤ s.serverIndex.length, s.sorted_index.Perm (List.range k)
  filter : ∀ f, s.currentFilter = some f →
    f.filterStart ≤ f.filterEnd ∧ f.filterEnd ≤ s.serverIndex.length

theorem Inv.mem_lt {s : Folder I} (h : Inv s) {n : Nat} (hn : n ∈ s.sorted_index) :
    n < s.serverIndex.length := by
  obtain ⟨k, hk, hperm⟩ := h.sorted
  have hmem := List.mem_range.mp (hperm.mem_iff.mp hn)
  omega

theorem Inv.removed {rs : List Range} {s s' : Folder I} (h : Inv s) (hr : Removed rs s s') :
    Inv s' := by
  constructor
  · obtain ⟨k, hk, hperm⟩ := h.sorted
    refine ⟨place rs k, ?_, ?_⟩
    · rw [hr.size]
      exact place_mono hk
    · rw [hr.order]
      exact left_perm hperm
  · intro f hf
    rw [hr.filter, Option.map_eq_some_iff] at hf
    obtain ⟨g, hg, rfl⟩ := hf
    obtain ⟨hle, hend⟩ := h.filter g hg
    rw [hr.size]
    exact ⟨place_mono hle, place_mono hend⟩

theorem removed_nil (s : Folder I) : Removed [] s s := by
  constructor
  · rw [place_nil]
  · intro p _ _
    rw [place_nil]
  · have hall : s.sorted_index.filter (stays []) = s.sorted_index :=
      List.filter_eq_self.mpr fun p _ => stays_iff.mpr not_gone_nil
    rw [left, hall]
    exact (List.map_id'' (fun _ => place_nil) _).symm
  · intro n hn _
    rw [place_nil, hn]
  · cases s.currentFilter <;> simp

/-- Lists of positions below `len` see a range and the part of it below `len` alike. -/
theorem gone_clamp {nfrom nto len p : Nat} (hp : p < len) :
    Gone [(nfrom, min nto (len - 1))] p ↔ Gone [(nfrom, nto)] p := by
  rw [gone_singleton, gone_singleton]
  dsimp only
  omega

theorem place_clamp {nfrom nto len p : Nat} (hp : p ≤ len) :
    place [(nfrom, min nto (len - 1))] p = place [(nfrom, nto)] p := by
  induction p with
  | zero => rfl
  | succ p ih =>
      rw [place_succ, place_succ, ih (by omega)]
      by_cases h : Gone [(nfrom, nto)] p
      · rw [if_pos h, if_pos ((gone_clamp (by omega)).mpr h)]
      · rw [if_neg h, if_neg (fun hg => h ((gone_clamp (by omega)).mp hg))]

theorem left_clamp {nfrom nto len : Nat} {l : List Nat} (hl : ∀ p ∈ l, p < len) :
    left [(nfrom, min nto (len - 1))] l = left [(nfrom, nto)] l := by
  induction l with
  | nil => rfl
  | cons p l ih =>
      have hp := hl p List.mem_cons_self
      have hrest := ih fun q hq => hl q (List.mem_cons_of_mem p hq)
      by_cases h : Gone [(nfrom, nto)] p
      · rw [left_cons_of_gone h, left_cons_of_gone ((gone_clamp hp).mpr h), hrest]
      · rw [left_cons h, left_cons (fun hg => h ((gone_clamp hp).mp hg)), hrest,
          place_clamp (Nat.le_of_lt hp)]

theorem removed_behind {r : Range} {s : Folder I} (hs : Inv s) (h : s.serverIndex.length ≤ r.1)
    (hr : r.1 ≤ r.2) : Removed [r] s s := by
  have hplace : ∀ p ≤ s.serverIndex.length, place [r] p = p := by
    intro p hp
    rw [place_singleton hr, if_pos (by omega)]
  have hgone : ∀ p < s.serverIndex.length, ¬ Gone [r] p := by
    intro p hp hg
    have hlow := (gone_singleton.mp hg).1
    omega
  constructor
  · rw [hplace _ (Nat.le_refl _)]
  · intro p hp _
    rw [hplace p (Nat.le_of_lt hp)]
  · have hall : s.sorted_index.filter (stays [r]) = s.sorted_index :=
      List.filter_eq_self.mpr fun p hp => stays_iff.mpr (hgone p (hs.mem_lt hp))
    rw [left, hall]
    have hsame : ∀ p ∈ s.sorted_index, place [r] p = id p :=
      fun p hp => hplace p (Nat.le_of_lt (hs.mem_lt hp))
    rw [List.map_congr_left hsame, List.map_id]
  · intro n hn _
    rw [hplace n (Nat.le_of_lt (hs.mem_lt (List.mem_of_getElem? hn))), hn]
  · cases hf : s.currentFilter with
    | none => rfl
    | some f =>
        obtain ⟨hle, hend⟩ := hs.filter f hf
        rw [Option.map_some, hplace _ (Nat.le_trans hle hend), hplace _ hend]

theorem removed_removeRange {r : Range} {s : Folder I} (hs : Inv s) (hr : r.1 ≤ r.2) :
    Removed [r] s (removeRange s r) := by
  obtain ⟨nfrom, nto⟩ := r
  rw [removeRange]
  dsimp only at hr ⊢
  by_cases hbehind : nfrom ≥ s.serverIndex.length
  · rw [if_pos hbehind]
    exact removed_behind hs hbehind hr
  have hclamp : (if nto ≥ s.serverIndex.length then s.serverIndex.length - 1 else nto) =
      min nto (s.serverIndex.length - 1) := by
    split_ifs <;> omega
  have hle : nfrom ≤ min nto (s.serverIndex.length - 1) := by omega
  have hlast : min nto (s.serverIndex.length - 1) < s.serverIndex.length := by omega
  rw [if_neg hbehind, hclamp]
  constructor
  · rw [← place_clamp (Nat.le_refl _)]
    exact length_cut hle hlast
  · intro p hp hkept
    rw [← place_clamp (Nat.le_of_lt hp)]
    exact getElem?_cut hle hlast fun hg => hkept ((gone_clamp hp).mp hg)
  · dsimp only
    rw [adjust_fst hle, left_clamp fun p hp => hs.mem_lt hp]
  · intro n hn hkept
    have hlt := hs.mem_lt (List.mem_of_getElem? hn)
    have hstay : ¬ Gone [(nfrom, min nto (s.serverIndex.length - 1))] n :=
      fun hg => hkept ((gone_clamp hlt).mp hg)
    dsimp only
    rw [adjust_fst hle, adjust_cursor 0 (Nat.zero_add _).symm hn hstay, Nat.zero_add, left,
      List.getElem?_map, getElem?_filter_take hn (stays_iff.mpr hstay), Option.map_some,
      place_clamp (Nat.le_of_lt hlt)]
  · dsimp only
    cases hf : s.currentFilter with
    | none => rfl
    | some f =>
        obtain ⟨hrange, hend⟩ := hs.filter f hf
        rw [Option.map_some, Option.map_some, update_filter hle hrange,
          place_clamp (Nat.le_trans hrange hend), place_clamp hend]

theorem Removed.cons {r : Range} {rs : List Range} {s s' t : Folder I} (hr : Ascending (r :: rs))
    (h : Removed rs s s') (h' : Removed [r] s' t) : Removed (r :: rs) s t := by
  have hplace : ∀ p, place (r :: rs) p = place [r] (place rs p) := fun p => place_cons hr
  have hgone : ∀ p, ¬ Gone (r :: rs) p ↔ ¬ Gone rs p ∧ ¬ Gone [r] (place rs p) := by
    intro p
    rw [gone_cons_iff hr, not_or]
  constructor
  · rw [h'.size, h.size, hplace]
  · intro p hp hkept
    obtain ⟨hfirst, hsecond⟩ := (hgone p).mp hkept
    rw [hplace, h'.entries _ _ hsecond, h.entries p hp hfirst]
    rw [h.size]
    exact place_lt_place hp hfirst
  · rw [h'.order, h.order]
    induction s.sorted_index with
    | nil => rfl
    | cons p l ih =>
        by_cases hfirst : Gone rs p
        · rw [left_cons_of_gone hfirst, ih,
            left_cons_of_gone ((gone_cons_iff hr).mpr (Or.inl hfirst))]
        · by_cases hsecond : Gone [r] (place rs p)
          · rw [left_cons hfirst, left_cons_of_gone hsecond, ih,
              left_cons_of_gone ((gone_cons_iff hr).mpr (Or.inr hsecond))]
          · rw [left_cons hfirst, left_cons hsecond, ih,
              left_cons ((hgone p).mpr ⟨hfirst, hsecond⟩), hplace]
  · intro n hn hkept
    obtain ⟨hfirst, hsecond⟩ := (hgone n).mp hkept
    rw [hplace]
    exact h'.cursor _ (h.cursor n hn hfirst) hsecond
  · rw [h'.filter, h.filter, Option.map_map]
    congr 1
    funext f
    rw [Function.comp_apply, hplace, hplace]

theorem removed_messagesRemoved {rs : List Range} {s : Folder I} (hs : Inv s) (hr : Ascending rs) :
    Removed rs s (messagesRemoved s rs) := by
  induction rs with
  | nil => exact removed_nil s
  | cons r rs ih =>
      have hrest := ih hr.tail
      exact hrest.cons hr
        (removed_removeRange (hs.removed hrest) (hr.ordered r List.mem_cons_self))

end Removed

section Shown
variable {I : Type} {s s' : Folder I}

def SameCursor (s s' : Folder I) : Prop :=
  ∀ n, s.sorted_index[s.currentMessage]? = some n →
    s'.sorted_index[s'.currentMessage]? = some n

theorem lower_bound_le (less : Nat → Nat → Bool) (sorted : List Nat) (n first len : Nat) :
    lower_bound less sorted n first len ≤ first + len := by
  induction first, len using lower_bound.induct less sorted n with
  | case1 first =>
      rw [lower_bound, dif_pos rfl]
      omega
  | case2 first len hlen half hless ih =>
      rw [lower_bound, dif_neg hlen]
      dsimp only
      rw [if_pos hless]
      have hrec : lower_bound less sorted n (first + len / 2 + 1) (len - len / 2 - 1) ≤
          first + len / 2 + 1 + (len - len / 2 - 1) := ih
      omega
  | case3 first len hlen half hless ih =>
      rw [lower_bound, dif_neg hlen]
      dsimp only
      rw [if_neg hless]
      have hrec : lower_bound less sorted n first (len / 2) ≤ first + len / 2 := ih
      omega

theorem inv_insertMessage (less : List I → Nat → Nat → Bool) (info : I → I) (hs : Inv s)
    (h : s.sorted_index.length < s.serverIndex.length) : Inv (insertMessage less info s) := by
  obtain ⟨k, hk, hperm⟩ := hs.sorted
  have hlen : s.sorted_index.length = k := by rw [hperm.length_eq, List.length_range]
  constructor
  · refine ⟨k + 1, ?_, ?_⟩
    · rw [insertMessage]
      dsimp only
      rw [List.length_modify]
      omega
    · rw [insertMessage]
      dsimp only
      have hle := lower_bound_le (less (s.serverIndex.modify s.sorted_index.length info))
        s.sorted_index s.sorted_index.length 0 s.sorted_index.length
      rw [List.range_succ]
      apply (List.perm_insertIdx _ _ (by omega)).trans
      rw [hlen]
      exact (hperm.cons k).trans (List.perm_append_singleton k _).symm
  · intro f hf
    rw [insertMessage]
    dsimp only
    rw [List.length_modify]
    exact hs.filter f hf

theorem sameCursor_insertMessage (less : List I → Nat → Nat → Bool) (info : I → I) :
    SameCursor s (insertMessage less info s) := by
  intro n hn
  have hlt : s.currentMessage < s.sorted_index.length := (List.getElem?_eq_some_iff.mp hn).1
  rw [insertMessage]
  dsimp only
  generalize lower_bound _ _ _ _ _ = insertAt
  by_cases hbefore : s.currentMessage ≥ insertAt
  · rw [if_pos ⟨hbefore, hlt⟩, List.getElem?_insertIdx_of_gt (by omega)]
    exact hn
  · rw [if_neg (fun h => hbefore h.1), List.getElem?_insertIdx_of_lt (by omega)]
    exact hn

theorem insertMessages_kept (less : List I → Nat → Nat → Bool) (info : Nat → I → I) (n : Nat)
    (hs : Inv s) (h : s.sorted_index.length + n ≤ s.serverIndex.length) :
    Inv (insertMessages less info n s) ∧ SameCursor s (insertMessages less info n s) ∧
      (insertMessages less info n s).currentFilter = s.currentFilter := by
  induction n generalizing s with
  | zero => exact ⟨hs, fun _ hn => hn, rfl⟩
  | succ n ih =>
      have hone := inv_insertMessage less (info s.sorted_index.length) hs (by omega)
      have hroom : (insertMessage less (info s.sorted_index.length) s).sorted_index.length + n ≤
          (insertMessage less (info s.sorted_index.length) s).serverIndex.length := by
        rw [insertMessage]
        dsimp only
        rw [List.length_modify]
        have hlen := List.length_insertIdx_le_succ (l := s.sorted_index)
          (x := s.sorted_index.length) (i := lower_bound
            (less (s.serverIndex.modify s.sorted_index.length (info s.sorted_index.length)))
            s.sorted_index s.sorted_index.length 0 s.sorted_index.length)
        omega
      obtain ⟨hinv, hcursor, hfilter⟩ := ih hone hroom
      rw [insertMessages]
      refine ⟨hinv, ?_, hfilter⟩
      intro m hm
      exact hcursor m (sameCursor_insertMessage less _ m hm)

theorem receivedAndFiltered_kept {less : List I → Nat → Nat → Bool} {info : Nat → I → I}
    {count : Nat} (hs : Inv s)
    (h : newMessagesReceivedAndFiltered less info s count = some s') :
    Inv s' ∧ SameCursor s s' ∧ s'.currentFilter = s.currentFilter := by
  rw [newMessagesReceivedAndFiltered] at h
  split_ifs at h with hlow hhigh
  cases h
  exact insertMessages_kept less info _ hs (by omega)

/-- The range of the filter may be put to any range of messages, or the filter be finished. -/
theorem Inv.withFilter (hs : Inv s) {f : Option FolderFilter} {n : Nat}
    (hf : ∀ g, f = some g → g.filterStart ≤ g.filterEnd ∧ g.filterEnd ≤ s.serverIndex.length) :
    Inv { s with currentFilter := f, newMailCheckCount := n } := ⟨hs.sorted, hf⟩

theorem newMessages_kept (blank : I) (count : Nat) (hs : Inv s) :
    Inv (newMessages blank s count) ∧ SameCursor s (newMessages blank s count) ∧
      (newMessages blank s count).currentFilter = s.currentFilter := by
  rw [newMessages]
  by_cases h : s.serverIndex.length < count
  · rw [if_pos h]
    refine ⟨⟨?_, ?_⟩, fun _ hn => hn, rfl⟩
    · obtain ⟨k, hk, hperm⟩ := hs.sorted
      refine ⟨k, ?_, hperm⟩
      rw [List.length_append]
      omega
    · intro f hf
      obtain ⟨hle, hend⟩ := hs.filter f hf
      rw [List.length_append]
      omega
  · rw [if_neg h]
    exact ⟨hs, fun _ hn => hn, rfl⟩

theorem Inv.sorted_le (hs : Inv s) : s.sorted_index.length ≤ s.serverIndex.length := by
  obtain ⟨k, hk, hperm⟩ := hs.sorted
  rw [hperm.length_eq, List.length_range]
  exact hk

theorem newMessagesReceived_kept {less : List I → Nat → Nat → Bool} {info : Nat → I → I}
    {hasFilter : Bool} (hs : Inv s) (h : newMessagesReceived less info hasFilter s = some s') :
    Inv s' ∧ SameCursor s s' ∧
      ∀ f, s.currentFilter = some f → s'.currentFilter = some f := by
  rw [newMessagesReceived] at h
  dsimp only at h
  split_ifs at h with hbusy hfilter
  · cases h
    exact ⟨hs.withFilter hs.filter, fun _ hn => hn, fun _ hf => hf⟩
  · cases h
    refine ⟨hs.withFilter ?_, fun _ hn => hn, ?_⟩
    · intro g hg
      cases hg
      exact ⟨hs.sorted_le, Nat.le_refl _⟩
    · intro f hf
      exact absurd (Or.inr (by rw [hf]; rfl)) hbusy
  · obtain ⟨hinv, hcursor, hsame⟩ := receivedAndFiltered_kept (hs.withFilter hs.filter) h
    exact ⟨hinv, hcursor, fun f hf => hsame.trans hf⟩

theorem messagesFiltered_kept {less : List I → Nat → Nat → Bool} {info : Nat → I → I}
    (hs : Inv s) (h : messagesFiltered less info s = some s') : Inv s' ∧ SameCursor s s' := by
  rw [messagesFiltered] at h
  cases hf : s.currentFilter with
  | none =>
      rw [hf] at h
      cases h
  | some f =>
      rw [hf] at h
      dsimp only at h
      have hnone : Inv { s with currentFilter := none } := hs.withFilter nofun
      split_ifs at h with hmail hend
      · obtain ⟨hinv, hcursor, -⟩ := receivedAndFiltered_kept hnone h
        exact ⟨hinv, hcursor⟩
      · obtain ⟨hinv, hcursor, -⟩ := receivedAndFiltered_kept hnone h
        exact ⟨hinv, hcursor⟩
      · cases h
        refine ⟨hs.withFilter ?_, fun _ hn => hn⟩
        intro g hg
        cases hg
        exact ⟨(hs.filter f hf).2, Nat.le_refl _⟩

theorem filterRan_kept (hs : Inv s) : Inv (filterRan s) ∧ SameCursor s (filterRan s) := by
  rw [filterRan]
  cases hf : s.currentFilter with
  | none => exact ⟨hs, fun _ hn => hn⟩
  | some f =>
      dsimp only
      split_ifs with hmore
      · refine ⟨hs.withFilter ?_, fun _ hn => hn⟩
        intro g hg
        cases hg
        exact ⟨(hs.filter f hf).2, Nat.le_refl _⟩
      · exact ⟨hs.withFilter nofun, fun _ hn => hn⟩

theorem setSortFunctionNoSave_kept {order : List Nat} (hs : Inv s)
    (h : order.Perm s.sorted_index) :
    Inv (setSortFunctionNoSave s order) ∧ SameCursor s (setSortFunctionNoSave s order) := by
  constructor
  · obtain ⟨k, hk, hperm⟩ := hs.sorted
    exact ⟨⟨k, hk, h.trans hperm⟩, hs.filter⟩
  · intro n hn
    have hmem : n ∈ order := h.mem_iff.mpr (List.mem_of_getElem? hn)
    have hcm : s.sorted_index.getD s.currentMessage s.currentMessage = n := by
      rw [List.getD_eq_getElem?_getD, hn]
      rfl
    rw [setSortFunctionNoSave]
    dsimp only
    rw [hcm, if_pos hmem]
    exact List.getElem?_idxOf hmem

end Shown
section Runs
variable {I : Type} {blank : I} {s₀ s s' : Folder I}

def Event.removed : Event I → List Range
  | .messagesRemoved removedList => removedList
  | _ => []

def Event.Finishes : Event I → Prop
  | .messagesFiltered .. => True
  | .filterRan => True
  | _ => False

structure Follows (s : Folder I) (e : Event I) (s' : Folder I) : Prop where
  entries : ∀ rs, e = .messagesRemoved rs → ∀ p < s.serverIndex.length, ¬ Gone rs p →
    s'.serverIndex[place rs p]? = s.serverIndex[p]?
  order : ∀ rs, e = .messagesRemoved rs →
    s'.sorted_index = (s.sorted_index.filter (stays rs)).map (place rs)
  cursor : ∀ n, s.sorted_index[s.currentMessage]? = some n → ¬ Gone e.removed n →
    s'.sorted_index[s'.currentMessage]? = some (place e.removed n)
  filter : ∀ f, s.currentFilter = some f → ¬ e.Finishes → ∃ f', s'.currentFilter = some f' ∧
    ∀ q, (f'.filterStart ≤ q ∧ q < f'.filterEnd) ↔
      ∃ p, (f.filterStart ≤ p ∧ p < f.filterEnd) ∧ ¬ Gone e.removed p ∧ place e.removed p = q

theorem mem_moved {rs : List Range} {a b q : Nat} :
    (place rs a ≤ q ∧ q < place rs b) ↔
      ∃ p, (a ≤ p ∧ p < b) ∧ ¬ Gone rs p ∧ place rs p = q := by
  constructor
  · intro ⟨hlow, hhigh⟩
    obtain ⟨p, hp, hkept, rfl⟩ := exists_place b hhigh
    exact ⟨p, ⟨(place_le_place_iff hkept).mp hlow, hp⟩, hkept, rfl⟩
  · rintro ⟨p, ⟨hlow, hhigh⟩, hkept, rfl⟩
    exact ⟨place_mono hlow, place_lt_place hhigh hkept⟩

theorem follows_of_same {e : Event I} (hremoved : e.removed = [])
    (hno : ∀ rs, e ≠ .messagesRemoved rs) (hcursor : SameCursor s s')
    (hfilter : ∀ f, s.currentFilter = some f → ¬ e.Finishes → s'.currentFilter = some f) :
    Follows s e s' := by
  constructor
  · intro rs he
    exact absurd he (hno rs)
  · intro rs he
    exact absurd he (hno rs)
  · intro n hn _
    rw [hremoved, place_nil]
    exact hcursor n hn
  · intro f hf he
    refine ⟨f, hfilter f hf he, ?_⟩
    intro q
    rw [hremoved, ← mem_moved, place_nil, place_nil]

theorem follows_removed {rs : List Range} (h : Removed rs s s') :
    Follows s (.messagesRemoved rs) s' := by
  constructor
  · intro rs' he
    cases he
    exact h.entries
  · intro rs' he
    cases he
    exact h.order
  · exact h.cursor
  · intro f hf _
    refine ⟨⟨place rs f.filterStart, place rs f.filterEnd⟩, ?_, fun q => mem_moved⟩
    rw [h.filter, hf]
    rfl

theorem step_kept {e : Event I} (hs : Inv s) (he : Allowed s e)
    (h : step blank s e = some s') : Inv s' ∧ Follows s e s' := by
  cases e with
  | messagesRemoved rs =>
      cases h
      have hr := removed_messagesRemoved hs he
      exact ⟨hs.removed hr, follows_removed hr⟩
  | newMessages count =>
      cases h
      obtain ⟨hinv, hcursor, hfilter⟩ := newMessages_kept blank count hs
      exact ⟨hinv, follows_of_same rfl nofun hcursor fun f hf _ => hfilter.trans hf⟩
  | newMessagesReceived less info hasFilter =>
      obtain ⟨hinv, hcursor, hfilter⟩ := newMessagesReceived_kept hs h
      exact ⟨hinv, follows_of_same rfl nofun hcursor fun f hf _ => hfilter f hf⟩
  | messagesFiltered less info =>
      obtain ⟨hinv, hcursor⟩ := messagesFiltered_kept hs h
      exact ⟨hinv, follows_of_same rfl nofun hcursor fun f _ hfin => absurd trivial hfin⟩
  | newMessagesReceivedAndFiltered less info count =>
      obtain ⟨hinv, hcursor, hfilter⟩ := receivedAndFiltered_kept hs h
      exact ⟨hinv, follows_of_same rfl nofun hcursor fun f hf _ => hfilter.trans hf⟩
  | filterRan =>
      cases h
      obtain ⟨hinv, hcursor⟩ := filterRan_kept hs
      exact ⟨hinv, follows_of_same rfl nofun hcursor fun f _ hfin => absurd trivial hfin⟩
  | setSortFunctionNoSave order =>
      cases h
      obtain ⟨hinv, hcursor⟩ := setSortFunctionNoSave_kept hs he
      exact ⟨hinv, follows_of_same rfl nofun hcursor fun f hf _ => hf⟩

theorem inv_opened (h : Opened s) : Inv s := by
  refine ⟨⟨_, Nat.le_refl _, h.sorted⟩, ?_⟩
  intro f hf
  rcases h.filter with hnone | hsome
  · rw [hnone] at hf
    cases hf
  · rw [hsome] at hf
    cases hf
    exact ⟨Nat.zero_le _, Nat.le_refl _⟩

theorem inv_reaches (h₀ : Opened s₀) (h : Reaches blank s₀ s) : Inv s := by
  induction h with
  | start => exact inv_opened h₀
  | step e _ he hstep ih => exact (step_kept ih he hstep).1

/-- In every state that a run of events reaches, `sorted_index` is a permutation of the first
positions of `serverIndex`; and whatever comes next, the messages that are left keep their order,
the cursor its message, and the filter its messages. -/
theorem folder_follows (h₀ : Opened s₀) (h : Reaches blank s₀ s) :
    (∃ k ≤ s.serverIndex.length, s.sorted_index.Perm (List.range k)) ∧
      ∀ e s', Allowed s e → step blank s e = some s' → Follows s e s' := by
  have hinv := inv_reaches h₀ h
  exact ⟨hinv.sorted, fun e s' he hstep => (step_kept hinv he hstep).2⟩

/-- Five messages, filtered while the second and the fourth are removed. -/
theorem folder_follows_removed :
    ∃ s : Folder Unit, s.sorted_index = [2, 0, 1] ∧ s.currentFilter = some ⟨0, 3⟩ ∧
      ∃ k ≤ s.serverIndex.length, s.sorted_index.Perm (List.range k) := by
  let s₀ : Folder Unit := ⟨List.replicate 5 (), [4, 0, 1, 3, 2], 4, none, some ⟨0, 5⟩, 0, 0⟩
  let e : Event Unit := .messagesRemoved [(1, 1), (3, 3)]
  have h₀ : Opened s₀ := ⟨by decide, Or.inr rfl⟩
  have he : Allowed s₀ e := ⟨by decide, by decide⟩
  have hrun : Reaches () s₀ (messagesRemoved s₀ [(1, 1), (3, 3)]) := .step e .start he rfl
  exact ⟨_, by decide, by decide, (folder_follows h₀ hrun).1⟩

end Runs
end Cone.MyFolder
