import Cone.Lib.StrictWeak
import Cone.Imapsubj
import Cone.MyFolderRuns
import Mathlib.Data.List.Lex
import Mathlib.Data.List.GetD

/-! # The orders of a folder

The comparisons cone/myfolder.C sorts the index by, and the insertion of new messages in the order
of one of them. -/
set_option autoImplicit false
namespace Cone.MyFolderSort

open Cone.Ctype Cone.MyFolder Cone.Lib.StrictWeak
open Cone.Imapsubj (stripsubj)

abbrev Text := List UInt8

/-- `std::string` compares its characters as unsigned ones. -/
local instance byteOrder : LinearOrder UInt8 where
  le_refl := UInt8.le_refl
  le_trans _ _ _ := UInt8.le_trans
  le_antisymm _ _ := UInt8.le_antisymm
  le_total := UInt8.le_total
  lt_iff_le_not_ge _ _ := by
    rw [UInt8.not_le]
    exact ⟨fun h => ⟨UInt8.le_of_lt h, h⟩, fun h => h.2⟩
  toDecidableLE := inferInstance

section Comparisons

structure Index where
  uid : Text
  arrivalDate : Int
  messageDate : Int
  status_code : UInt8
  tag : Nat
  upperSubject_utf8 : Text
  upperName_utf8 : Text
  deriving DecidableEq, Repr

def Index.blank : Index := ⟨[], 0, 0, SP, 0, [], []⟩

def entry (serverIndex : List Index) (a : Nat) : Index := serverIndex.getD a Index.blank

def Index.date (i : Index) : Int := if i.messageDate = 0 then i.arrivalDate else i.messageDate

def sortByArrival (_serverIndex : List Index) (a b : Nat) : Bool := decide (a < b)

def sortByDate (serverIndex : List Index) (a b : Nat) : Bool :=
  let ad := (entry serverIndex a).date
  let bd := (entry serverIndex b).date
  if ad = 0 ∨ bd = 0 then decide (a < b) else decide (ad < bd)

/-- `rfc822_coresubj_nouc`, of a C string: the result and `*hasrefwd`. -/
def coresubj_nouc (s : Text) : Text × Nat :=
  let x := stripsubj (s.takeWhile (· ≠ NUL)) none
  (x.p, x.hasrefwd)

def subject (serverIndex : List Index) (a : Nat) : Text × Nat :=
  coresubj_nouc (entry serverIndex a).upperSubject_utf8

def sortBySubject (serverIndex : List Index) (a b : Nat) : Bool :=
  if (subject serverIndex a).1 = (subject serverIndex b).1 then
    if (subject serverIndex a).2 = (subject serverIndex b).2 then sortByDate serverIndex a b
    else decide ((subject serverIndex a).2 < (subject serverIndex b).2)
  else decide ((subject serverIndex a).1 < (subject serverIndex b).1)

def sortByName (serverIndex : List Index) (a b : Nat) : Bool :=
  let sa := (entry serverIndex a).upperName_utf8
  let sb := (entry serverIndex b).upperName_utf8
  if sa = sb then sortByDate serverIndex a b else decide (sa < sb)

inductive SortFunction where
  | sortByArrival
  | sortByDate
  | sortBySubject
  | sortByName
  deriving DecidableEq, Repr

def SortFunction.less : SortFunction → List Index → Nat → Nat → Bool
  | .sortByArrival => MyFolderSort.sortByArrival
  | .sortByDate => MyFolderSort.sortByDate
  | .sortBySubject => MyFolderSort.sortBySubject
  | .sortByName => MyFolderSort.sortByName

/-- `IndexSort::operator()` -/
def indexSort (sort_function : SortFunction) (sort_function_not : Bool) (serverIndex : List Index)
    (a b : Nat) : Bool :=
  if sort_function_not then sort_function.less serverIndex b a
  else sort_function.less serverIndex a b

end Comparisons

section Insertions

structure MessageInfo where
  uid : Text
  deleted : Bool
  unread : Bool
  replied : Bool
  deriving DecidableEq, Repr

def Index.setStatusCode (i : Index) (flags : MessageInfo) : Index :=
  let status_code := if flags.deleted then 'D' else if flags.unread then 'N'
    else if flags.replied then 'R' else ' '
  { i with status_code := byte status_code }

def Index.setTag (isTagName : Text → Option Nat) (i : Index) (keywords : List Text) : Index :=
  { i with tag := (keywords.filterMap isTagName).foldl max 0 }

def Index.insertedAs (isTagName : Text → Option Nat) (flags : MessageInfo) (keywords : List Text)
    (i : Index) : Index :=
  ({ i with uid := flags.uid }.setStatusCode flags).setTag isTagName keywords

structure Arrival where
  headers : List Index
  info : Nat → MessageInfo × List Text
  newMessages : Nat

def arrive (isTagName : Text → Option Nat) (sort_function : SortFunction)
    (sort_function_not : Bool) (s : Folder Index) (a : Arrival) : Option (Folder Index) :=
  newMessagesReceivedAndFiltered (indexSort sort_function sort_function_not)
    (fun n => Index.insertedAs isTagName (a.info n).1 (a.info n).2)
    { s with serverIndex := s.serverIndex ++ a.headers } a.newMessages

/-- `order` is what `std::sort` may make of the messages of `sorted_index`. -/
def Resort (sort_function : SortFunction) (sort_function_not : Bool) (s : Folder Index)
    (order : List Nat) : Prop :=
  order.Perm s.sorted_index ∧
    InOrder (indexSort sort_function sort_function_not s.serverIndex) order

structure Sorted (sort_function : SortFunction) (sort_function_not : Bool) (s : Folder Index) :
    Prop where
  shown : s.sorted_index.Perm (List.range s.sorted_index.length)
  known : s.sorted_index.length ≤ s.serverIndex.length
  resort : Resort sort_function sort_function_not s s.sorted_index

end Insertions

section Dates
variable {f g : List Index} {S : Set Nat}

def SortFunction.ComparesDates (sort_function : SortFunction) (f : List Index) (a b : Nat) : Prop :=
  match sort_function with
  | .sortByArrival => False
  | .sortByDate => True
  | .sortBySubject => subject f a = subject f b
  | .sortByName => (entry f a).upperName_utf8 = (entry f b).upperName_utf8

def DatedOn (f : List Index) (S : Set Nat) : Prop :=
  ∀ i ∈ S, ∀ j ∈ S, ∀ k ∈ S, i < j → j < k → (entry f j).date = 0 → (entry f i).date ≠ 0 →
    (entry f k).date ≠ 0 → (entry f i).date < (entry f k).date

def Dated (sort_function : SortFunction) (f : List Index) : Prop :=
  ∀ i j k, i < j → j < k → k < f.length → sort_function.ComparesDates f i j →
    sort_function.ComparesDates f j k → (entry f j).date = 0 → (entry f i).date ≠ 0 →
    (entry f k).date ≠ 0 → (entry f i).date < (entry f k).date

theorem sortByDate_iff {a b : Nat} : sortByDate f a b ↔
    if (entry f a).date = 0 ∨ (entry f b).date = 0 then a < b
    else (entry f a).date < (entry f b).date := by
  rw [sortByDate]
  split
  · exact decide_eq_true_iff
  · exact decide_eq_true_iff

theorem sortByDate_undated {a b : Nat} (h : (entry f a).date = 0 ∨ (entry f b).date = 0) :
    sortByDate f a b ↔ a < b := by
  rw [sortByDate_iff, if_pos h]

theorem sortByDate_dated {a b : Nat} (ha : (entry f a).date ≠ 0) (hb : (entry f b).date ≠ 0) :
    sortByDate f a b ↔ (entry f a).date < (entry f b).date := by
  rw [sortByDate_iff, if_neg (not_or.2 ⟨ha, hb⟩)]

theorem lt_of_date_ne {a b : Nat} (h : (entry f a).date ≠ (entry f b).date) (hle : ¬ a < b) :
    b < a :=
  Nat.lt_of_le_of_ne (Nat.not_lt.1 hle) fun he => h (by rw [he])

theorem trans_sortByDate (dated : DatedOn f S) {a b c : Nat} (ha : a ∈ S) (hb : b ∈ S) (hc : c ∈ S)
    (hab : sortByDate f a b) (hbc : sortByDate f b c) : sortByDate f a c := by
  by_cases hzb : (entry f b).date = 0
  · rw [sortByDate_undated (Or.inr hzb)] at hab
    rw [sortByDate_undated (Or.inl hzb)] at hbc
    by_cases hz : (entry f a).date = 0 ∨ (entry f c).date = 0
    · rw [sortByDate_undated hz]
      exact hab.trans hbc
    · obtain ⟨hza, hzc⟩ := not_or.1 hz
      rw [sortByDate_dated hza hzc]
      exact dated a ha b hb c hc hab hbc hzb hza hzc
  · by_cases hza : (entry f a).date = 0
    · rw [sortByDate_undated (Or.inl hza)] at hab ⊢
      by_cases hzc : (entry f c).date = 0
      · rw [sortByDate_undated (Or.inr hzc)] at hbc
        exact hab.trans hbc
      · -- `c` in front of the undated `a` would be older than `b`
        rw [sortByDate_dated hzb hzc] at hbc
        by_contra hle
        have hca := lt_of_date_ne (by rw [hza]; exact Ne.symm hzc) hle
        exact lt_asymm hbc (dated c hc a ha b hb hca hab hza hzc hzb)
    · rw [sortByDate_dated hza hzb] at hab
      by_cases hzc : (entry f c).date = 0
      · rw [sortByDate_undated (Or.inr hzc)] at hbc ⊢
        by_contra hle
        have hca := lt_of_date_ne (by rw [hzc]; exact hza) hle
        exact lt_asymm hab (dated b hb c hc a ha hbc hca hzc hzb hza)
      · rw [sortByDate_dated hzb hzc] at hbc
        rw [sortByDate_dated hza hzc]
        exact hab.trans hbc

/-- Where neither message is less, they are one, or both have the one date. -/
theorem ties_sortByDate {a b : Nat} (hab : ¬ sortByDate f a b) (hba : ¬ sortByDate f b a) :
    a = b ∨ (entry f a).date ≠ 0 ∧ (entry f b).date ≠ 0 ∧
      (entry f a).date = (entry f b).date := by
  by_cases hz : (entry f a).date = 0 ∨ (entry f b).date = 0
  · rw [sortByDate_undated hz] at hab
    rw [sortByDate_undated hz.symm] at hba
    exact Or.inl (by omega)
  · obtain ⟨hza, hzb⟩ := not_or.1 hz
    rw [sortByDate_dated hza hzb] at hab
    rw [sortByDate_dated hzb hza] at hba
    exact Or.inr ⟨hza, hzb, by omega⟩

theorem irrefl_sortByDate (a : Nat) : ¬ sortByDate f a a := by
  rw [sortByDate_iff]
  split <;> omega

theorem strictWeakOn_sortByDate : StrictWeakOn (sortByDate f) S ↔ DatedOn f S := by
  constructor
  · intro order i hi j hj k hk hij hjk h0 hdi hdk
    have hless := (sortByDate_undated (Or.inr h0)).2 hij
    have hless' := (sortByDate_undated (Or.inl h0)).2 hjk
    exact (sortByDate_dated hdi hdk).1 (order.trans i hi j hj k hk hless hless')
  · intro dated
    refine ⟨fun a _ => irrefl_sortByDate a, ?_, ?_⟩
    · intro a ha b hb c hc
      exact trans_sortByDate dated ha hb hc
    · intro a ha b hb c hc hab hba hbc hcb
      rcases ties_sortByDate hab hba with rfl | ⟨hza, hzb, he⟩
      · exact hbc
      · rcases ties_sortByDate hbc hcb with rfl | ⟨_, hzc, he'⟩
        · exact hab
        · rw [sortByDate_dated hza hzc]
          omega

def positions (f : List Index) : Set Nat := {a | a < f.length}

theorem sortByName_eq :
    sortByName f = byKey (fun a => (entry f a).upperName_utf8) (sortByDate f) := by
  funext a b
  rw [sortByName, byKey]
  by_cases h : (entry f a).upperName_utf8 = (entry f b).upperName_utf8
  · rw [if_pos h, if_pos h]
  · rw [if_neg h, if_neg h]
    exact decide_eq_decide.2 Iff.rfl

theorem sortBySubject_eq :
    sortBySubject f =
      byKey (fun a => (subject f a).1) (byKey (fun a => (subject f a).2) (sortByDate f)) := by
  funext a b
  rw [sortBySubject, byKey]
  by_cases h : (subject f a).1 = (subject f b).1
  · rw [if_pos h, if_pos h]
    rfl
  · rw [if_neg h, if_neg h]
    exact decide_eq_decide.2 Iff.rfl

theorem strictWeakOn_less (sort_function : SortFunction) :
    StrictWeakOn (sort_function.less f) (positions f) ↔ Dated sort_function f := by
  cases sort_function with
  | sortByArrival =>
      refine ⟨fun _ i j k _ _ _ h => h.elim, fun _ => ⟨?_, ?_, ?_⟩⟩
      · intro a _ h
        exact lt_irrefl a (of_decide_eq_true h)
      · intro a _ b _ c _ hab hbc
        exact decide_eq_true (Nat.lt_trans (of_decide_eq_true hab) (of_decide_eq_true hbc))
      · intro a _ b _ c _ hab hba hbc hcb
        simp only [SortFunction.less, MyFolderSort.sortByArrival, decide_eq_true_eq] at *
        omega
  | sortByDate =>
      refine strictWeakOn_sortByDate.trans ⟨?_, ?_⟩
      · intro dated i j k hij hjk hk _ _
        exact dated i (hij.trans (hjk.trans hk)) j (hjk.trans hk) k hk hij hjk
      · intro dated i _ j _ k hk hij hjk
        exact dated i j k hij hjk hk trivial trivial
  | sortBySubject =>
      rw [SortFunction.less, sortBySubject_eq, strictWeakOn_byKey]
      simp only [strictWeakOn_byKey, strictWeakOn_sortByDate]
      constructor
      · intro dated i j k hij hjk hk he he'
        exact dated (subject f j).1 (subject f j).2
          i ⟨⟨hij.trans (hjk.trans hk), congrArg Prod.fst he⟩, congrArg Prod.snd he⟩
          j ⟨⟨hjk.trans hk, rfl⟩, rfl⟩
          k ⟨⟨hk, congrArg Prod.fst he'.symm⟩, congrArg Prod.snd he'.symm⟩ hij hjk
      · intro dated t r i hi j hj k hk hij hjk
        exact dated i j k hij hjk hk.1.1
          (Prod.ext (hi.1.2.trans hj.1.2.symm) (hi.2.trans hj.2.symm))
          (Prod.ext (hj.1.2.trans hk.1.2.symm) (hj.2.trans hk.2.symm))
  | sortByName =>
      rw [SortFunction.less, sortByName_eq, strictWeakOn_byKey]
      simp only [strictWeakOn_sortByDate]
      constructor
      · intro dated i j k hij hjk hk he he'
        exact dated (entry f j).upperName_utf8 i ⟨hij.trans (hjk.trans hk), he⟩
          j ⟨hjk.trans hk, rfl⟩ k ⟨hk, he'.symm⟩ hij hjk
      · intro dated t i hi j hj k hk hij hjk
        exact dated i j k hij hjk hk.1 (hi.2.trans hj.2.symm) (hj.2.trans hk.2.symm)

theorem strictWeakOn_indexSort (sort_function : SortFunction) (sort_function_not : Bool) :
    StrictWeakOn (indexSort sort_function sort_function_not f) (positions f) ↔
      Dated sort_function f := by
  rw [← strictWeakOn_less]
  cases sort_function_not with
  | false => exact Iff.rfl
  | true => exact strictWeakOn_swap

end Dates

section Alike
variable {f g : List Index}

/-- The comparisons cannot tell the two entries apart. -/
structure Alike (i j : Index) : Prop where
  arrivalDate : i.arrivalDate = j.arrivalDate
  messageDate : i.messageDate = j.messageDate
  upperSubject_utf8 : i.upperSubject_utf8 = j.upperSubject_utf8
  upperName_utf8 : i.upperName_utf8 = j.upperName_utf8

theorem Alike.date {i j : Index} (h : Alike i j) : i.date = j.date := by
  rw [Index.date, Index.date, h.messageDate, h.arrivalDate]

theorem Alike.symm {i j : Index} (h : Alike i j) : Alike j i :=
  ⟨h.arrivalDate.symm, h.messageDate.symm, h.upperSubject_utf8.symm, h.upperName_utf8.symm⟩

theorem Alike.trans {i j k : Index} (h : Alike i j) (h' : Alike j k) : Alike i k :=
  ⟨h.arrivalDate.trans h'.arrivalDate, h.messageDate.trans h'.messageDate,
    h.upperSubject_utf8.trans h'.upperSubject_utf8, h.upperName_utf8.trans h'.upperName_utf8⟩

theorem Alike.refl (i : Index) : Alike i i := ⟨rfl, rfl, rfl, rfl⟩

theorem less_alike {a b : Nat} (ha : Alike (entry f a) (entry g a))
    (hb : Alike (entry f b) (entry g b)) (sort_function : SortFunction) :
    sort_function.less f a b = sort_function.less g a b := by
  have hdate : sortByDate f a b = sortByDate g a b := by
    simp only [sortByDate, ha.date, hb.date]
  cases sort_function with
  | sortByArrival => rfl
  | sortByDate => exact hdate
  | sortBySubject =>
      have hsa : subject f a = subject g a := by rw [subject, ha.upperSubject_utf8]; rfl
      have hsb : subject f b = subject g b := by rw [subject, hb.upperSubject_utf8]; rfl
      rw [SortFunction.less, sortBySubject, hsa, hsb, hdate]
      rfl
  | sortByName =>
      simp only [SortFunction.less, sortByName, ha.upperName_utf8, hb.upperName_utf8, hdate]

theorem indexSort_alike {a b : Nat} (ha : Alike (entry f a) (entry g a))
    (hb : Alike (entry f b) (entry g b)) (sort_function : SortFunction)
    (sort_function_not : Bool) :
    indexSort sort_function sort_function_not f a b =
      indexSort sort_function sort_function_not g a b := by
  cases sort_function_not with
  | false => exact less_alike ha hb sort_function
  | true => exact less_alike hb ha sort_function

theorem dated_alike {sort_function : SortFunction} (hlen : f.length ≤ g.length)
    (h : ∀ a, a < f.length → Alike (entry f a) (entry g a)) (dated : Dated sort_function g) :
    Dated sort_function f := by
  intro i j k hij hjk hk he he'
  have hi := h i (hij.trans (hjk.trans hk))
  have hj := h j (hjk.trans hk)
  have hk' := h k hk
  rw [hi.date, hj.date, hk'.date]
  have compares : ∀ {a b : Nat}, Alike (entry f a) (entry g a) → Alike (entry f b) (entry g b) →
      sort_function.ComparesDates f a b → sort_function.ComparesDates g a b := by
    intro a b ha hb hc
    cases sort_function with
    | sortByArrival => exact hc
    | sortByDate => exact hc
    | sortBySubject =>
        simpa only [SortFunction.ComparesDates, subject, ha.upperSubject_utf8,
          hb.upperSubject_utf8] using hc
    | sortByName =>
        simpa only [SortFunction.ComparesDates, ha.upperName_utf8, hb.upperName_utf8] using hc
  exact dated i j k hij hjk (hk.trans_le hlen) (compares hi hj he) (compares hj hk' he')

theorem alike_modify {change : Index → Index} (hchange : ∀ i, Alike (change i) i)
    (f : List Index) (n a : Nat) : Alike (entry (f.modify n change) a) (entry f a) := by
  rw [entry, entry, List.getD_eq_getElem?_getD, List.getD_eq_getElem?_getD, List.getElem?_modify]
  cases f[a]? with
  | none => exact Alike.refl _
  | some i =>
      by_cases h : n = a
      · simpa [h] using hchange i
      · simpa [h] using Alike.refl i

theorem entry_append {a : Nat} (h : a < f.length) : entry (f ++ g) a = entry f a := by
  rw [entry, entry, List.getD_eq_getElem?_getD, List.getElem?_append_left h]
  rfl

theorem alike_insertedAs (isTagName : Text → Option Nat) (flags : MessageInfo)
    (keywords : List Text) (i : Index) : Alike (i.insertedAs isTagName flags keywords) i :=
  ⟨rfl, rfl, rfl, rfl⟩

end Alike

section Inserted
variable {sort_function : SortFunction} {sort_function_not : Bool} {s s' : Folder Index}

theorem lower_bound_spec {less : Nat → Nat → Bool} {sorted : List Nat} {n : Nat}
    (split : ∀ i j, i ≤ j → j < sorted.length → less (sorted.getD j 0) n →
      less (sorted.getD i 0) n) (first len : Nat) (h : first + len ≤ sorted.length)
    (before : ∀ i < first, less (sorted.getD i 0) n)
    (behind : ∀ i, first + len ≤ i → i < sorted.length → ¬ less (sorted.getD i 0) n) :
    (∀ i < lower_bound less sorted n first len, less (sorted.getD i 0) n) ∧
      ∀ i, lower_bound less sorted n first len ≤ i → i < sorted.length →
        ¬ less (sorted.getD i 0) n := by
  induction first, len using lower_bound.induct less sorted n with
  | case1 first =>
      rw [lower_bound, dif_pos rfl]
      exact ⟨before, behind⟩
  | case2 first len hlen half hless ih =>
      rw [lower_bound, dif_neg hlen]
      dsimp only
      rw [if_pos hless]
      refine ih (by omega) ?_ ?_
      · intro i hi
        exact split i (first + half) (by omega) (by omega) hless
      · intro i hi
        exact behind i (by omega)
  | case3 first len hlen half hless ih =>
      rw [lower_bound, dif_neg hlen]
      dsimp only
      rw [if_neg hless]
      refine ih (by omega) before ?_
      intro i hi hi' hless'
      exact hless (split (first + half) i hi hi' hless')

theorem Sorted.lt (h : Sorted sort_function sort_function_not s) {a : Nat}
    (mem : a ∈ s.sorted_index) : a < s.sorted_index.length :=
  List.mem_range.1 (h.shown.subset mem)

theorem inOrder_insertMessage {info : Index → Index} (hinfo : ∀ i, Alike (info i) i)
    (h : Sorted sort_function sort_function_not s)
    (hlt : s.sorted_index.length < s.serverIndex.length)
    (order : StrictWeakOn (indexSort sort_function sort_function_not s.serverIndex)
      (positions s.serverIndex)) :
    InOrder (indexSort sort_function sort_function_not s.serverIndex)
      (insertMessage (indexSort sort_function sort_function_not) info s).sorted_index := by
  have hsame : indexSort sort_function sort_function_not
      (s.serverIndex.modify s.sorted_index.length info) =
        indexSort sort_function sort_function_not s.serverIndex := by
    funext a b
    exact indexSort_alike (alike_modify hinfo _ _ a) (alike_modify hinfo _ _ b) _ _
  have hpos : ∀ a ∈ s.sorted_index, a ∈ positions s.serverIndex :=
    fun a mem => (h.lt mem).trans hlt
  have hsorted := h.resort.2
  have hsplit : ∀ i j, i ≤ j → j < s.sorted_index.length →
      indexSort sort_function sort_function_not s.serverIndex (s.sorted_index.getD j 0)
        s.sorted_index.length →
      indexSort sort_function sort_function_not s.serverIndex (s.sorted_index.getD i 0)
        s.sorted_index.length := by
    intro i j hi hj hless
    rw [List.getD_eq_getElem _ _ hj] at hless
    rw [List.getD_eq_getElem _ _ (by omega)]
    exact hsorted.less_first order hpos hlt (by omega) hj hi hless
  obtain ⟨before, behind⟩ := lower_bound_spec hsplit 0 s.sorted_index.length (by omega)
    (fun i hi => absurd hi (Nat.not_lt_zero i)) (fun i hi hi' => absurd hi' (by omega))
  have hle := lower_bound_le (indexSort sort_function sort_function_not s.serverIndex)
    s.sorted_index s.sorted_index.length 0 s.sorted_index.length
  rw [insertMessage, hsame]
  refine hsorted.insertIdx order hpos hlt (by omega) ?_ ?_
  · intro i hi hp
    have hless := before i hp
    rwa [List.getD_eq_getElem _ _ hi] at hless
  · intro i hi hp
    have hless := behind i hp hi
    rwa [List.getD_eq_getElem _ _ hi] at hless

theorem serverIndex_insertMessage (less : List Index → Nat → Nat → Bool) (info : Index → Index) :
    (insertMessage less info s).serverIndex =
      s.serverIndex.modify s.sorted_index.length info := rfl

theorem alike_insertMessage (less : List Index → Nat → Nat → Bool) {info : Index → Index}
    (hinfo : ∀ i, Alike (info i) i) (a : Nat) :
    Alike (entry (insertMessage less info s).serverIndex a) (entry s.serverIndex a) :=
  alike_modify hinfo _ _ a

theorem length_insertMessage (less : List Index → Nat → Nat → Bool) (info : Index → Index) :
    (insertMessage less info s).sorted_index.length = s.sorted_index.length + 1 := by
  have hle := lower_bound_le (less (s.serverIndex.modify s.sorted_index.length info))
    s.sorted_index s.sorted_index.length 0 s.sorted_index.length
  rw [insertMessage]
  exact List.length_insertIdx_of_le_length (by omega) _

theorem sorted_insertMessage {info : Index → Index} (hinfo : ∀ i, Alike (info i) i)
    (h : Sorted sort_function sort_function_not s)
    (hlt : s.sorted_index.length < s.serverIndex.length)
    (dated : Dated sort_function s.serverIndex) :
    Sorted sort_function sort_function_not
      (insertMessage (indexSort sort_function sort_function_not) info s) := by
  have hlen := @length_insertMessage s (indexSort sort_function sort_function_not) info
  have hle := lower_bound_le (indexSort sort_function sort_function_not
    (s.serverIndex.modify s.sorted_index.length info)) s.sorted_index s.sorted_index.length 0
    s.sorted_index.length
  refine ⟨?_, ?_, List.Perm.refl _, ?_⟩
  · rw [hlen, List.range_succ]
    apply (List.perm_insertIdx _ _ (by omega)).trans
    exact (h.shown.cons _).trans (List.perm_append_singleton _ _).symm
  · rw [hlen, serverIndex_insertMessage, List.length_modify]
    exact hlt
  · refine (inOrder_insertMessage hinfo h hlt ((strictWeakOn_indexSort _ _).2 dated)).congr ?_
    intro a _ b _
    exact indexSort_alike (alike_insertMessage _ hinfo a) (alike_insertMessage _ hinfo b) _ _

theorem sorted_insertMessages {info : Nat → Index → Index} (hinfo : ∀ n i, Alike (info n i) i)
    (n : Nat) (h : Sorted sort_function sort_function_not s)
    (hle : s.sorted_index.length + n ≤ s.serverIndex.length)
    (dated : Dated sort_function s.serverIndex) :
    Sorted sort_function sort_function_not
      (insertMessages (indexSort sort_function sort_function_not) info n s) := by
  induction n generalizing s with
  | zero => exact h
  | succ n ih =>
      rw [insertMessages]
      have halike := @alike_insertMessage s (indexSort sort_function sort_function_not)
        (info s.sorted_index.length) (hinfo _)
      have hlen := @length_insertMessage s (indexSort sort_function sort_function_not)
        (info s.sorted_index.length)
      have hlen' : (insertMessage (indexSort sort_function sort_function_not)
          (info s.sorted_index.length) s).serverIndex.length = s.serverIndex.length := by
        rw [serverIndex_insertMessage, List.length_modify]
      refine ih (sorted_insertMessage (hinfo _) h (by omega) dated) (by omega) ?_
      exact dated_alike hlen'.le (fun a _ => halike a) dated

theorem alike_insertMessages (less : List Index → Nat → Nat → Bool) {info : Nat → Index → Index}
    (hinfo : ∀ n i, Alike (info n i) i) (n : Nat) :
    (insertMessages less info n s).serverIndex.length = s.serverIndex.length ∧
      ∀ a, Alike (entry s.serverIndex a) (entry (insertMessages less info n s).serverIndex a) := by
  induction n generalizing s with
  | zero => exact ⟨rfl, fun a => Alike.refl _⟩
  | succ n ih =>
      obtain ⟨hlen, halike⟩ := @ih (insertMessage less (info s.sorted_index.length) s)
      refine ⟨?_, fun a => ?_⟩
      · rw [insertMessages, hlen, serverIndex_insertMessage, List.length_modify]
      · exact (alike_insertMessage less (hinfo _) a).symm.trans (halike a)

end Inserted

section Runs
variable {isTagName : Text → Option Nat} {sort_function : SortFunction} {sort_function_not : Bool}
  {s s' : Folder Index}

theorem dated_arrive {a : Arrival}
    (h : arrive isTagName sort_function sort_function_not s a = some s')
    (dated : Dated sort_function s'.serverIndex) :
    Dated sort_function (s.serverIndex ++ a.headers) := by
  simp only [arrive, newMessagesReceivedAndFiltered] at h
  split at h
  · cases h
  · split at h
    · cases h
    · obtain rfl := Option.some.inj h
      obtain ⟨hlen, halike⟩ := @alike_insertMessages
        { s with serverIndex := s.serverIndex ++ a.headers }
        (indexSort sort_function sort_function_not) _
        (fun n => alike_insertedAs isTagName (a.info n).1 (a.info n).2)
        (a.newMessages - s.sorted_index.length)
      exact dated_alike hlen.ge (fun b _ => halike b) dated

theorem Sorted.append (h : Sorted sort_function sort_function_not s) (headers : List Index) :
    Sorted sort_function sort_function_not
      { s with serverIndex := s.serverIndex ++ headers } := by
  refine ⟨h.shown, ?_, List.Perm.refl _, ?_⟩
  · rw [List.length_append]
    exact Nat.le_add_right_of_le h.known
  · refine h.resort.2.congr fun a ha b hb => ?_
    have hentry := @entry_append s.serverIndex headers a ((h.lt ha).trans_le h.known)
    have hentry' := @entry_append s.serverIndex headers b ((h.lt hb).trans_le h.known)
    exact indexSort_alike (hentry ▸ Alike.refl _) (hentry' ▸ Alike.refl _) _ _

theorem sorted_arrive {a : Arrival} (sorted : Sorted sort_function sort_function_not s)
    (h : arrive isTagName sort_function sort_function_not s a = some s')
    (dated : Dated sort_function s'.serverIndex) :
    Sorted sort_function sort_function_not s' := by
  have hdated := dated_arrive h dated
  simp only [arrive, newMessagesReceivedAndFiltered] at h
  split at h
  · cases h
  · next hle =>
      split at h
      · cases h
      · next hle' =>
          obtain rfl := Option.some.inj h
          refine sorted_insertMessages
            (fun n => alike_insertedAs isTagName (a.info n).1 (a.info n).2) _
            (sorted.append a.headers) ?_ hdated
          show s.sorted_index.length + (a.newMessages - s.sorted_index.length) ≤
            (s.serverIndex ++ a.headers).length
          omega

theorem dated_run {arrivals : List Arrival}
    (h : arrivals.foldlM (arrive isTagName sort_function sort_function_not) s = some s')
    (dated : Dated sort_function s'.serverIndex) : Dated sort_function s.serverIndex := by
  induction arrivals generalizing s with
  | nil =>
      obtain rfl := Option.some.inj h
      exact dated
  | cons a arrivals ih =>
      rw [List.foldlM_cons] at h
      obtain ⟨t, ht, hrest⟩ := Option.bind_eq_some_iff.1 h
      refine dated_alike (by rw [List.length_append]; omega) (fun b hb => ?_)
        (dated_arrive ht (ih hrest))
      rw [entry_append hb]
      exact Alike.refl _

theorem sorted_run {arrivals : List Arrival} (sorted : Sorted sort_function sort_function_not s)
    (h : arrivals.foldlM (arrive isTagName sort_function sort_function_not) s = some s')
    (dated : Dated sort_function s'.serverIndex) :
    Sorted sort_function sort_function_not s' := by
  induction arrivals generalizing s with
  | nil =>
      obtain rfl := Option.some.inj h
      exact sorted
  | cons a arrivals ih =>
      rw [List.foldlM_cons] at h
      obtain ⟨t, ht, hrest⟩ := Option.bind_eq_some_iff.1 h
      exact ih (sorted_arrive sorted ht (dated_run hrest dated)) hrest

theorem indexSort_orders (isTagName : Text → Option Nat) (sort_function : SortFunction)
    (sort_function_not : Bool) (serverIndex : List Index) :
    (StrictWeakOn (indexSort sort_function sort_function_not serverIndex)
        (positions serverIndex) ∧
      ∀ s arrivals s', Sorted sort_function sort_function_not s →
        List.foldlM (arrive isTagName sort_function sort_function_not) s arrivals = some s' →
        s'.serverIndex = serverIndex → Sorted sort_function sort_function_not s') ↔
      Dated sort_function serverIndex := by
  rw [strictWeakOn_indexSort]
  refine ⟨fun h => h.1, fun dated => ⟨dated, ?_⟩⟩
  rintro s arrivals s' sorted h rfl
  exact sorted_run sorted h dated

def Index.sent (date : Int) : Index := { Index.blank with messageDate := date }

/-- Message 0 is older than the undated message 1 by its place, message 1 than message 2, and
message 2 than message 0 by its date; they are inserted in an order that is none. -/
theorem sortByDate_unordered :
    let serverIndex := [Index.sent 5, Index.sent 0, Index.sent 3]
    let inserted := insertMessages (indexSort .sortByDate false) (fun _ i => i) 3
      ⟨serverIndex, [], 0, none, none, 0, 0⟩
    indexSort .sortByDate false serverIndex 0 1 = true ∧
      indexSort .sortByDate false serverIndex 1 2 = true ∧
      indexSort .sortByDate false serverIndex 2 0 = true ∧
      ¬ StrictWeakOn (indexSort .sortByDate false serverIndex) (positions serverIndex) ∧
      inserted.sorted_index = [0, 1, 2] ∧
      ¬ InOrder (indexSort .sortByDate false serverIndex) inserted.sorted_index := by
  have inserted : (insertMessages (indexSort .sortByDate false) (fun _ i => i) 3
      ⟨[Index.sent 5, Index.sent 0, Index.sent 3], [], 0, none, none, 0, 0⟩).sorted_index =
        [0, 1, 2] := by decide +kernel
  refine ⟨by decide, by decide, by decide, fun order => ?_, inserted, ?_⟩
  · exact absurd (order.trans 0 (show 0 < 3 by decide) 1 (show 1 < 3 by decide) 2
      (show 2 < 3 by decide) (by decide) (by decide)) (by decide)
  · rw [inserted, InOrder]
    decide

end Runs
end Cone.MyFolderSort
