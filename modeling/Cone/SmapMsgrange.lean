import Mathlib.Data.Finset.Basic
import Cone.Lib.Decimal
import Cone.Lib.Renumber

/-! # SMAP EXPUNGE and EXISTS, and the ranges of a message set (`smap.C`, `smapmsgrange.C`)

A message is known by its uid.  The words of a line are what follows its second one. -/
set_option autoImplicit false
namespace Cone.SmapMsgrange

open Cone.Ctype Cone.Lib.Decimal Cone.Lib.Renumber

abbrev Word := List UInt8

structure IndexInfo where
  uid : List UInt8
  unread : Bool
  deriving DecidableEq, Repr

/-- `mail::smapFOLDER`; `announced` is its `exists`. -/
structure Folder where
  index : List IndexInfo
  announced : Nat
  closeInProgress : Bool
  deriving DecidableEq, Repr

/-! ## Numbers in words -/

/-- `i >> n` for a `size_t`, and what is left: a minus sign counts down from zero. -/
def extractSize (t : Word) : Option (Nat × Word) :=
  let number (negative : Bool) (w : Word) : Option (Nat × Word) :=
    let n := readDigits w
    if w.takeWhile isdigit = [] ∨ 2 ^ 64 ≤ n then none
    else some (if negative then (2 ^ 64 - n) % 2 ^ 64 else n, w.dropWhile isdigit)
  match t.dropWhile isspace with
  | [] => none
  | c :: w =>
    if c = byte '-' then number true w
    else if c = byte '+' then number false w
    else number false (c :: w)

/-- `i >> dummy` for a `char` -/
def extractChar (t : Word) : Option (UInt8 × Word) :=
  match t.dropWhile isspace with
  | [] => none
  | c :: w => some (c, w)

def readRange (n : Word) : Option (Nat × Nat) :=
  if byte '-' ∈ n then
    (extractSize n).bind fun first =>
      (extractChar first.2).bind fun dummy =>
        (extractSize dummy.2).bind fun last =>
          if dummy.1 = byte '-' then some (first.1, last.1) else none
  else (extractSize n).map fun first => (first.1, first.1)

/-! ## The lines -/

section Lines
variable (maxIndex : Nat)

def accepts (size : Nat) (removedList : List (Nat × Nat)) (r : Nat × Nat) : Bool :=
  r.1 ≤ r.2 && 0 < r.1 && r.2 < size + 1 &&
    match removedList.getLast? with
    | none => true
    | some prev => prev.2 < r.1

def removedList (size : Nat) : List Word → List (Nat × Nat) → List (Nat × Nat)
  | [], removed => removed
  | n :: words, removed =>
    match readRange n with
    | none => removedList size words removed
    | some r =>
      if accepts size removed r then removedList size words (removed ++ [r])
      else removedList size words removed

/-- One round of the loop over `removedList`, which goes from its end. -/
def removeRange (r : Nat × Nat) (f : Folder) : Folder :=
  let first := r.1 - 1
  { f with
    index := f.index.take first ++ f.index.drop r.2
    announced :=
      if f.announced ≥ first then
        if f.announced < r.2 then first else f.announced - (r.2 - first)
      else f.announced }

def expunge (words : List Word) (f : Folder) : Folder :=
  (removedList f.index.length words []).foldr removeRange f

def existsMore (n : Nat) (f : Folder) : Folder :=
  { f with index := f.index ++ List.replicate (n - f.index.length) ⟨[], true⟩ }

/-- `maxIndex` is `UINT_MAX / sizeof(mail::messageInfo)`. -/
def existsLine (n : Word) (f : Folder) : Folder :=
  match extractSize n with
  | none => f
  | some (msgNum, _) =>
    let msgNum := min msgNum maxIndex
    if 0 < msgNum ∧ !f.closeInProgress ∧ f.index.length < msgNum then existsMore msgNum f else f

inductive Line where
  | exists' (n : Word)
  | expunge (words : List Word)

def process (currentFolder : Option Folder) : Line → Option Folder
  | .exists' n => currentFolder.map (existsLine maxIndex n)
  | .expunge words => currentFolder.map (expunge words)

end Lines

/-! ## The set of uids -/

def smapUidSet (currentFolder : Option Folder) (v : List Nat) : Finset (List UInt8) :=
  match currentFolder with
  | none => ∅
  | some f =>
    v.foldl (fun uids n =>
      if n ≥ f.announced then uids
      else match f.index[n]? with
        | none => uids
        | some e => insert e.uid uids) ∅

/-- `++p->second` for the last range -/
def extendLast (rangeList : List (Nat × Nat)) : List (Nat × Nat) :=
  rangeList.dropLast ++ (rangeList.getLast?.map fun p => (p.1, p.2 + 1)).toList

def nextLoop : Nat → List IndexInfo → List (Nat × Nat) → Nat → Finset (List UInt8) →
    List (Nat × Nat) × Finset (List UInt8)
  | _, [], rangeList, _, uids => (rangeList, uids)
  | i, e :: es, rangeList, rangeCount, uids =>
    if e.uid ∉ uids then nextLoop (i + 1) es rangeList rangeCount uids
    else if rangeList.getLast?.any fun p => p.2 + 1 = i then
      nextLoop (i + 1) es (extendLast rangeList) rangeCount (uids.erase e.uid)
    else if rangeCount + 1 > 100 then (rangeList, uids)
    else nextLoop (i + 1) es (rangeList ++ [(i, i)]) (rangeCount + 1) (uids.erase e.uid)

def getNextRange (currentFolder : Option Folder) (uids : Finset (List UInt8)) :
    List (Nat × Nat) × Finset (List UInt8) :=
  match currentFolder with
  | none => ([], uids)
  | some f => nextLoop 0 (f.index.take f.announced) [] 0 uids

/-- A call of `getNextRange`: the folder as it is then, and the ranges. -/
structure RangeCall where
  currentFolder : Option Folder
  ranges : List (Nat × Nat)

def rangeCalls (maxIndex : Nat) : List (List Line) → Option Folder → Finset (List UInt8) →
    List RangeCall
  | [], _, _ => []
  | lines :: rounds, currentFolder, uids =>
    let currentFolder := lines.foldl (process maxIndex) currentFolder
    let next := getNextRange currentFolder uids
    ⟨currentFolder, next.1⟩ ::
      if next.1 = [] then [] else rangeCalls maxIndex rounds currentFolder next.2

/-! ## What is promised -/

def Valid (currentFolder : Option Folder) : Prop :=
  ∀ f ∈ currentFolder, f.announced ≤ f.index.length

def fromZero (removed : List (Nat × Nat)) : List Range := removed.map fun r => (r.1 - 1, r.2 - 1)

/-- Exactly the positions of the ranges go: every other entry moves down by those before it, and so
does the end of the announced ones. -/
def Removes (rs : List Range) (f f' : Folder) : Prop :=
  f'.index.length = place rs f.index.length ∧
    (∀ p < f.index.length, ¬ Gone rs p → f'.index[place rs p]? = f.index[p]?) ∧
    f'.announced = place rs f.announced ∧ f'.announced ≤ f'.index.length

def positions (ranges : List (Nat × Nat)) : List Nat :=
  ranges.flatMap fun r => List.range' r.1 (r.2 + 1 - r.1)

def uidAt (currentFolder : Option Folder) (p : Nat) : Option (List UInt8) :=
  currentFolder.bind fun f => if p < f.announced then (f.index[p]?).map IndexInfo.uid else none

def RangeCall.listed (c : RangeCall) : List (Option (List UInt8)) :=
  (positions c.ranges).map (uidAt c.currentFolder)

def Selected (currentFolder : Option Folder) (v : List Nat) (uid : List UInt8) : Prop :=
  ∃ n ∈ v, uidAt currentFolder n = some uid


/-! ## EXPUNGE -/

section Expunge
variable {size : Nat} {r : Nat × Nat} {rs : List (Nat × Nat)} {f : Folder}

structure Good (size : Nat) (rs : List (Nat × Nat)) : Prop where
  within : ∀ r ∈ rs, 0 < r.1 ∧ r.1 ≤ r.2 ∧ r.2 ≤ size
  disjoint : rs.Pairwise fun r s => r.2 < s.1

theorem Good.append (good : Good size rs) (accepted : accepts size rs r) :
    Good size (rs ++ [r]) := by
  simp only [accepts, Bool.and_eq_true, decide_eq_true_eq] at accepted
  obtain ⟨⟨⟨ordered, pos⟩, small⟩, behind⟩ := accepted
  have past : ∀ s ∈ rs, s.2 < r.1 := by
    intro s mem
    cases last : rs.getLast? with
    | none =>
        rw [List.getLast?_eq_none_iff.mp last] at mem
        cases mem
    | some prev =>
        rw [last] at behind
        have before : prev.2 < r.1 := of_decide_eq_true behind
        obtain ⟨front, rfl⟩ := List.getLast?_eq_some_iff.mp last
        rcases List.mem_append.mp mem with mem | mem
        · have lower := (List.pairwise_append.mp good.disjoint).2.2 s mem prev (by simp)
          have own := (good.within prev (by simp)).2.1
          omega
        · rw [List.mem_singleton.mp mem]
          exact before
  refine ⟨fun s mem => ?_, ?_⟩
  · rcases List.mem_append.mp mem with mem | mem
    · exact good.within s mem
    · rw [List.mem_singleton.mp mem]
      exact ⟨pos, ordered, by omega⟩
  · rw [List.pairwise_append]
    refine ⟨good.disjoint, List.pairwise_singleton _ _, fun s mem s' mem' => ?_⟩
    rw [List.mem_singleton.mp mem']
    exact past s mem

theorem good_removedList (words : List Word) (removed : List (Nat × Nat))
    (good : Good size removed) :
    Good size (removedList size words removed) := by
  induction words generalizing removed with
  | nil => exact good
  | cons n words ih =>
      rw [removedList]
      cases readRange n with
      | none => exact ih removed good
      | some r =>
          by_cases accepted : accepts size removed r
          · simp only [if_pos accepted]
            exact ih _ (good.append accepted)
          · simp only [if_neg accepted]
            exact ih _ good

theorem Good.tail (good : Good size (r :: rs)) : Good size rs :=
  ⟨fun s mem => good.within s (List.mem_cons_of_mem r mem), (List.pairwise_cons.mp good.disjoint).2⟩

theorem Good.ascending (good : Good size rs) : Ascending (fromZero rs) := by
  refine ⟨fun s mem => ?_, ?_⟩
  · obtain ⟨r, mem', rfl⟩ := List.mem_map.mp mem
    have within := good.within r mem'
    simp only
    omega
  · rw [fromZero, List.pairwise_map]
    refine good.disjoint.imp_of_mem fun {r s} mem mem' before => ?_
    have within := good.within r mem
    simp only
    omega

theorem place_below {rs : List Range} {p : Nat} (kept : ∀ q < p, ¬ Gone rs q) : place rs p = p := by
  induction p with
  | zero => simp
  | succ p ih =>
      rw [place_succ, ih fun q below => kept q (by omega), if_neg (kept p (by omega))]

theorem removes_removeRange {rs : List Range} {g : Folder}
    (asc : Ascending ((r.1 - 1, r.2 - 1) :: rs))
    (pos : 0 < r.1) (ordered : r.1 ≤ r.2) (within : r.2 ≤ f.index.length)
    (valid : f.announced ≤ f.index.length) (removed : Removes rs f g) :
    Removes ((r.1 - 1, r.2 - 1) :: rs) f (removeRange r g) := by
  obtain ⟨length, entries, announced, -⟩ := removed
  have low : place rs r.2 = r.2 :=
    place_below fun q below => asc.not_gone (by simp only; omega)
  have inside : r.2 ≤ g.index.length := by
    rw [length, ← low]
    exact place_mono within
  have index : (removeRange r g).index = cut (r.1 - 1, r.2 - 1) g.index := by
    have next : r.2 - 1 + 1 = r.2 := by omega
    simp only [removeRange, cut, next]
  have length' : (removeRange r g).index.length =
      place ((r.1 - 1, r.2 - 1) :: rs) f.index.length := by
    rw [index, length_cut (by simp only; omega) (by simp only; omega), length, place_cons asc]
  have announced' : (removeRange r g).announced =
      place ((r.1 - 1, r.2 - 1) :: rs) f.announced := by
    rw [place_cons asc, ← announced, place_singleton (by simp only; omega)]
    simp only [removeRange]
    grind
  refine ⟨length', fun p hp left => ?_, announced', ?_⟩
  · rw [gone_cons_iff asc, not_or] at left
    rw [index, place_cons asc, getElem?_cut (by simp only; omega) (by simp only; omega) left.2]
    exact entries p hp left.1
  · rw [announced', length']
    exact place_mono valid

theorem removes_foldr (good : Good f.index.length rs) (valid : f.announced ≤ f.index.length) :
    Removes (fromZero rs) f (rs.foldr removeRange f) := by
  induction rs with
  | nil =>
      have same : ∀ p, place [] p = p := fun p => place_below fun q _ => not_gone_nil
      exact ⟨(same _).symm, fun p _ _ => by rw [fromZero, List.map_nil, same]; rfl, (same _).symm,
        valid⟩
  | cons r rs ih =>
      obtain ⟨pos, ordered, within⟩ := good.within r (List.mem_cons_self)
      exact removes_removeRange good.ascending pos ordered within valid (ih good.tail)

theorem expunge_removes (words : List Word) (valid : f.announced ≤ f.index.length) :
    Removes (fromZero (removedList f.index.length words [])) f (expunge words f) :=
  removes_foldr (good_removedList words [] ⟨fun _ mem => absurd mem List.not_mem_nil,
    List.Pairwise.nil⟩) valid

theorem existsLine_valid (maxIndex : Nat) (n : Word) (valid : f.announced ≤ f.index.length) :
    (existsLine maxIndex n f).announced ≤ (existsLine maxIndex n f).index.length := by
  rw [existsLine]
  cases extractSize n with
  | none => exact valid
  | some r =>
      simp only
      split
      · simp only [existsMore, List.length_append]
        omega
      · exact valid

theorem valid_foldl (maxIndex : Nat) (lines : List Line) (currentFolder : Option Folder)
    (valid : Valid currentFolder) : Valid (lines.foldl (process maxIndex) currentFolder) := by
  induction lines generalizing currentFolder with
  | nil => exact valid
  | cons line lines ih =>
      apply ih
      intro g mem
      cases line with
      | exists' n =>
          obtain ⟨f, mem', rfl⟩ := Option.mem_map.mp mem
          exact existsLine_valid maxIndex n (valid f mem')
      | expunge words =>
          obtain ⟨f, mem', rfl⟩ := Option.mem_map.mp mem
          exact (expunge_removes words (valid f mem')).2.2.2

end Expunge

/-! ## The ranges of one call -/

section Ranges

theorem positions_append (ranges ranges' : List (Nat × Nat)) :
    positions (ranges ++ ranges') = positions ranges ++ positions ranges' := List.flatMap_append

theorem positions_singleton (i : Nat) : positions [(i, i)] = [i] := by
  simp [positions, List.range'_one]

theorem positions_extendLast {ranges : List (Nat × Nat)} {p : Nat × Nat}
    (last : ranges.getLast? = some p) (ordered : p.1 ≤ p.2) :
    positions (extendLast ranges) = positions ranges ++ [p.2 + 1] := by
  obtain ⟨front, rfl⟩ := List.getLast?_eq_some_iff.mp last
  have one : List.range' p.1 (p.2 + 1 + 1 - p.1) =
      List.range' p.1 (p.2 + 1 - p.1) ++ [p.2 + 1] := by
    have count : p.2 + 1 + 1 - p.1 = (p.2 + 1 - p.1) + 1 := by omega
    rw [count, List.range'_concat]
    congr 2
    omega
  rw [extendLast, List.getLast?_concat, List.dropLast_concat, positions_append, positions_append]
  simp [positions, one]

theorem nextLoop_lists (es : List IndexInfo) (i : Nat) (ranges : List (Nat × Nat))
    (uids : Finset (List UInt8)) (ordered : ∀ r ∈ ranges, r.1 ≤ r.2) :
    let r := nextLoop i es ranges ranges.length uids
    ∃ new : List (IndexInfo × Nat), new.Sublist (es.zipIdx i) ∧
      positions r.1 = positions ranges ++ new.map Prod.snd ∧
      (new.map fun x => x.1.uid).Nodup ∧ (∀ u ∈ new.map fun x => x.1.uid, u ∈ uids) ∧
      (∀ u, u ∈ r.2 ↔ u ∈ uids ∧ u ∉ new.map fun x => x.1.uid) ∧
      (r.1 = [] → ∀ e ∈ es, e.uid ∉ uids) := by
  induction es generalizing i ranges uids with
  | nil => exact ⟨[], List.Sublist.refl _, by simp [nextLoop], by simp, by simp, by simp [nextLoop],
      by simp⟩
  | cons e es ih =>
      -- An entry that is listed goes before what the rest lists.
      have listing : ∀ ranges', (∀ r ∈ ranges', r.1 ≤ r.2) →
          positions ranges' = positions ranges ++ [i] → e.uid ∈ uids →
          let r := nextLoop (i + 1) es ranges' ranges'.length (uids.erase e.uid)
          ∃ new : List (IndexInfo × Nat), new.Sublist ((e :: es).zipIdx i) ∧
            positions r.1 = positions ranges ++ new.map Prod.snd ∧
            (new.map fun x => x.1.uid).Nodup ∧ (∀ u ∈ new.map fun x => x.1.uid, u ∈ uids) ∧
            (∀ u, u ∈ r.2 ↔ u ∈ uids ∧ u ∉ new.map fun x => x.1.uid) ∧
            (r.1 = [] → ∀ d ∈ e :: es, d.uid ∉ uids) := by
        intro ranges' ordered' grown mem
        obtain ⟨new, sub, listed, once, inside, left, -⟩ :=
          ih (i + 1) ranges' (uids.erase e.uid) ordered'
        have other : e.uid ∉ new.map fun x => x.1.uid := fun again =>
          absurd (inside _ again) (Finset.notMem_erase _ _)
        have listed' : positions (nextLoop (i + 1) es ranges' ranges'.length (uids.erase e.uid)).1 =
            positions ranges ++ ((e, i) :: new).map Prod.snd := by
          rw [listed, grown, List.append_assoc]
          rfl
        refine ⟨(e, i) :: new, ?_, listed', ?_, ?_, ?_, ?_⟩
        · rw [List.zipIdx_cons]
          exact sub.cons_cons _
        · exact List.nodup_cons.mpr ⟨other, once⟩
        · intro u hu
          rcases List.mem_cons.mp hu with rfl | hu
          · exact mem
          · exact Finset.mem_of_mem_erase (inside u hu)
        · intro u
          rw [left, Finset.mem_erase, List.map_cons, List.mem_cons, not_or]
          constructor
          · rintro ⟨⟨ne, hu⟩, hu'⟩
            exact ⟨hu, ne, hu'⟩
          · rintro ⟨hu, ne, hu'⟩
            exact ⟨⟨ne, hu⟩, hu'⟩
        · intro empty
          rw [empty] at listed'
          exact absurd listed'.symm (by simp [positions])
      simp only
      rw [nextLoop]
      by_cases mem : e.uid ∈ uids
      · rw [if_neg (not_not.mpr mem)]
        by_cases joins : ranges.getLast?.any fun p => p.2 + 1 = i
        · rw [if_pos joins]
          obtain ⟨p, last, next⟩ : ∃ p, ranges.getLast? = some p ∧ p.2 + 1 = i := by
            simpa [Option.any_eq_true] using joins
          obtain ⟨front, rfl⟩ := List.getLast?_eq_some_iff.mp last
          have own : p.1 ≤ p.2 := ordered p (by simp)
          have grown := positions_extendLast last own
          have same : (front ++ [p]).length = (extendLast (front ++ [p])).length := by
            simp [extendLast]
          rw [next] at grown
          rw [same]
          refine listing (extendLast (front ++ [p])) ?_ grown mem
          intro r hr
          simp only [extendLast, List.dropLast_concat, List.getLast?_concat, Option.map_some,
            Option.toList_some, List.mem_append, List.mem_singleton] at hr
          rcases hr with hr | rfl
          · exact ordered r (by simp [hr])
          · simp only
            omega
        · rw [if_neg joins]
          by_cases many : ranges.length + 1 > 100
          · rw [if_pos many]
            refine ⟨[], List.nil_sublist _, by simp, by simp, by simp, by simp, fun empty => ?_⟩
            simp only at empty
            rw [empty] at many
            simp at many
          · rw [if_neg many]
            have same : ranges.length + 1 = (ranges ++ [(i, i)]).length := by simp
            rw [same]
            refine listing (ranges ++ [(i, i)]) ?_ ?_ mem
            · intro r hr
              rcases List.mem_append.mp hr with hr | hr
              · exact ordered r hr
              · rw [List.mem_singleton.mp hr]
            · rw [positions_append, positions_singleton]
      · rw [if_pos mem]
        obtain ⟨new, sub, listed, once, inside, left, done⟩ := ih (i + 1) ranges uids ordered
        refine ⟨new, ?_, listed, once, inside, left, fun empty d hd => ?_⟩
        · rw [List.zipIdx_cons]
          exact sub.cons _
        · rcases List.mem_cons.mp hd with rfl | hd
          · exact mem
          · exact done empty d hd

theorem uidAt_of_zipIdx {f : Folder} {x : IndexInfo × Nat}
    (mem : x ∈ (f.index.take f.announced).zipIdx 0) : uidAt (some f) x.2 = some x.1.uid := by
  have here := List.mem_zipIdx_iff_getElem?.mp mem
  obtain ⟨within, -⟩ := List.getElem?_eq_some_iff.mp here
  rw [List.length_take] at within
  rw [List.getElem?_take_of_lt (by omega)] at here
  rw [uidAt, Option.bind_some, if_pos (by omega), here, Option.map_some]

theorem getNextRange_lists (currentFolder : Option Folder) (uids : Finset (List UInt8)) :
    ∃ names : List (List UInt8),
      (positions (getNextRange currentFolder uids).1).map (uidAt currentFolder) = names.map some ∧
      names.Nodup ∧ (∀ u ∈ names, u ∈ uids) ∧
      (∀ u, u ∈ (getNextRange currentFolder uids).2 ↔ u ∈ uids ∧ u ∉ names) ∧
      ((getNextRange currentFolder uids).1 = [] →
        ∀ p u, uidAt currentFolder p = some u → u ∉ uids) := by
  cases currentFolder with
  | none => exact ⟨[], rfl, List.nodup_nil, by simp, by simp [getNextRange], by simp [uidAt]⟩
  | some f =>
      obtain ⟨new, sub, listed, once, inside, left, done⟩ :=
        nextLoop_lists (f.index.take f.announced) 0 [] uids (by simp)
      have call : getNextRange (some f) uids =
          nextLoop 0 (f.index.take f.announced) [] ([] : List (Nat × Nat)).length uids := rfl
      rw [call]
      refine ⟨new.map fun x => x.1.uid, ?_, once, inside, left, fun empty p u there => ?_⟩
      · rw [listed, List.map_append, List.map_map, List.map_map]
        exact List.map_congr_left fun x mem => uidAt_of_zipIdx (sub.subset mem)
      · rw [uidAt, Option.bind_some] at there
        by_cases within : p < f.announced
        · rw [if_pos within] at there
          obtain ⟨e, here, rfl⟩ := Option.map_eq_some_iff.mp there
          refine done empty e (List.mem_iff_getElem?.mpr ⟨p, ?_⟩)
          rw [List.getElem?_take_of_lt within, here]
        · rw [if_neg within] at there
          cases there

end Ranges

/-! ## All the calls -/

section Calls
variable (maxIndex : Nat)

theorem rangeCalls_list (rounds : List (List Line)) (currentFolder : Option Folder)
    (uids : Finset (List UInt8)) :
    ∃ names : List (List UInt8),
      (rangeCalls maxIndex rounds currentFolder uids).flatMap RangeCall.listed = names.map some ∧
      names.Nodup ∧ (∀ u ∈ names, u ∈ uids) ∧
      ∀ c ∈ (rangeCalls maxIndex rounds currentFolder uids).getLast?, c.ranges = [] →
        ∀ p u, uidAt c.currentFolder p = some u → u ∈ uids → u ∈ names := by
  induction rounds generalizing currentFolder uids with
  | nil => exact ⟨[], rfl, List.nodup_nil, by simp, by simp [rangeCalls]⟩
  | cons lines rounds ih =>
      let now := lines.foldl (process maxIndex) currentFolder
      obtain ⟨names, listed, once, inside, left, done⟩ := getNextRange_lists now uids
      by_cases empty : (getNextRange now uids).1 = []
      · have last : rangeCalls maxIndex (lines :: rounds) currentFolder uids = [⟨now, []⟩] := by
          simp only [rangeCalls, now] at empty ⊢
          rw [if_pos empty, empty]
        rw [last]
        refine ⟨[], rfl, List.nodup_nil, by simp, fun c mem _ p u there mem' => ?_⟩
        obtain rfl : (⟨now, []⟩ : RangeCall) = c := by simpa using mem
        exact absurd mem' (done empty p u there)
      · have more : rangeCalls maxIndex (lines :: rounds) currentFolder uids =
            ⟨now, (getNextRange now uids).1⟩ ::
              rangeCalls maxIndex rounds now (getNextRange now uids).2 := by
          simp only [rangeCalls, now] at empty ⊢
          rw [if_neg empty]
        obtain ⟨names', listed', once', inside', done'⟩ := ih now (getNextRange now uids).2
        rw [more]
        refine ⟨names ++ names', ?_, ?_, ?_, ?_⟩
        · rw [List.flatMap_cons, listed', List.map_append, ← listed]
          rfl
        · rw [List.nodup_append]
          refine ⟨once, once', fun u mem u' mem' => ?_⟩
          rintro rfl
          exact ((left u).mp (inside' u mem')).2 mem
        · intro u mem
          rcases List.mem_append.mp mem with mem | mem
          · exact inside u mem
          · exact ((left u).mp (inside' u mem)).1
        · intro c mem falsy p u there mem'
          rw [List.mem_append]
          by_cases was : u ∈ names
          · exact Or.inl was
          · refine Or.inr ?_
            cases rest : rangeCalls maxIndex rounds now (getNextRange now uids).2 with
            | nil =>
                rw [rest] at mem
                obtain rfl : (⟨now, (getNextRange now uids).1⟩ : RangeCall) = c := by
                  simpa using mem
                exact absurd falsy empty
            | cons d ds =>
                rw [rest, List.getLast?_cons_cons, ← rest] at mem
                exact done' c mem falsy p u there ((left u).mpr ⟨mem', was⟩)

theorem mem_smapUidSet (currentFolder : Option Folder) (v : List Nat) (u : List UInt8) :
    u ∈ smapUidSet currentFolder v ↔ Selected currentFolder v u := by
  cases currentFolder with
  | none => simp [smapUidSet, Selected, uidAt]
  | some f =>
      have from' : ∀ uids : Finset (List UInt8), u ∈ v.foldl (fun uids n =>
          if n ≥ f.announced then uids
          else match f.index[n]? with
            | none => uids
            | some e => insert e.uid uids) uids ↔ u ∈ uids ∨ Selected (some f) v u := by
        induction v with
        | nil => simp [Selected]
        | cons n v ih =>
            intro uids
            rw [List.foldl_cons, ih]
            have here : (u ∈ (if n ≥ f.announced then uids
                else match f.index[n]? with
                  | none => uids
                  | some e => insert e.uid uids)) ↔ u ∈ uids ∨ uidAt (some f) n = some u := by
              rw [uidAt, Option.bind_some]
              by_cases out : n ≥ f.announced
              · rw [if_pos out, if_neg (by omega)]
                simp
              · rw [if_neg out, if_pos (by omega)]
                cases f.index[n]? with
                | none => simp
                | some e =>
                    simp only [Finset.mem_insert, Option.map_some, Option.some.injEq]
                    exact or_comm.trans (or_congr Iff.rfl eq_comm)
            rw [here, Selected, Selected, or_assoc]
            simp only [List.mem_cons, exists_eq_or_imp]
      rw [smapUidSet, from']
      simp

end Calls

/-- EXPUNGE removes the ranges it accepts, and each selected message that is still there is listed
once. -/
theorem smap_ranges (maxIndex : Nat) (currentFolder : Option Folder) (valid : Valid currentFolder)
    (v : List Nat) (rounds : List (List Line)) :
    (∀ (lines : List Line) (f : Folder),
      lines.foldl (process maxIndex) currentFolder = some f →
      f.announced ≤ f.index.length ∧ ∀ words, ∃ f',
        process maxIndex (some f) (.expunge words) = some f' ∧
          Removes (fromZero (removedList f.index.length words [])) f f') ∧
      let calls := rangeCalls maxIndex rounds currentFolder (smapUidSet currentFolder v)
      let listed := calls.flatMap RangeCall.listed
      listed.Nodup ∧ (∀ m ∈ listed, ∃ uid, m = some uid ∧ Selected currentFolder v uid) ∧
        ∀ c ∈ calls.getLast?, c.ranges = [] →
          ∀ p uid, uidAt c.currentFolder p = some uid → Selected currentFolder v uid →
            listed.count (some uid) = 1 := by
  refine ⟨fun lines f reached => ?_, ?_⟩
  · have valid' := valid_foldl maxIndex lines currentFolder valid f reached
    exact ⟨valid', fun words => ⟨_, rfl, expunge_removes words valid'⟩⟩
  · obtain ⟨names, listed, once, inside, done⟩ :=
      rangeCalls_list maxIndex rounds currentFolder (smapUidSet currentFolder v)
    simp only
    rw [listed]
    have once' := once.map (Option.some_injective (List UInt8))
    refine ⟨once', fun m mem => ?_, fun c mem falsy p uid there selected => ?_⟩
    · obtain ⟨u, mem', rfl⟩ := List.mem_map.mp mem
      exact ⟨u, rfl, (mem_smapUidSet _ _ _).mp (inside u mem')⟩
    · apply List.count_eq_one_of_mem once'
      exact List.mem_map_of_mem (done c mem falsy p uid there ((mem_smapUidSet _ _ _).mpr selected))

def three : Folder := ⟨[⟨str "a", false⟩, ⟨str "b", false⟩, ⟨[], true⟩], 2, false⟩

theorem smap_ranges_sample :
    (∀ (lines : List Line) (f : Folder), lines.foldl (process 1000) (some three) = some f →
      f.announced ≤ f.index.length ∧ ∀ words, ∃ f',
        process 1000 (some f) (.expunge words) = some f' ∧
          Removes (fromZero (removedList f.index.length words [])) f f') ∧
      let calls := rangeCalls 1000 [[], [.expunge [str "1-1"]]] (some three)
        (smapUidSet (some three) [1])
      let listed := calls.flatMap RangeCall.listed
      listed.Nodup ∧ (∀ m ∈ listed, ∃ uid, m = some uid ∧ Selected (some three) [1] uid) ∧
        ∀ c ∈ calls.getLast?, c.ranges = [] →
          ∀ p uid, uidAt c.currentFolder p = some uid → Selected (some three) [1] uid →
            listed.count (some uid) = 1 :=
  smap_ranges 1000 (some three) (fun f mem => by
    obtain rfl : three = f := by simpa using mem
    decide) [1] [[], [.expunge [str "1-1"]]]

end Cone.SmapMsgrange
