import Cone.Lib.Ranges
import Cone.Lib.Renumber

/-! # Changes of an open folder, as the application is told of them

`mail::maildir::checkNewMail`, `mail::pop3::reconcileFolderIndex` and `mail::nntp::removeMessages`
(`maildir.C`, `pop3.C`, `nntp.C`, `expungelist.C`).  The application keeps a list of uids by their
callbacks; `U` is the type of a uid. -/
set_option autoImplicit false
namespace Cone.FolderUpdates

open Cone.Lib.Ranges (Range Spaced spaced_cons_iff spaced_nil)
open Cone.Lib.Renumber (cut)

/-! ## The application -/

/-- `mail::callback::folder` -/
inductive Callback where
  | messagesRemoved (removed : List Range)
  | messageChanged (n : Nat)
  | newMessages
  deriving DecidableEq, Repr

structure Notice (U : Type) where
  callback : Callback
  index : List U

section Application
variable {U : Type}

def delete (removed : List Range) (list : List U) : List U := removed.foldr cut list

def told (list : List U) (notice : Notice U) : List U :=
  match notice.callback with
  | .messagesRemoved removed => delete removed list
  | .messageChanged _ => list
  | .newMessages => list ++ notice.index.drop list.length

def Fits (list : List U) (notice : Notice U) : Prop :=
  (match notice.callback with
    | .messagesRemoved removed => Spaced removed ∧ ∀ r ∈ removed, r.2 < list.length
    | .messageChanged n => n < list.length
    | .newMessages => True) ∧
    told list notice <+: notice.index

def Follows : List U → List (Notice U) → Prop
  | _, [] => True
  | list, notice :: notices => Fits list notice ∧ Follows (told list notice) notices

structure Keeps [DecidableEq U] (list store : List U) (index : List U)
    (notices : List (Notice U)) : Prop where
  follows : Follows list notices
  ends : notices.foldl told list = index
  survivors : (list.filter fun u => decide (u ∈ store)) <+: index
  once : index.Nodup
  all : ∀ u, u ∈ index ↔ u ∈ store

end Application

/-! ## The drivers -/

/-- `mail::expungeList::operator<<` -/
def push (n : Nat) : List Range → List Range
  | [] => [(n, n)]
  | (first, last) :: list =>
    if n + 1 = first then (first - 1, last) :: list else (n, n) :: (first, last) :: list

/-- `mail::expungeList::operator>>` -/
def removedNotice {U : Type} (index : List U) (list : List Range) : List (Notice U) :=
  if 0 < list.length then [⟨.messagesRemoved list, index⟩] else []

section Positions
variable (gone : Nat → Bool)

def ranges : Nat → List Range → List Range
  | 0, list => list
  | n + 1, list => ranges n (if gone n then push n list else list)

def remaining {U : Type} (index : List U) : List U :=
  (index.zipIdx.filter fun x => !gone x.2).map Prod.fst

end Positions

section Maildir
variable {U F K : Type} [DecidableEq U] [DecidableEq F] [DecidableEq K]

/-- `mail::maildir::maildirMessageInfo`; `F` is the type of the flags in a filename. -/
structure MaildirMessageInfo (U F K : Type) where
  uid : U
  flags : F
  keywords : K
  changed : Bool

structure MessageFile (U F : Type) where
  uid : U
  flags : F

def sweep (getfilename : U → Option (MessageFile U F)) :
    Nat → List (MaildirMessageInfo U F K) → List Range →
      List (MaildirMessageInfo U F K) × List Range
  | 0, index, removedList => (index, removedList)
  | n + 1, index, removedList =>
    match index[n]? with
    | none => (index, removedList)
    | some info =>
      match getfilename info.uid with
      | none => sweep getfilename n (index.eraseIdx n) (push n removedList)
      | some file =>
        -- `updateFlags` says whether the flags were other ones
        sweep getfilename n
          (index.set n { info with flags := file.flags, changed := info.flags ≠ file.flags })
          removedList

/-- `readKeywordHelper::go`: a message's keywords as they are read. -/
def readKeywords (keywords : U → K) (info : MaildirMessageInfo U F K) :
    MaildirMessageInfo U F K :=
  if info.keywords ≠ keywords info.uid then
    { info with changed := true, keywords := keywords info.uid }
  else info

def changedList (index : List (MaildirMessageInfo U F K)) : List Nat :=
  (List.range index.length).filter fun n => (index[n]?).any MaildirMessageInfo.changed

variable (empty : K)

def maildirCheckNewMail (kwRead : Option (U → K)) (files : List (MessageFile U F))
    (index : List (MaildirMessageInfo U F K)) :
    List (MaildirMessageInfo U F K) × List (Notice U) :=
  let newIndex := files.filter fun file => decide (file.uid ∉ index.map MaildirMessageInfo.uid)
  let added := index ++ newIndex.map fun file => ⟨file.uid, file.flags, empty, false⟩
  let swept := sweep (fun uid => files.find? fun file => decide (file.uid = uid)) index.length
    added []
  match kwRead with
  -- the index is another one by now
  | none => (swept.1, [])
  | some keywords =>
    let index := swept.1.map (readKeywords keywords)
    let uids := index.map MaildirMessageInfo.uid
    (index,
      removedNotice uids swept.2 ++ (changedList index).map (fun n => ⟨.messageChanged n, uids⟩) ++
        if 0 < newIndex.length then [⟨.newMessages, uids⟩] else [])

end Maildir

section Pop3
variable {U : Type} [DecidableEq U]

/-- The first loop: what is not on the server, and the numbers of what is. -/
def missing (uidlMap : List (U × Nat)) (currentFolderIndex : List U) :
    Nat → List Range → List Nat → List Range × List Nat
  | 0, removedList, messagesSeen => (removedList, messagesSeen)
  | i + 1, removedList, messagesSeen =>
    match (currentFolderIndex[i]?).bind fun uid => uidlMap.find? fun m => decide (m.1 = uid) with
    | none => missing uidlMap currentFolderIndex i (push i removedList) messagesSeen
    | some m => missing uidlMap currentFolderIndex i removedList (m.2 :: messagesSeen)

def reconcileFolderIndex (maildrop currentFolderIndex : List U) : List U × List (Notice U) :=
  let uidlMap := maildrop.zipIdx 1
  let first := missing uidlMap currentFolderIndex currentFolderIndex.length [] []
  let kept := delete first.1 currentFolderIndex
  let newUids := ((uidlMap.filter fun m => decide (m.2 ∉ first.2)).mergeSort
    fun a b => decide (a.2 ≤ b.2)).map Prod.fst
  let index := kept ++ newUids
  (index, removedNotice kept first.1 ++ if 0 < newUids.length then [⟨.newMessages, index⟩] else [])

end Pop3

section Nntp
variable {U : Type}

/-- The loop of `removeMessages`: the index, the ranges not announced yet, the callbacks. -/
def removeLoop (messages : List Nat) : Nat → List U → List Range → List (Notice U) →
    List U × List Range × List (Notice U)
  | 0, index, removedList, notices => (index, removedList, notices)
  | n + 1, index, removedList, notices =>
    if n ∉ messages then removeLoop messages n index removedList notices
    else
      let index := index.eraseIdx n
      if removedList.head?.any fun r => r.1 = n + 1 then
        removeLoop messages n index (push n removedList) notices
      -- what is told here is without the message of this turn, which the index has lost
      else if removedList.length ≥ 100 then
        removeLoop messages n index [(n, n)]
          (notices ++ [⟨.messagesRemoved removedList, index⟩])
      else removeLoop messages n index ((n, n) :: removedList) notices

/-- In an open newsgroup. -/
def removeMessages (messages : List Nat) (index : List U) : List U × List (Notice U) :=
  let r := removeLoop messages index.length index [] []
  (r.1, r.2.2 ++ removedNotice r.1 r.2.1)

end Nntp

/-! ## Ranges of positions -/

section Ranges
variable {U : Type} {n : Nat} {list : List Range} {l : List U}

structure Above (n total : Nat) (list : List Range) : Prop where
  spaced : Spaced list
  above : ∀ r ∈ list, n ≤ r.1
  within : ∀ r ∈ list, r.2 < total

theorem Above.push {total : Nat} (h : Above (n + 1) total list) (small : n < total) :
    Above n total (push n list) := by
  obtain ⟨spaced, above, within⟩ := h
  cases list with
  | nil =>
      refine ⟨spaced_cons_iff.mpr ⟨Nat.le_refl n, spaced_nil, by simp⟩, ?_, ?_⟩
      · intro r mem
        rw [List.mem_singleton.mp mem]
      · intro r mem
        rw [List.mem_singleton.mp mem]
        exact small
  | cons r list =>
      obtain ⟨ordered, rest, apart⟩ := spaced_cons_iff.mp spaced
      have here := above r (List.mem_cons_self)
      have low := within r (List.mem_cons_self)
      rw [FolderUpdates.push]
      by_cases joins : n + 1 = r.1
      · rw [if_pos joins]
        refine ⟨spaced_cons_iff.mpr ⟨by simp only; omega, rest, apart⟩, ?_, ?_⟩
        · intro s mem
          rcases List.mem_cons.mp mem with rfl | mem
          · simp only
            omega
          · exact Nat.le_of_succ_le (above s (List.mem_cons_of_mem r mem))
        · intro s mem
          rcases List.mem_cons.mp mem with rfl | mem
          · exact low
          · exact within s (List.mem_cons_of_mem r mem)
      · rw [if_neg joins]
        refine ⟨spaced_cons_iff.mpr ⟨Nat.le_refl n, spaced, ?_⟩, ?_, ?_⟩
        · intro s mem
          rcases List.mem_cons.mp mem with rfl | mem
          · simp only
            omega
          · have := apart s mem
            simp only
            omega
        · intro s mem
          rcases List.mem_cons.mp mem with rfl | mem
          · exact Nat.le_refl n
          · exact Nat.le_of_succ_le (above s mem)
        · intro s mem
          rcases List.mem_cons.mp mem with rfl | mem
          · exact small
          · exact within s mem

theorem Above.weaken {total : Nat} (h : Above (n + 1) total list) : Above n total list :=
  ⟨h.spaced, fun r mem => Nat.le_of_succ_le (h.above r mem), h.within⟩

theorem delete_push (spaced : Spaced list) (above : ∀ r ∈ list, n + 1 ≤ r.1)
    (inside : n < (delete list l).length) :
    delete (push n list) l = (delete list l).eraseIdx n := by
  have single : ∀ list', delete ((n, n) :: list') l = (delete list' l).eraseIdx n := fun list' =>
    (List.eraseIdx_eq_take_drop_succ _ n).symm
  cases list with
  | nil => exact single []
  | cons r list =>
      rw [push]
      by_cases joins : n + 1 = r.1
      · have ordered := spaced.ordered r (List.mem_cons_self)
        have first : r.1 - 1 = n := by omega
        rw [if_pos joins]
        change cut (r.1 - 1, r.2) (delete list l) = (cut r (delete list l)).eraseIdx n
        change n < (cut r (delete list l)).length at inside
        rw [cut, ← joins, List.length_append, List.length_take, List.length_drop] at inside
        have long : n < ((delete list l).take (n + 1)).length := by
          rw [List.length_take]
          omega
        rw [cut, cut, ← joins, List.eraseIdx_append_of_lt_length long]
        simp only [Nat.add_sub_cancel]
        rw [List.eraseIdx_eq_take_drop_succ, List.take_take, List.drop_take]
        simp
      · rw [if_neg joins]
        exact single (r :: list)

variable (gone : Nat → Bool)

theorem remaining_concat (l : List U) (x : U) :
    remaining gone (l ++ [x]) = remaining gone l ++ if gone l.length then [] else [x] := by
  rw [remaining, List.zipIdx_append, List.filter_append, List.map_append]
  congr 1
  cases h : gone l.length with
  | false => simp [h]
  | true => simp [h]

theorem ranges_spec (front back : List U) (list : List Range)
    (above : Above front.length (front ++ back).length list)
    (left : List U) (deleted : delete list (front ++ back) = front ++ left) :
    Above 0 (front ++ back).length (ranges gone front.length list) ∧
      delete (ranges gone front.length list) (front ++ back) = remaining gone front ++ left := by
  induction front using List.reverseRecOn generalizing list back left with
  | nil => exact ⟨above, deleted⟩
  | append_singleton front x ih =>
      have size : (front ++ [x]).length = front.length + 1 := by simp
      rw [size] at above ⊢
      rw [ranges, remaining_concat]
      rw [List.append_assoc, List.singleton_append] at above deleted ⊢
      cases h : gone front.length with
      | false =>
          have later := ih (x :: back) list above.weaken ([x] ++ left)
            (by rw [deleted, List.append_assoc])
          simpa [h] using later
      | true =>
          have small : front.length < (front ++ x :: back).length := by simp
          have erased : delete (push front.length list) (front ++ x :: back) = front ++ left := by
            rw [delete_push above.spaced above.above (by rw [deleted]; simp), deleted,
              List.append_assoc, List.eraseIdx_append_of_length_le (Nat.le_refl _)]
            simp
          have later := ih (x :: back) _ (above.push small) left erased
          simpa [h] using later

theorem ranges_remaining (l : List U) :
    Above 0 l.length (ranges gone l.length []) ∧
      delete (ranges gone l.length []) l = remaining gone l := by
  have spec := ranges_spec gone l [] [] ⟨spaced_nil, by simp, by simp⟩ [] rfl
  rwa [List.append_nil, List.append_nil] at spec

theorem ranges_congr {gone' : Nat → Bool} (n : Nat) (list : List Range)
    (same : ∀ i < n, gone i = gone' i) : ranges gone n list = ranges gone' n list := by
  induction n generalizing list with
  | zero => rfl
  | succ n ih =>
      rw [ranges, ranges, same n (Nat.lt_succ_self n)]
      exact ih _ fun i hi => same i (Nat.lt_succ_of_lt hi)

/-- Where it depends on the message whether its position is gone. -/
theorem remaining_eq_filter (p : U → Bool) (l : List U) :
    remaining (fun n => (l[n]?).any fun u => !p u) l = l.filter p := by
  have from' : ∀ front back : List U, l = front ++ back →
      remaining (fun n => (l[n]?).any fun u => !p u) front = front.filter p := by
    intro front
    induction front using List.reverseRecOn with
    | nil => exact fun _ _ => rfl
    | append_singleton front x ih =>
        intro back split
        rw [List.append_assoc, List.singleton_append] at split
        have here : l[front.length]? = some x := by rw [split]; simp
        rw [remaining_concat, ih _ split, List.filter_append, here]
        congr 1
        cases h : p x with
        | false => simp [h]
        | true => simp [h]
  exact from' l [] (List.append_nil l).symm

end Ranges

/-! ## What the application makes of the callbacks -/

section Telling
variable {U : Type} {list index : List U} {notices : List (Notice U)}

theorem follows_removed {removed : List Range} (above : Above 0 list.length removed)
    (agrees : delete removed list <+: index) :
    (Follows list (removedNotice index removed ++ notices) ↔
        Follows (delete removed list) notices) ∧
      (removedNotice index removed ++ notices).foldl told list =
        notices.foldl told (delete removed list) := by
  cases removed with
  | nil => exact ⟨Iff.rfl, rfl⟩
  | cons r removed =>
      rw [removedNotice, if_pos (List.length_pos_iff.mpr (List.cons_ne_nil r removed))]
      refine ⟨⟨fun follows => follows.2, fun follows => ⟨⟨⟨above.spaced, above.within⟩, agrees⟩,
        follows⟩⟩, rfl⟩

theorem follows_changed (positions : List Nat) (agrees : list <+: index) :
    (Follows list (positions.map (fun n => (⟨.messageChanged n, index⟩ : Notice U)) ++ notices) ↔
        (∀ n ∈ positions, n < list.length) ∧ Follows list notices) ∧
      (positions.map (fun n => (⟨.messageChanged n, index⟩ : Notice U)) ++ notices).foldl told
          list = notices.foldl told list := by
  induction positions with
  | nil => simp
  | cons n positions ih =>
      refine ⟨?_, ih.2⟩
      rw [List.map_cons, List.cons_append, List.forall_mem_cons, and_assoc, ← ih.1]
      exact ⟨fun follows => ⟨follows.1.1, follows.2⟩, fun both => ⟨⟨both.1, agrees⟩, both.2⟩⟩

theorem follows_new (news : List U) :
    Follows list (if 0 < news.length then [⟨.newMessages, list ++ news⟩] else []) ∧
      (if 0 < news.length then [⟨.newMessages, list ++ news⟩] else []).foldl told list =
        list ++ news := by
  cases news with
  | nil => simp [Follows]
  | cons u news =>
      rw [if_pos (List.length_pos_iff.mpr (List.cons_ne_nil u news))]
      have all : told list ⟨.newMessages, list ++ u :: news⟩ = list ++ u :: news := by
        simp [told]
      exact ⟨⟨⟨trivial, [], (List.append_nil _).trans all⟩, trivial⟩, all⟩

end Telling


/-! ## The drivers -/

section Drivers
variable {U : Type} [DecidableEq U]

theorem keeps_parts {list store news : List U} (once : list.Nodup) (once' : news.Nodup)
    (added : ∀ u, u ∈ news ↔ u ∈ store ∧ u ∉ list) :
    (list.filter fun u => decide (u ∈ store)) <+:
        (list.filter fun u => decide (u ∈ store)) ++ news ∧
      ((list.filter fun u => decide (u ∈ store)) ++ news).Nodup ∧
      ∀ u, u ∈ (list.filter fun u => decide (u ∈ store)) ++ news ↔ u ∈ store := by
  refine ⟨List.prefix_append _ _, ?_, fun u => ?_⟩
  · rw [List.nodup_append]
    refine ⟨once.filter _, once', fun u mem u' mem' same => ?_⟩
    rw [same] at mem
    exact ((added u').mp mem').2 (List.mem_filter.mp mem).1
  · rw [List.mem_append, List.mem_filter, added, decide_eq_true_iff]
    constructor
    · rintro (⟨-, there⟩ | ⟨there, -⟩)
      · exact there
      · exact there
    · intro there
      by_cases old : u ∈ list
      · exact Or.inl ⟨old, there⟩
      · exact Or.inr ⟨there, old⟩

theorem keeps_iff_positions {list store news : List U} (once : list.Nodup) (once' : news.Nodup)
    (added : ∀ u, u ∈ news ↔ u ∈ store ∧ u ∉ list) {removed : List Range}
    (above : Above 0 list.length removed)
    (deleted : delete removed list = list.filter fun u => decide (u ∈ store))
    {index : List U} (now : delete removed list <+: index) (positions : List Nat) :
    Keeps list store (delete removed list ++ news)
        (removedNotice index removed ++
          (positions.map (fun n => (⟨.messageChanged n, index⟩ : Notice U)) ++
            if 0 < news.length then [⟨.newMessages, delete removed list ++ news⟩] else [])) ↔
      ∀ n ∈ positions, n < (delete removed list).length := by
  obtain ⟨survivors, nodup, all⟩ := keeps_parts once once' added
  rw [← deleted] at survivors nodup all
  obtain ⟨follows, ends⟩ := @follows_removed U list index
    (positions.map (fun n => (⟨.messageChanged n, index⟩ : Notice U)) ++
      if 0 < news.length then [⟨.newMessages, delete removed list ++ news⟩] else [])
    removed above now
  obtain ⟨follows', ends'⟩ := @follows_changed U (delete removed list) index
    (if 0 < news.length then [⟨.newMessages, delete removed list ++ news⟩] else []) positions now
  obtain ⟨follows'', ends''⟩ := @follows_new _ (delete removed list) news
  constructor
  · intro keeps
    exact (follows'.mp (follows.mp keeps.follows)).1
  · intro inside
    refine ⟨follows.mpr (follows'.mpr ⟨inside, follows''⟩), ?_, ?_, nodup, all⟩
    · rw [ends, ends', ends'']
    · rw [← deleted]
      exact survivors

/-! ### maildir -/

section Maildir
variable {F K : Type} [DecidableEq F] [DecidableEq K]
variable {get : U → Option (MessageFile U F)}

omit [DecidableEq U] [DecidableEq K] in
theorem sweep_spec (n : Nat) (index : List (MaildirMessageInfo U F K)) (list : List Range)
    (within : n ≤ index.length) :
    (sweep get n index list).2 =
        ranges (fun i => ((index.map MaildirMessageInfo.uid)[i]?).any fun u => !(get u).isSome) n
          list ∧
      ∃ kept, (sweep get n index list).1 = kept ++ index.drop n ∧
        kept.map MaildirMessageInfo.uid =
          ((index.take n).map MaildirMessageInfo.uid).filter fun u => (get u).isSome := by
  induction n generalizing index list with
  | zero => exact ⟨rfl, [], rfl, rfl⟩
  | succ n ih =>
      have here : index[n]? = some index[n] := List.getElem?_eq_getElem within
      have front : index.take (n + 1) = index.take n ++ [index[n]] :=
        List.take_succ_eq_append_getElem within
      have now : ((index.map MaildirMessageInfo.uid)[n]?).any (fun u => !(get u).isSome) =
          !(get index[n].uid).isSome := by
        rw [List.getElem?_map, here]
        rfl
      rw [sweep, here, ranges, now, front, List.map_append, List.filter_append]
      cases found : get index[n].uid with
      | none =>
          have size : (index.eraseIdx n).length + 1 = index.length :=
            List.length_eraseIdx_add_one within
          obtain ⟨list', kept, entries, uids⟩ := ih (index.eraseIdx n) (push n list) (by omega)
          simp only [found]
          refine ⟨list'.trans (ranges_congr _ n _ fun i hi => ?_), kept, ?_, ?_⟩
          · rw [List.getElem?_map, List.getElem?_map, List.getElem?_eraseIdx_of_lt hi]
          · rw [entries, List.eraseIdx_eq_take_drop_succ, List.drop_left' (by simp; omega)]
          · rw [uids, List.eraseIdx_eq_take_drop_succ, List.take_left' (by simp; omega)]
            simp [found]
      | some file =>
          let info : MaildirMessageInfo U F K :=
            { index[n] with flags := file.flags, changed := index[n].flags ≠ file.flags }
          obtain ⟨list', kept, entries, uids⟩ := ih (index.set n info) list (by simp; omega)
          simp only [found]
          refine ⟨list'.trans (ranges_congr _ n _ fun i hi => ?_), kept ++ [info], ?_, ?_⟩
          · rw [List.getElem?_map, List.getElem?_map, List.getElem?_set_ne (by omega)]
          · have there : n < (index.set n info).length := by
              rw [List.length_set]
              exact within
            rw [entries, List.append_assoc, List.drop_eq_getElem_cons there,
              List.getElem_set_self, List.drop_set_of_lt (Nat.lt_succ_self n),
              List.singleton_append]
          · rw [List.map_append, uids, List.take_set_of_le (Nat.le_refl n)]
            simp [found, info]

omit [DecidableEq U] [DecidableEq F] in
theorem map_uid_readKeywords (keywords : U → K) (index : List (MaildirMessageInfo U F K)) :
    (index.map (readKeywords keywords)).map MaildirMessageInfo.uid =
      index.map MaildirMessageInfo.uid := by
  rw [List.map_map]
  refine List.map_congr_left fun info _ => ?_
  rw [Function.comp_apply, readKeywords]
  split
  · rfl
  · rfl

omit [DecidableEq U] [DecidableEq F] [DecidableEq K] in
theorem changedList_below (old new : List (MaildirMessageInfo U F K)) :
    (∀ n ∈ changedList (old ++ new), n < old.length) ↔ ∀ info ∈ new, info.changed = false := by
  constructor
  · intro below info mem
    obtain ⟨i, here⟩ := List.mem_iff_getElem?.mp mem
    have within := (List.getElem?_eq_some_iff.mp here).1
    cases changed : info.changed with
    | false => rfl
    | true =>
        have there : old.length + i ∈ changedList (old ++ new) := by
          refine List.mem_filter.mpr ⟨List.mem_range.mpr (by rw [List.length_append]; omega), ?_⟩
          rw [List.getElem?_append_right (by omega), Nat.add_sub_cancel_left, here]
          exact changed
        have := below _ there
        omega
  · intro same n mem
    rw [changedList, List.mem_filter, List.mem_range] at mem
    by_cases below : n < old.length
    · exact below
    · rw [List.getElem?_append_right (by omega)] at mem
      obtain ⟨-, changed⟩ := mem
      cases here : new[n - old.length]? with
      | none =>
          rw [here] at changed
          cases changed
      | some info =>
          rw [here] at changed
          have no := same info (List.mem_of_getElem? here)
          rw [Option.any_some, no] at changed
          cases changed

def MaildirMeets (empty : K) (kwRead : Option (U → K)) (files : List (MessageFile U F))
    (list : List U) : Prop :=
  match kwRead with
  | none => ∀ u, u ∈ list ↔ u ∈ files.map MessageFile.uid
  | some keywords => ∀ file ∈ files, file.uid ∉ list → keywords file.uid = empty

theorem maildir_keeps_iff (empty : K) (kwRead : Option (U → K)) (files : List (MessageFile U F))
    (index : List (MaildirMessageInfo U F K)) (once : (index.map MaildirMessageInfo.uid).Nodup)
    (once' : (files.map MessageFile.uid).Nodup) :
    Keeps (index.map MaildirMessageInfo.uid) (files.map MessageFile.uid)
        ((maildirCheckNewMail empty kwRead files index).1.map MaildirMessageInfo.uid)
        (maildirCheckNewMail empty kwRead files index).2 ↔
      MaildirMeets empty kwRead files (index.map MaildirMessageInfo.uid) := by
  let list := index.map MaildirMessageInfo.uid
  let newIndex := files.filter fun file => decide (file.uid ∉ list)
  let news := newIndex.map MessageFile.uid
  let newInfos : List (MaildirMessageInfo U F K) :=
    newIndex.map fun file => ⟨file.uid, file.flags, empty, false⟩
  let get : U → Option (MessageFile U F) := fun uid =>
    files.find? fun file => decide (file.uid = uid)
  have found : ∀ u, (get u).isSome = decide (u ∈ files.map MessageFile.uid) := by
    intro u
    rw [Bool.eq_iff_iff, List.find?_isSome]
    simp
  have added : ∀ u, u ∈ news ↔ u ∈ files.map MessageFile.uid ∧ u ∉ list := by
    intro u
    simp only [news, newIndex, List.mem_map, List.mem_filter, decide_eq_true_iff]
    constructor
    · rintro ⟨file, ⟨mem, new⟩, rfl⟩
      exact ⟨⟨file, mem, rfl⟩, new⟩
    · rintro ⟨⟨file, mem, rfl⟩, new⟩
      exact ⟨file, ⟨mem, new⟩, rfl⟩
  have newOnce : news.Nodup := once'.sublist (List.filter_sublist.map _)
  obtain ⟨swept, kept, entries, uids⟩ :=
    @sweep_spec U F K _ get index.length (index ++ newInfos) [] (by simp)
  have removed : (sweep get index.length (index ++ newInfos) []).2 =
      ranges (fun i => (list[i]?).any fun u => !decide (u ∈ files.map MessageFile.uid)) list.length
        [] := by
    rw [swept, List.length_map]
    refine ranges_congr _ _ _ fun i hi => ?_
    rw [List.map_append, List.getElem?_append_left (by simpa using hi)]
    simp only [found, list]
  obtain ⟨above, deleted⟩ := ranges_remaining
    (fun i => (list[i]?).any fun u => !decide (u ∈ files.map MessageFile.uid)) list
  rw [remaining_eq_filter] at deleted
  rw [← removed] at above deleted
  rw [List.drop_left] at entries
  rw [List.take_left] at uids
  simp only [found] at uids
  have keptUids : kept.map MaildirMessageInfo.uid =
      delete (sweep get index.length (index ++ newInfos) []).2 list := uids.trans deleted.symm
  have newUids : newInfos.map MaildirMessageInfo.uid = news := by
    simp only [newInfos, news, List.map_map]
    rfl
  have allUids : (kept ++ newInfos).map MaildirMessageInfo.uid =
      delete (sweep get index.length (index ++ newInfos) []).2 list ++ news := by
    rw [List.map_append, keptUids, newUids]
  cases kwRead with
  | none =>
      change Keeps list _ ((sweep get index.length (index ++ newInfos) []).1.map _) [] ↔ _
      rw [entries, allUids, deleted]
      obtain ⟨survivors, nodup, all⟩ := keeps_parts once newOnce added
      constructor
      · intro keeps u
        have same : list = _ := keeps.ends
        rw [← all u, ← same]
      · intro same
        have stay : (list.filter fun u => decide (u ∈ files.map MessageFile.uid)) = list :=
          List.filter_eq_self.mpr fun u mem => by simpa using (same u).mp mem
        have none' : news = [] := List.eq_nil_iff_forall_not_mem.mpr fun u mem =>
          ((added u).mp mem).2 ((same u).mpr ((added u).mp mem).1)
        exact ⟨trivial, by rw [stay, none', List.append_nil]; rfl, survivors, nodup, all⟩
  | some keywords =>
      have final : ((sweep get index.length (index ++ newInfos) []).1.map
          (readKeywords keywords)).map MaildirMessageInfo.uid =
          delete (sweep get index.length (index ++ newInfos) []).2 list ++ news := by
        rw [map_uid_readKeywords, entries, allUids]
      have count : newIndex.length = news.length := by simp [news]
      have main := keeps_iff_positions once newOnce added above deleted (List.prefix_append _ news)
        (changedList ((sweep get index.length (index ++ newInfos) []).1.map
          (readKeywords keywords)))
      rw [← final, ← count, ← List.append_assoc] at main
      refine Iff.trans main ?_
      rw [entries, List.map_append, ← keptUids, List.length_map]
      have below := changedList_below (kept.map (readKeywords keywords))
        (newInfos.map (readKeywords keywords))
      rw [List.length_map] at below
      rw [below]
      constructor
      · intro same file mem new
        have quiet := same _ (List.mem_map_of_mem (List.mem_map_of_mem
          (List.mem_filter.mpr ⟨mem, decide_eq_true new⟩)))
        by_contra differs
        rw [readKeywords, if_pos (Ne.symm differs)] at quiet
        cases quiet
      · intro none' info mem
        obtain ⟨info', mem', rfl⟩ := List.mem_map.mp mem
        obtain ⟨file, mem'', rfl⟩ := List.mem_map.mp mem'
        obtain ⟨there, new⟩ := List.mem_filter.mp mem''
        rw [readKeywords, if_neg (not_not.mpr (none' file there (of_decide_eq_true new)).symm)]

end Maildir

/-! ### pop3 -/

section Pop3
variable {uidlMap : List (U × Nat)} {index : List U}

theorem missing_spec (n : Nat) (list : List Range) (seen : List Nat) (within : n ≤ index.length) :
    (missing uidlMap index n list seen).1 =
        ranges (fun i => (index[i]?).any fun u => !(uidlMap.find? fun m => decide (m.1 = u)).isSome)
          n list ∧
      ∀ k, k ∈ (missing uidlMap index n list seen).2 ↔ k ∈ seen ∨
        ∃ u ∈ index.take n, ∃ m, (uidlMap.find? fun m => decide (m.1 = u)) = some m ∧ m.2 = k := by
  induction n generalizing list seen with
  | zero => exact ⟨rfl, by simp [missing]⟩
  | succ n ih =>
      have here : index[n]? = some index[n] := List.getElem?_eq_getElem within
      have front : index.take (n + 1) = index.take n ++ [index[n]] :=
        List.take_succ_eq_append_getElem within
      rw [missing, here, Option.bind_some, ranges, here, Option.any_some, front]
      cases found : uidlMap.find? fun m => decide (m.1 = index[n]) with
      | none =>
          obtain ⟨list', seen'⟩ := ih (push n list) seen (by omega)
          refine ⟨list', fun k => (seen' k).trans (or_congr Iff.rfl ?_)⟩
          constructor
          · rintro ⟨u, mem, m, rest⟩
            exact ⟨u, List.mem_append_left _ mem, m, rest⟩
          · rintro ⟨u, mem, m, there, rest⟩
            rcases List.mem_append.mp mem with mem | mem
            · exact ⟨u, mem, m, there, rest⟩
            · rw [List.mem_singleton.mp mem, found] at there
              cases there
      | some m =>
          obtain ⟨list', seen'⟩ := ih list (m.2 :: seen) (by omega)
          refine ⟨list', fun k => (seen' k).trans ?_⟩
          constructor
          · rintro (mem | ⟨u, mem, m', rest⟩)
            · rcases List.mem_cons.mp mem with rfl | mem
              · have last := List.mem_append_right (index.take n) (List.mem_singleton_self index[n])
                exact Or.inr ⟨_, last, m, found, rfl⟩
              · exact Or.inl mem
            · exact Or.inr ⟨u, List.mem_append_left _ mem, m', rest⟩
          · rintro (mem | ⟨u, mem, m', there, same⟩)
            · exact Or.inl (List.mem_cons_of_mem _ mem)
            · rcases List.mem_append.mp mem with mem | mem
              · exact Or.inr ⟨u, mem, m', there, same⟩
              · rw [List.mem_singleton.mp mem, found] at there
                rw [← same, Option.some.inj there]
                exact Or.inl (List.mem_cons_self)

omit [DecidableEq U] in
theorem mem_uidlMap_iff {maildrop : List U} {u : U} {k : Nat} :
    (u, k) ∈ maildrop.zipIdx 1 ↔ 1 ≤ k ∧ maildrop[k - 1]? = some u :=
  List.mem_zipIdx_iff_le_and_getElem?_sub

theorem find_uidlMap_iff {maildrop : List U} (once : maildrop.Nodup) {u : U} {m : U × Nat} :
    (maildrop.zipIdx 1).find? (fun m => decide (m.1 = u)) = some m ↔
      m ∈ maildrop.zipIdx 1 ∧ m.1 = u := by
  constructor
  · intro found
    exact ⟨List.mem_of_find?_eq_some found,
      of_decide_eq_true (@List.find?_some _ (fun m : U × Nat => decide (m.1 = u)) _ _ found)⟩
  · rintro ⟨mem, rfl⟩
    cases found : (maildrop.zipIdx 1).find? fun m' => decide (m'.1 = m.1) with
    | none => simpa using List.find?_eq_none.mp found m mem
    | some m' =>
        have mem' := List.mem_of_find?_eq_some found
        have same : m'.1 = m.1 := of_decide_eq_true
          (@List.find?_some _ (fun m' : U × Nat => decide (m'.1 = m.1)) _ _ found)
        obtain ⟨low, here⟩ := mem_uidlMap_iff.mp mem
        obtain ⟨low', here'⟩ := mem_uidlMap_iff.mp mem'
        obtain ⟨within, -⟩ := List.getElem?_eq_some_iff.mp here
        have number := (List.getElem?_inj within once).mp (here.trans (same ▸ here'.symm))
        rw [Option.some.injEq]
        exact Prod.ext same (by omega)

theorem pop3_keeps (maildrop index : List U) (once : index.Nodup) (once' : maildrop.Nodup) :
    Keeps index maildrop (reconcileFolderIndex maildrop index).1
      (reconcileFolderIndex maildrop index).2 := by
  let uidlMap := maildrop.zipIdx 1
  let first := missing uidlMap index index.length [] []
  let fresh := uidlMap.filter fun m => decide (m.2 ∉ first.2)
  let news := (fresh.mergeSort fun a b => decide (a.2 ≤ b.2)).map Prod.fst
  obtain ⟨list', seen⟩ := @missing_spec U _ uidlMap index index.length [] [] (Nat.le_refl _)
  have found : ∀ u, (uidlMap.find? fun m => decide (m.1 = u)).isSome = decide (u ∈ maildrop) := by
    intro u
    rw [Bool.eq_iff_iff, List.find?_isSome, decide_eq_true_iff]
    constructor
    · rintro ⟨m, mem, same⟩
      rw [← of_decide_eq_true same]
      exact List.mem_of_getElem? (mem_uidlMap_iff.mp mem).2
    · intro mem
      obtain ⟨i, here⟩ := List.mem_iff_getElem?.mp mem
      exact ⟨(u, i + 1), mem_uidlMap_iff.mpr ⟨by omega, here⟩, by simp⟩
  have removed : first.1 = ranges (fun i => (index[i]?).any fun u => !decide (u ∈ maildrop))
      index.length [] := by
    simp only [found] at list'
    exact list'
  obtain ⟨above, deleted⟩ := ranges_remaining
    (fun i => (index[i]?).any fun u => !decide (u ∈ maildrop)) index
  rw [remaining_eq_filter] at deleted
  rw [← removed] at above deleted
  have order : news.Perm (fresh.map Prod.fst) := (List.mergeSort_perm fresh _).map Prod.fst
  have newOnce : news.Nodup := by
    refine order.nodup_iff.mpr (List.Nodup.sublist (List.filter_sublist.map Prod.fst) ?_)
    rw [List.zipIdx_map_fst]
    exact once'
  have added : ∀ u, u ∈ news ↔ u ∈ maildrop ∧ u ∉ index := by
    intro u
    rw [order.mem_iff, List.mem_map]
    constructor
    · rintro ⟨⟨u', k⟩, mem, rfl⟩
      obtain ⟨there, new⟩ := List.mem_filter.mp mem
      refine ⟨List.mem_of_getElem? (mem_uidlMap_iff.mp there).2, fun old => ?_⟩
      refine of_decide_eq_true new ((seen k).mpr (Or.inr ⟨u', ?_, (u', k), ?_, rfl⟩))
      · rw [List.take_length]
        exact old
      · exact (find_uidlMap_iff once').mpr ⟨there, rfl⟩
    · rintro ⟨there, new⟩
      obtain ⟨i, here⟩ := List.mem_iff_getElem?.mp there
      refine ⟨(u, i + 1), List.mem_filter.mpr ⟨mem_uidlMap_iff.mpr ⟨by omega, here⟩, ?_⟩, rfl⟩
      refine decide_eq_true fun mem => ?_
      rcases (seen (i + 1)).mp mem with none' | ⟨u', old, m, found', number⟩
      · cases none'
      · obtain ⟨there', same⟩ := (find_uidlMap_iff once').mp found'
        obtain ⟨-, here'⟩ := mem_uidlMap_iff.mp there'
        rw [number, Nat.add_sub_cancel, here, same] at here'
        rw [List.take_length, ← Option.some.inj here'] at old
        exact new old
  have main := keeps_iff_positions once newOnce added above deleted (List.prefix_refl _) []
  exact main.mpr (by simp)

end Pop3

end Drivers

/-! ### nntp -/

section Nntp
variable {U : Type}
variable {messages : List Nat} {n : Nat} {list : List Range} {index : List U}
variable {notices : List (Notice U)}

def runs (messages : List Nat) (size : Nat) : Nat :=
  (List.range size).countP fun n => decide (n ∈ messages ∧ ¬ (n + 1 < size ∧ n + 1 ∈ messages))

theorem length_push (n : Nat) (list : List Range) :
    (push n list).length = list.length + if list.head?.any fun r => r.1 = n + 1 then 0 else 1 := by
  cases list with
  | nil => rfl
  | cons r list =>
      rw [push]
      by_cases joins : n + 1 = r.1
      · simp [joins]
      · simp [joins, Ne.symm joins]

theorem head_push (n : Nat) (list : List Range) :
    ((push n list).head?.any fun r => r.1 = n) = true := by
  cases list with
  | nil => simp [push]
  | cons r list =>
      rw [push]
      by_cases joins : n + 1 = r.1
      · rw [if_pos joins, ← joins]
        simp
      · simp [joins]

theorem length_ranges {gone : Nat → Bool} {total : Nat} (n : Nat) (list : List Range)
    (above : Above n total list) (within : n ≤ total)
    (head : (list.head?.any fun r => r.1 = n) = gone n) :
    (ranges gone n list).length =
      list.length + (List.range n).countP fun i => gone i && !gone (i + 1) := by
  induction n generalizing list with
  | zero => rfl
  | succ n ih =>
      rw [ranges, List.range_succ, List.countP_append, List.countP_singleton]
      cases here : gone n with
      | false =>
          have away : (list.head?.any fun r => r.1 = n) = false := by
            cases list with
            | nil => rfl
            | cons r list =>
                have := above.above r (List.mem_cons_self)
                simp
                omega
          have later := ih list above.weaken (by omega) (away.trans here.symm)
          simpa using later
      | true =>
          have later := ih (push n list) (above.push within) (by omega)
            ((head_push n list).trans here.symm)
          rw [if_pos rfl, later, length_push, head]
          cases gone (n + 1) with
          | false => simp; omega
          | true => simp

theorem length_le_ranges (gone : Nat → Bool) (n : Nat) (list : List Range) :
    list.length ≤ (ranges gone n list).length := by
  induction n generalizing list with
  | zero => exact Nat.le_refl _
  | succ n ih =>
      rw [ranges]
      refine Nat.le_trans ?_ (ih _)
      split
      · rw [length_push]
        exact Nat.le_add_right _ _
      · exact Nat.le_refl _

theorem length_ranges_messages (messages : List Nat) (size : Nat) :
    (ranges (fun n => decide (n ∈ messages)) size []).length = runs messages size := by
  let gone : Nat → Bool := fun n => decide (n < size ∧ n ∈ messages)
  have same : ranges (fun n => decide (n ∈ messages)) size [] = ranges gone size [] := by
    refine ranges_congr _ size [] fun i hi => ?_
    simp [gone, hi]
  have counted := @length_ranges gone size size [] ⟨spaced_nil, by simp, by simp⟩
    (Nat.le_refl size) (by simp [gone])
  rw [same, counted, List.length_nil, Nat.zero_add, runs]
  refine List.countP_congr fun i mem => ?_
  have small := List.mem_range.mp mem
  simp [gone, small]

theorem removeLoop_push (mem : n ∈ messages) (room : (push n list).length ≤ 100) :
    removeLoop messages (n + 1) index list notices =
      removeLoop messages n (index.eraseIdx n) (push n list) notices := by
  rw [removeLoop, if_neg (not_not.mpr mem)]
  rw [length_push] at room
  by_cases joins : (list.head?.any fun r => r.1 = n + 1) = true
  · simp only [if_pos joins]
  · rw [if_neg joins] at room
    simp only [if_neg joins]
    rw [if_neg (by omega)]
    cases list with
    | nil => rfl
    | cons r list =>
        have apart : n + 1 ≠ r.1 := fun same => joins (by simp [same])
        rw [push, if_neg apart]

theorem removeLoop_flush (mem : n ∈ messages) (small : list.length ≤ 100)
    (full : 100 < (push n list).length) :
    removeLoop messages (n + 1) index list notices =
      removeLoop messages n (index.eraseIdx n) [(n, n)]
        (notices ++ [⟨.messagesRemoved list, index.eraseIdx n⟩]) := by
  rw [removeLoop, if_neg (not_not.mpr mem)]
  rw [length_push] at full
  by_cases joins : (list.head?.any fun r => r.1 = n + 1) = true
  · rw [if_pos joins] at full
    omega
  · rw [if_neg joins] at full
    simp only [if_neg joins]
    rw [if_pos (by omega)]

/-- What was told stays told. -/
theorem removeLoop_notices (messages : List Nat) (n : Nat) (index : List U) (list : List Range)
    (notices : List (Notice U)) :
    notices <+: (removeLoop messages n index list notices).2.2 := by
  induction n generalizing index list notices with
  | zero => exact List.prefix_refl _
  | succ n ih =>
      rw [removeLoop]
      split
      · exact ih _ _ _
      · simp only
        split
        · exact ih _ _ _
        · split
          · exact (List.prefix_append _ _).trans (ih _ _ _)
          · exact ih _ _ _

theorem removeLoop_index (messages : List Nat) (front left : List U) (list : List Range)
    (notices : List (Notice U)) :
    (removeLoop messages front.length (front ++ left) list notices).1 =
      remaining (fun n => decide (n ∈ messages)) front ++ left := by
  induction front using List.reverseRecOn generalizing left list notices with
  | nil => rfl
  | append_singleton front x ih =>
      have erased : (front ++ [x] ++ left).eraseIdx front.length = front ++ left := by
        rw [List.append_assoc, List.eraseIdx_append_of_length_le (Nat.le_refl _)]
        simp
      have size : (front ++ [x]).length = front.length + 1 := by simp
      rw [size, removeLoop, remaining_concat]
      by_cases mem : front.length ∈ messages
      · simp only [if_neg (not_not.mpr mem), erased]
        rw [if_pos (decide_eq_true mem), List.append_nil]
        split
        · exact ih left _ _
        · split
          · exact ih left _ _
          · exact ih left _ _
      · rw [if_pos mem, if_neg (by simpa using mem), List.append_assoc, List.append_assoc]
        exact ih ([x] ++ left) list notices

/-- With at most a hundred runs everything is told at the end. -/
theorem removeLoop_quiet (messages : List Nat) (n : Nat) (index : List U) (list : List Range)
    (few : (ranges (fun n => decide (n ∈ messages)) n list).length ≤ 100) :
    (removeLoop messages n index list []).2 =
      (ranges (fun n => decide (n ∈ messages)) n list, []) := by
  induction n generalizing index list with
  | zero => rfl
  | succ n ih =>
      rw [ranges] at few ⊢
      by_cases mem : n ∈ messages
      · rw [if_pos (decide_eq_true mem)] at few ⊢
        rw [removeLoop_push mem ((length_le_ranges _ n _).trans few)]
        exact ih _ _ few
      · rw [if_neg (by simpa using mem)] at few ⊢
        rw [removeLoop, if_pos mem]
        exact ih _ _ few

theorem removeLoop_flushes (messages : List Nat) (front back left : List U) (list : List Range)
    (above : Above front.length (front ++ back).length list)
    (deleted : delete list (front ++ back) = front ++ left) (small : list.length ≤ 100)
    (many : 100 < (ranges (fun n => decide (n ∈ messages)) front.length list).length) :
    ∃ removed index rest,
      (removeLoop messages front.length (front ++ left) list []).2.2 =
          ⟨.messagesRemoved removed, index⟩ :: rest ∧
        index.length < (delete removed (front ++ back)).length := by
  induction front using List.reverseRecOn generalizing list back left with
  | nil => exact absurd small (Nat.not_le_of_gt many)
  | append_singleton front x ih =>
      have erased : (front ++ [x] ++ left).eraseIdx front.length = front ++ left := by
        rw [List.append_assoc, List.eraseIdx_append_of_length_le (Nat.le_refl _)]
        simp
      have size : (front ++ [x]).length = front.length + 1 := by simp
      have split : front ++ [x] ++ back = front ++ x :: back := by simp
      rw [size] at above many ⊢
      rw [ranges] at many
      by_cases mem : front.length ∈ messages
      · rw [if_pos (decide_eq_true mem)] at many
        by_cases room : (push front.length list).length ≤ 100
        · rw [removeLoop_push mem room, erased]
          rw [split] at above deleted ⊢
          refine ih (x :: back) left _ (above.push (by simp)) ?_ room many
          rw [delete_push above.spaced above.above (by rw [deleted]; simp), deleted,
            ← erased]
        · rw [removeLoop_flush mem small (by omega), erased]
          obtain ⟨rest, told⟩ := removeLoop_notices messages front.length (front ++ left)
            [(front.length, front.length)] ([] ++ [⟨.messagesRemoved list, front ++ left⟩])
          refine ⟨list, front ++ left, rest, told.symm, ?_⟩
          rw [deleted]
          simp
      · rw [if_neg (by simpa using mem)] at many
        rw [removeLoop, if_pos mem, List.append_assoc]
        rw [split] at above deleted ⊢
        rw [List.append_assoc] at deleted
        exact ih (x :: back) ([x] ++ left) list above.weaken deleted small many

theorem remaining_sublist (gone : Nat → Bool) (l : List U) : (remaining gone l).Sublist l := by
  have sub : (remaining gone l).Sublist (l.zipIdx.map Prod.fst) := List.filter_sublist.map Prod.fst
  rwa [List.zipIdx_map_fst] at sub

theorem survivors_remaining [DecidableEq U] (gone : Nat → Bool) {l : List U} (once : l.Nodup) :
    (l.filter fun u => decide (u ∈ remaining gone l)) = remaining gone l := by
  have sub := remaining_sublist gone l
  have stay : ((remaining gone l).filter fun u => decide (u ∈ remaining gone l)) =
      remaining gone l := List.filter_eq_self.mpr fun u mem => decide_eq_true mem
  have within := sub.filter fun u => decide (u ∈ remaining gone l)
  rw [stay] at within
  have same : (remaining gone l).Perm (l.filter fun u => decide (u ∈ remaining gone l)) := by
    rw [List.perm_ext_iff_of_nodup (once.sublist sub) (once.filter _)]
    intro u
    rw [List.mem_filter, decide_eq_true_iff]
    exact ⟨fun mem => ⟨sub.subset mem, mem⟩, fun both => both.2⟩
  exact (within.eq_of_length same.length_eq).symm

theorem nntp_keeps_iff [DecidableEq U] (messages : List Nat) (index : List U)
    (once : index.Nodup) :
    Keeps index (remaining (fun n => decide (n ∈ messages)) index)
        (removeMessages messages index).1 (removeMessages messages index).2 ↔
      runs messages index.length ≤ 100 := by
  obtain ⟨above, deleted⟩ := ranges_remaining (fun n => decide (n ∈ messages)) index
  have final := removeLoop_index messages index [] [] []
  rw [List.append_nil, List.append_nil] at final
  have sub := remaining_sublist (fun n => decide (n ∈ messages)) index
  rw [← length_ranges_messages]
  constructor
  · intro keeps
    by_contra many
    obtain ⟨removed, index', rest, first, shorter⟩ := removeLoop_flushes messages index [] [] []
      ⟨spaced_nil, by simp, by simp⟩ rfl (by simp) (by omega)
    rw [List.append_nil] at first shorter
    have follows := keeps.follows
    rw [removeMessages, first, List.cons_append] at follows
    exact absurd follows.1.2.length_le (Nat.not_le_of_gt shorter)
  · intro few
    have quiet := removeLoop_quiet messages index.length index [] few
    obtain ⟨follows, ends⟩ := @follows_removed U index _ [] _ above
      (List.prefix_refl (delete (ranges (fun n => decide (n ∈ messages)) index.length []) index))
    rw [List.append_nil] at follows ends
    rw [removeMessages, quiet, final, List.nil_append, ← deleted]
    refine ⟨follows.mpr trivial, ends, ?_, ?_, fun u => Iff.rfl⟩
    · rw [deleted, survivors_remaining _ once]
    · rw [deleted]
      exact once.sublist sub

end Nntp

/-! ## All of them -/

section All
variable {U F K : Type} [DecidableEq U] [DecidableEq F] [DecidableEq K]

/-- The application's list follows the maildir's index if no new message has keywords, always that
of the maildrop, and the newsgroup's index if at most a hundred runs of positions are removed. -/
theorem folder_updates_iff (empty : K) (kwRead : Option (U → K)) (files : List (MessageFile U F))
    (infos : List (MaildirMessageInfo U F K)) (maildrop index : List U) (messages : List Nat)
    (infosOnce : (infos.map MaildirMessageInfo.uid).Nodup)
    (filesOnce : (files.map MessageFile.uid).Nodup) (maildropOnce : maildrop.Nodup)
    (indexOnce : index.Nodup) :
    (Keeps (infos.map MaildirMessageInfo.uid) (files.map MessageFile.uid)
          ((maildirCheckNewMail empty kwRead files infos).1.map MaildirMessageInfo.uid)
          (maildirCheckNewMail empty kwRead files infos).2 ↔
        MaildirMeets empty kwRead files (infos.map MaildirMessageInfo.uid)) ∧
      Keeps index maildrop (reconcileFolderIndex maildrop index).1
        (reconcileFolderIndex maildrop index).2 ∧
      (Keeps index (remaining (fun n => decide (n ∈ messages)) index)
          (removeMessages messages index).1 (removeMessages messages index).2 ↔
        runs messages index.length ≤ 100) :=
  ⟨maildir_keeps_iff empty kwRead files infos infosOnce filesOnce,
    pop3_keeps maildrop index indexOnce maildropOnce, nntp_keeps_iff messages index indexOnce⟩

/-- A message that came with a keyword is told to be changed before it is announced. -/
theorem folder_updates_new_keyword :
    ¬ ∀ (empty : List Nat) (keywords : Nat → List Nat) (files : List (MessageFile Nat Bool))
      (infos : List (MaildirMessageInfo Nat Bool (List Nat))),
      (infos.map MaildirMessageInfo.uid).Nodup → (files.map MessageFile.uid).Nodup →
        Keeps (infos.map MaildirMessageInfo.uid) (files.map MessageFile.uid)
          ((maildirCheckNewMail empty (some keywords) files infos).1.map MaildirMessageInfo.uid)
          (maildirCheckNewMail empty (some keywords) files infos).2 := by
  intro all
  have follows := (all [] (fun _ => [1]) [⟨7, false⟩] [] List.nodup_nil (by simp)).follows
  exact absurd follows.1.1 (by decide)

theorem folder_updates_sample :
    Keeps [5, 6] [6, 7]
        ((maildirCheckNewMail ([] : List Nat) (some fun _ => []) [⟨6, true⟩, ⟨7, false⟩]
          [⟨5, false, [], false⟩, ⟨6, false, [], false⟩]).1.map MaildirMessageInfo.uid)
        (maildirCheckNewMail ([] : List Nat) (some fun _ => []) [⟨6, true⟩, ⟨7, false⟩]
          [⟨5, false, [], false⟩, ⟨6, false, [], false⟩]).2 ∧
      Keeps [1, 2, 3] [4, 2] (reconcileFolderIndex [4, 2] [1, 2, 3]).1
        (reconcileFolderIndex [4, 2] [1, 2, 3]).2 ∧
      Keeps [1, 2, 3] (remaining (fun n => decide (n ∈ [0, 2])) [1, 2, 3])
        (removeMessages [0, 2] [1, 2, 3]).1 (removeMessages [0, 2] [1, 2, 3]).2 := by
  obtain ⟨maildir, pop3, nntp⟩ := folder_updates_iff ([] : List Nat) (some fun _ => [])
    [⟨6, true⟩, ⟨7, false⟩] [⟨5, false, [], false⟩, ⟨6, false, [], false⟩] [4, 2] [1, 2, 3] [0, 2]
    (by decide) (by decide) (by decide) (by decide)
  exact ⟨maildir.mpr fun _ _ _ => rfl, pop3, nntp.mpr (by decide)⟩

end All

end Cone.FolderUpdates
