import Mathlib.Data.Finset.Insert
import Mathlib.Data.Finset.Dedup
import Cone.Lib.Istream
import Cone.ImapBodystructure

/-! # Saved snapshots of a folder

`myFolder::saveSnapshot` and `myFolder::RestoreSnapshot` (`cone/myfolder.C`), with the conversions
of `mail::messageInfo` (`mail.C`). -/
set_option autoImplicit false
namespace Cone.MyFolderSnapshot

open Cone.Ctype Cone.Lib.Decimal Cone.Lib.Istream
open Cone.ImapBodystructure (Text)

/-! ## The file -/

structure MessageInfo where
  uid : Text
  draft : Bool
  replied : Bool
  marked : Bool
  deleted : Bool
  unread : Bool
  recent : Bool
  deriving DecidableEq, Repr

def flag (set : Bool) (c : Char) : Text := if set then [byte c] else []

/-- `mail::messageInfo::operator string` -/
def MessageInfo.toText (m : MessageInfo) : Text :=
  flag m.draft 'D' ++ flag m.replied 'R' ++ flag m.marked 'M' ++ flag m.deleted 'T' ++
    flag m.unread 'U' ++ flag m.recent 'C' ++ byte ':' :: m.uid

/-- The loop of `mail::messageInfo::messageInfo`. -/
def readInfo (m : MessageInfo) : Text → MessageInfo
  | [] => m
  | c :: b =>
    if c = byte 'D' then readInfo { m with draft := true } b
    else if c = byte 'R' then readInfo { m with replied := true } b
    else if c = byte 'M' then readInfo { m with marked := true } b
    else if c = byte 'T' then readInfo { m with deleted := true } b
    else if c = byte 'U' then readInfo { m with unread := true } b
    else if c = byte 'C' then readInfo { m with recent := true } b
    else if c = byte ':' then { m with uid := b }
    else readInfo m b

def messageInfo (s : Text) : MessageInfo :=
  readInfo ⟨[], false, false, false, false, false, false⟩ s

structure Message where
  info : MessageInfo
  keywords : List Text

def SNAPSHOTFORMAT : Text := str "1"

/-- What the first line begins with. -/
def formatPrefix : Text := SNAPSHOTFORMAT ++ [byte ':']

def Message.kept (m : Message) : List Text := m.keywords.filter fun keyword => decide (NL ∉ keyword)

def group (i : Nat) (m : Message) : List Text :=
  if m.kept = [] then [] else decimal i :: m.kept ++ [[]]

def header (snapshotId : Text) (n : Nat) : Text :=
  formatPrefix ++ (decimal n ++ byte ':' :: snapshotId)

def indexLines (snapshotId : Text) (messages : List Message) : List Text :=
  header snapshotId messages.length :: messages.map fun m => m.info.toText

def groups (messages : List (Message × Nat)) : List Text := messages.flatMap fun x => group x.2 x.1

def saveSnapshot (snapshotId : Text) (messages : List Message) : Text :=
  unlines (indexLines snapshotId messages ++ groups messages.zipIdx)

/-! ## Reading it -/

/-- `mail::snapshot::restore` -/
inductive Call where
  | restoreIndex (n : Nat) (info : MessageInfo)
  | restoreKeywords (n : Nat) (kwset : Finset Text)
  | abortRestore
  deriving DecidableEq

structure RestoreSnapshot where
  snapshotId : Text
  nmessages : Nat
  lines : List Text

def openSnapshot (file : Text) : Option RestoreSnapshot :=
  match getlines file with
  | [] => none
  | line :: lines =>
    if line.take formatPrefix.length ≠ formatPrefix then none
    else
      let line := line.drop formatPrefix.length
      if byte ':' ∉ line then none
      else
        (readSize line).map fun n => ⟨(line.dropWhile (· ≠ byte ':')).drop 1, n.1, lines⟩

def getSnapshotInfo (file : Text) : Text × Nat :=
  match openSnapshot file with
  | none => ([], 0)
  | some i => (i.snapshotId, i.nmessages)

def restoreInfos : Nat → Nat → List Text → List Call × Option (List Text)
  | 0, _, lines => ([], some lines)
  | _ + 1, _, [] => ([.abortRestore], none)
  | k + 1, n, l :: lines =>
    let r := restoreInfos k (n + 1) lines
    (.restoreIndex n (messageInfo l) :: r.1, r.2)

def readGroup (kwset : Finset Text) : List Text → Option (Finset Text × List Text)
  | [] => none
  | l :: lines => if l = [] then some (kwset, lines) else readGroup (insert l kwset) lines

theorem length_readGroup {kwset : Finset Text} {lines : List Text} {r : Finset Text × List Text}
    (h : readGroup kwset lines = some r) : r.2.length ≤ lines.length := by
  induction lines generalizing kwset with
  | nil => cases h
  | cons l lines ih =>
      rw [readGroup] at h
      split at h
      · cases h
        exact Nat.le_succ _
      · exact (ih h).trans (Nat.le_succ _)

def restoreGroups (nmessages : Nat) (lines : List Text) : List Call :=
  match lines with
  | [] => []
  | l :: lines =>
    match readSize l with
    | none => [.abortRestore]
    | some (n, _) =>
      if n ≥ nmessages then [.abortRestore]
      else
        match h : readGroup ∅ lines with
        | none => [.abortRestore]
        | some r =>
          (if r.1 = ∅ then [] else [.restoreKeywords n r.1]) ++ restoreGroups nmessages r.2
  termination_by lines.length
  decreasing_by exact Nat.lt_succ_of_le (length_readGroup h)

def restoreSnapshot (file : Text) : List Call :=
  match openSnapshot file with
  | none => [.abortRestore]
  | some i =>
    let r := restoreInfos i.nmessages 0 i.lines
    match r.2 with
    | none => r.1
    | some lines => r.1 ++ restoreGroups i.nmessages lines

/-! ## Messages and their calls -/

section Infos

theorem messageInfo_toText (m : MessageInfo) : messageInfo m.toText = m := by
  obtain ⟨uid, draft, replied, marked, deleted, unread, recent⟩ := m
  cases draft <;> cases replied <;> cases marked <;> cases deleted <;> cases unread <;>
    cases recent <;> simp [messageInfo, MessageInfo.toText, flag, readInfo, byte]

theorem toText_single {m : MessageInfo} (single : NL ∉ m.uid) : NL ∉ m.toText := by
  have flags : ∀ set c, byte c ≠ NL → NL ∉ flag set c := by
    intro set c other
    cases set with
    | false => simp [flag]
    | true => simpa [flag] using Ne.symm other
  simp only [MessageInfo.toText, List.mem_append, List.mem_cons, not_or]
  exact ⟨⟨⟨⟨⟨⟨flags _ _ (by decide), flags _ _ (by decide)⟩, flags _ _ (by decide)⟩,
    flags _ _ (by decide)⟩, flags _ _ (by decide)⟩, flags _ _ (by decide)⟩, by decide, single⟩

theorem restoreInfos_map (messages : List Message) (n : Nat) (rest : List Text) :
    restoreInfos messages.length n (messages.map (fun m => m.info.toText) ++ rest) =
      ((messages.zipIdx n).map fun x => .restoreIndex x.2 x.1.info, some rest) := by
  induction messages generalizing n with
  | nil => rfl
  | cons m messages ih =>
      rw [List.map_cons, List.cons_append, List.length_cons, restoreInfos, ih]
      simp only [messageInfo_toText]
      rfl

theorem restoreInfos_short {k : Nat} (n : Nat) {lines : List Text} (short : lines.length < k) :
    (restoreInfos k n lines).2 = none ∧ .abortRestore ∈ (restoreInfos k n lines).1 := by
  induction lines generalizing k n with
  | nil =>
      cases k with
      | zero => cases short
      | succ k => simp [restoreInfos]
  | cons l lines ih =>
      cases k with
      | zero => cases short
      | succ k =>
          obtain ⟨none', mem⟩ := ih (n + 1) (Nat.lt_of_succ_lt_succ short)
          rw [restoreInfos]
          exact ⟨none', List.mem_cons_of_mem _ mem⟩

end Infos

section Groups
variable {nmessages i : Nat} {m : Message} {rest : List Text}

def keywordCall (i : Nat) (m : Message) : List Call :=
  if m.kept = [] then [] else [.restoreKeywords i m.kept.toFinset]

theorem readGroup_append {keywords : List Text} (some' : [] ∉ keywords) (kwset : Finset Text)
    (rest : List Text) :
    readGroup kwset (keywords ++ [] :: rest) = some (kwset ∪ keywords.toFinset, rest) := by
  induction keywords generalizing kwset with
  | nil => simp [readGroup]
  | cons l keywords ih =>
      obtain ⟨here, later⟩ := not_or.mp (mt List.mem_cons.mpr some')
      rw [List.cons_append, readGroup, if_neg (Ne.symm here), ih later, List.toFinset_cons]
      simp [Finset.insert_union, Finset.union_insert]

theorem readGroup_cut {keywords : List Text} (some' : [] ∉ keywords) (kwset : Finset Text) :
    readGroup kwset keywords = none := by
  induction keywords generalizing kwset with
  | nil => rfl
  | cons l keywords ih =>
      obtain ⟨here, later⟩ := not_or.mp (mt List.mem_cons.mpr some')
      rw [readGroup, if_neg (Ne.symm here), ih later]

theorem readSize_decimal' (small : i < 2 ^ 64) : readSize (decimal i) = some (i, []) := by
  have read := @readSize_decimal i small [] (by simp)
  rwa [List.append_nil] at read

theorem kept_some (some' : [] ∉ m.keywords) : [] ∉ m.kept := fun mem =>
  some' (List.mem_of_mem_filter mem)

theorem restoreGroups_read {lines : List Text} (below : i < nmessages)
    (small : nmessages < 2 ^ 64) :
    restoreGroups nmessages (decimal i :: lines) =
      match readGroup ∅ lines with
      | none => [.abortRestore]
      | some r =>
        (if r.1 = ∅ then [] else [.restoreKeywords i r.1]) ++ restoreGroups nmessages r.2 := by
  rw [restoreGroups, readSize_decimal' (by omega)]
  simp only [if_neg (Nat.not_le_of_lt below)]
  split
  · rename_i read
    rw [read]
  · rename_i read
    rw [read]

theorem restoreGroups_group (below : i < nmessages) (small : nmessages < 2 ^ 64)
    (some' : [] ∉ m.keywords) :
    restoreGroups nmessages (group i m ++ rest) =
      keywordCall i m ++ restoreGroups nmessages rest := by
  rw [group, keywordCall]
  by_cases none' : m.kept = []
  · rw [if_pos none', if_pos none']
    rfl
  · have read := readGroup_append (kept_some some') ∅ rest
    rw [Finset.empty_union] at read
    have all : m.kept.toFinset ≠ ∅ := by simpa using none'
    rw [if_neg none', if_neg none', List.append_assoc, List.cons_append,
      restoreGroups_read below small, List.singleton_append, read]
    simp only [if_neg all]

theorem restoreGroups_cut (below : i < nmessages) (small : nmessages < 2 ^ 64)
    (some' : [] ∉ m.keywords) {j : Nat} (begun : 0 < j) (cut : j < (group i m).length) :
    restoreGroups nmessages ((group i m).take j) = [.abortRestore] := by
  rw [group] at cut ⊢
  by_cases none' : m.kept = []
  · rw [if_pos none'] at cut
    cases cut
  · rw [if_neg none'] at cut ⊢
    obtain ⟨j, rfl⟩ := Nat.exists_eq_add_of_lt begun
    simp only [List.length_append, List.length_cons, List.length_nil] at cut
    have part : (decimal i :: m.kept ++ [[]]).take (0 + j + 1) = decimal i :: m.kept.take j := by
      rw [Nat.zero_add, List.cons_append, List.take_succ_cons,
        List.take_append_of_le_length (by omega)]
    rw [part, restoreGroups_read below small,
      readGroup_cut fun mem => kept_some some' (List.mem_of_mem_take mem)]

theorem restoreGroups_groups {messages : List (Message × Nat)} (small : nmessages < 2 ^ 64)
    (below : ∀ x ∈ messages, x.2 < nmessages) (some' : ∀ x ∈ messages, [] ∉ x.1.keywords) :
    restoreGroups nmessages (groups messages) = messages.flatMap fun x => keywordCall x.2 x.1 := by
  induction messages with
  | nil => simp [groups, restoreGroups]
  | cons x messages ih =>
      rw [groups, List.flatMap_cons, List.flatMap_cons,
        restoreGroups_group (below x List.mem_cons_self) small (some' x List.mem_cons_self)]
      exact congrArg _ (ih (fun y mem => below y (List.mem_cons_of_mem x mem))
        fun y mem => some' y (List.mem_cons_of_mem x mem))

theorem restoreGroups_take {messages : List (Message × Nat)} (small : nmessages < 2 ^ 64)
    (below : ∀ x ∈ messages, x.2 < nmessages) (some' : ∀ x ∈ messages, [] ∉ x.1.keywords)
    (j : Nat) :
    (∃ whole, whole <+: messages ∧ (groups messages).take j = groups whole) ∨
      .abortRestore ∈ restoreGroups nmessages ((groups messages).take j) := by
  induction messages generalizing j with
  | nil => exact Or.inl ⟨[], List.prefix_refl [], by simp [groups]⟩
  | cons x messages ih =>
      have below' := below x List.mem_cons_self
      have someX := some' x List.mem_cons_self
      rcases Nat.eq_zero_or_pos j with rfl | begun
      · exact Or.inl ⟨[], List.nil_prefix, rfl⟩
      · have split : groups (x :: messages) = group x.2 x.1 ++ groups messages := List.flatMap_cons
        by_cases cut : j < (group x.2 x.1).length
        · right
          rw [split, List.take_append_of_le_length (Nat.le_of_lt cut),
            restoreGroups_cut below' small someX begun cut]
          exact List.mem_singleton_self _
        · rw [split, List.take_append, List.take_of_length_le (by omega)]
          rcases ih (fun y mem => below y (List.mem_cons_of_mem x mem))
            (fun y mem => some' y (List.mem_cons_of_mem x mem)) (j - (group x.2 x.1).length) with
            ⟨whole, part, same⟩ | aborted
          · refine Or.inl ⟨x :: whole, List.cons_prefix_cons.mpr ⟨rfl, part⟩, ?_⟩
            rw [same, groups, groups, List.flatMap_cons]
          · right
            rw [restoreGroups_group below' small someX]
            exact List.mem_append_right _ aborted

end Groups

/-! ## Round trip -/

section RoundTrip
variable {snapshotId : Text} {messages : List Message}

theorem decimal_single (n : Nat) : NL ∉ decimal n := fun mem =>
  absurd (isdigit_of_mem_decimal mem) (by decide)

theorem header_single (single : NL ∉ snapshotId) (n : Nat) : NL ∉ header snapshotId n := by
  simp only [header, List.mem_append, List.mem_cons, not_or]
  exact ⟨by decide, decimal_single n, by decide, single⟩

theorem groups_single (messages : List (Message × Nat)) : ∀ line ∈ groups messages, NL ∉ line := by
  intro line mem
  obtain ⟨x, -, mem⟩ := List.mem_flatMap.mp mem
  rw [group] at mem
  split at mem
  · cases mem
  · rcases List.mem_append.mp mem with mem | mem
    · rcases List.mem_cons.mp mem with rfl | mem
      · exact decimal_single x.2
      · exact of_decide_eq_true (List.mem_filter.mp mem).2
    · rw [List.mem_singleton.mp mem]
      exact List.not_mem_nil

theorem openSnapshot_header (small : messages.length < 2 ^ 64) (single : NL ∉ snapshotId)
    {lines : List Text} (others : ∀ line ∈ lines, NL ∉ line) :
    openSnapshot (unlines (header snapshotId messages.length :: lines)) =
      some ⟨snapshotId, messages.length, lines⟩ := by
  have digits : ∀ c ∈ decimal messages.length, decide (c ≠ byte ':') = true := by
    intro c mem
    refine decide_eq_true fun same => ?_
    have digit := isdigit_of_mem_decimal mem
    rw [same] at digit
    exact absurd digit (by decide)
  have read := @readSize_decimal messages.length small (byte ':' :: snapshotId)
    (by simp [isdigit, byte])
  have id : (decimal messages.length ++ byte ':' :: snapshotId).dropWhile (· ≠ byte ':') =
      byte ':' :: snapshotId := by
    rw [List.dropWhile_append_of_pos digits, List.dropWhile_cons_of_neg (by simp)]
  rw [openSnapshot, getlines_unlines _ (List.forall_mem_cons.mpr ⟨header_single single _, others⟩)]
  simp only [header, List.take_left, List.drop_left, read, id]
  simp

theorem restoreSnapshot_index (small : messages.length < 2 ^ 64) (single : NL ∉ snapshotId)
    (uids : ∀ m ∈ messages, NL ∉ m.info.uid) {lines : List Text}
    (others : ∀ line ∈ lines, NL ∉ line) :
    restoreSnapshot (unlines (indexLines snapshotId messages ++ lines)) =
      messages.zipIdx.map (fun x => .restoreIndex x.2 x.1.info) ++
        restoreGroups messages.length lines := by
  have all : ∀ line ∈ messages.map (fun m => m.info.toText) ++ lines, NL ∉ line := by
    intro line mem
    rcases List.mem_append.mp mem with mem | mem
    · obtain ⟨m, mem', rfl⟩ := List.mem_map.mp mem
      exact toText_single (uids m mem')
    · exact others line mem
  rw [restoreSnapshot, indexLines, List.cons_append, openSnapshot_header small single all]
  simp only [restoreInfos_map]

theorem restoreSnapshot_short (small : messages.length < 2 ^ 64) (single : NL ∉ snapshotId)
    (uids : ∀ m ∈ messages, NL ∉ m.info.uid) {k : Nat} (short : k < messages.length + 1) :
    .abortRestore ∈ restoreSnapshot (unlines ((indexLines snapshotId messages).take k)) := by
  cases k with
  | zero => simp [restoreSnapshot, openSnapshot, getlines]
  | succ k =>
      have others : ∀ line ∈ (messages.map fun m => m.info.toText).take k, NL ∉ line := by
        intro line mem
        obtain ⟨m, mem', rfl⟩ := List.mem_map.mp (List.mem_of_mem_take mem)
        exact toText_single (uids m mem')
      have few : ((messages.map fun m => m.info.toText).take k).length < messages.length := by
        rw [List.length_take, List.length_map]
        omega
      obtain ⟨none', mem⟩ := restoreInfos_short 0 few
      rw [restoreSnapshot, indexLines, List.take_succ_cons, openSnapshot_header small single others]
      simp only [none']
      exact mem

/-- What is saved is restored, and what is cut off is noticed. -/
theorem snapshot_restored (snapshotId : Text) (messages : List Message)
    (small : messages.length < 2 ^ 64) (single : NL ∉ snapshotId)
    (uids : ∀ m ∈ messages, NL ∉ m.info.uid) (some' : ∀ m ∈ messages, [] ∉ m.keywords) :
    getSnapshotInfo (saveSnapshot snapshotId messages) = (snapshotId, messages.length) ∧
      restoreSnapshot (saveSnapshot snapshotId messages) =
        messages.zipIdx.map (fun x => .restoreIndex x.2 x.1.info) ++
          messages.zipIdx.flatMap (fun x => keywordCall x.2 x.1) ∧
      ∀ part, part <+: saveSnapshot snapshotId messages → (part = [] ∨ part.getLast? = some NL) →
        (∀ whole, whole <+: messages.zipIdx →
          part ≠ unlines (indexLines snapshotId messages ++ groups whole)) →
        .abortRestore ∈ restoreSnapshot part := by
  have below : ∀ x ∈ messages.zipIdx, x.2 < messages.length := by
    intro x mem
    have := List.snd_lt_of_mem_zipIdx mem
    omega
  have names : ∀ x ∈ messages.zipIdx, [] ∉ x.1.keywords := fun x mem =>
    some' x.1 (List.fst_mem_of_mem_zipIdx mem)
  have keys := groups_single messages.zipIdx
  have infos : ∀ line ∈ messages.map fun m => m.info.toText, NL ∉ line := by
    intro line mem
    obtain ⟨m, mem', rfl⟩ := List.mem_map.mp mem
    exact toText_single (uids m mem')
  have size : (indexLines snapshotId messages).length = messages.length + 1 := by simp [indexLines]
  refine ⟨?_, ?_, ?_⟩
  · rw [getSnapshotInfo, saveSnapshot, indexLines, List.cons_append,
      openSnapshot_header small single (List.forall_mem_append.mpr ⟨infos, keys⟩)]
  · rw [saveSnapshot, restoreSnapshot_index small single uids keys,
      restoreGroups_groups small below names]
  · intro part cut ends cuts
    have single' : ∀ line ∈ indexLines snapshotId messages ++ groups messages.zipIdx, NL ∉ line :=
      List.forall_mem_append.mpr
        ⟨List.forall_mem_cons.mpr ⟨header_single single _, infos⟩, keys⟩
    obtain ⟨k, rfl⟩ := prefix_unlines single' cut ends
    by_cases short : k < messages.length + 1
    · rw [List.take_append_of_le_length (by omega)]
      exact restoreSnapshot_short small single uids short
    · rw [List.take_append, List.take_of_length_le (by omega)] at cuts ⊢
      rw [restoreSnapshot_index small single uids fun line mem =>
        keys line (List.mem_of_mem_take mem)]
      rcases restoreGroups_take small below names (k - (indexLines snapshotId messages).length) with
        ⟨whole, part, same⟩ | aborted
      · rw [same] at cuts
        exact absurd rfl (cuts whole part)
      · exact List.mem_append_right _ aborted

theorem snapshot_restored_sample :
    getSnapshotInfo (saveSnapshot (str "a:b")
        [⟨⟨str "7", false, true, false, false, true, false⟩, [str "1", str "x"]⟩]) =
      (str "a:b", 1) :=
  (snapshot_restored (str "a:b")
    [⟨⟨str "7", false, true, false, false, true, false⟩, [str "1", str "x"]⟩]
    (by decide) (by decide) (by decide) (by decide)).1

end RoundTrip

end Cone.MyFolderSnapshot
