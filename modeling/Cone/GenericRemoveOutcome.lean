import Cone.GenericRemove

/-! # What is left of the folder

The folder after `genericRemoveMessages`, by which of its requests failed. -/
set_option autoImplicit false
namespace Cone.GenericRemove

section Flags
variable {U : Type}

theorem getElem?_flagged {messages : List Nat} (h : messages.Nodup) (doFlip enableDisable : Bool)
    (l : List (MessageInfo U)) (j : Nat) :
    (flagged messages doFlip enableDisable l)[j]? =
      if j ∈ messages then l[j]?.map (setDeleted doFlip enableDisable) else l[j]? := by
  induction messages generalizing l with
  | nil => rfl
  | cons i messages ih =>
      obtain ⟨hfirst, hrest⟩ := List.nodup_cons.mp h
      rw [flagged, List.foldl_cons]
      apply (ih hrest _).trans
      rw [List.getElem?_modify]
      by_cases hj : i = j
      · subst hj
        rw [if_neg hfirst, if_pos List.mem_cons_self]
        simp
      · by_cases hmem : j ∈ messages
        · rw [if_pos hmem, if_pos (List.mem_cons_of_mem i hmem)]
          simp [hj]
        · rw [if_neg hmem, if_neg (by simp [hmem, Ne.symm hj])]
          simp [hj]

end Flags

section Lists
variable {U : Type} [DecidableEq U] {index : FolderIndex U} {msgs : List U} {messages : List Nat}

theorem mem_mkMessageList {i : Nat} :
    i ∈ mkMessageList msgs index ↔ ∃ m, index.messages[i]? = some m ∧ m.uid ∈ msgs := by
  rw [mkMessageList, List.mem_filter, List.mem_range]
  constructor
  · intro ⟨_, hany⟩
    obtain ⟨m, hm, huid⟩ := (Option.any_eq_true _ _).mp hany
    exact ⟨m, hm, of_decide_eq_true huid⟩
  · rintro ⟨m, hm, huid⟩
    refine ⟨(List.getElem?_eq_some_iff.mp hm).1, ?_⟩
    rw [hm]
    exact decide_eq_true huid

theorem mkMessageList_eq_nil :
    mkMessageList msgs index = [] ↔ ∀ m ∈ index.messages, m.uid ∉ msgs := by
  rw [List.eq_nil_iff_forall_not_mem]
  constructor
  · intro h m hm huid
    obtain ⟨i, hi⟩ := List.mem_iff_getElem?.mp hm
    exact h i (mem_mkMessageList.mpr ⟨m, hi, huid⟩)
  · intro h i hi
    obtain ⟨m, hm, huid⟩ := mem_mkMessageList.mp hi
    exact h m (List.mem_of_getElem? hm) huid

theorem updateFolderIndexFlags_eq (doFlip enableDisable : Bool) :
    (updateFolderIndexFlags index (mkMessageList msgs index) doFlip enableDisable).messages =
      index.messages.map fun m =>
        if m.uid ∈ msgs then setDeleted doFlip enableDisable m else m := by
  have hnodup : (mkMessageList msgs index).Nodup := List.nodup_range.filter _
  apply List.ext_getElem?
  intro j
  rw [updateFolderIndexFlags, getElem?_flagged hnodup, List.getElem?_map]
  cases hj : index.messages[j]? with
  | none => simp
  | some m =>
      by_cases huid : m.uid ∈ msgs
      · rw [if_pos (mem_mkMessageList.mpr ⟨m, hj, huid⟩)]
        simp [huid]
      · have hnot : j ∉ mkMessageList msgs index := by
          intro hmem
          obtain ⟨m', hm', huid'⟩ := mem_mkMessageList.mp hmem
          rw [hj] at hm'
          cases hm'
          exact huid huid'
        rw [if_neg hnot]
        simp [huid]

omit [DecidableEq U] in
theorem eq_of_uid {i j : Nat} {m m' : MessageInfo U} (hi : index.messages[i]? = some m)
    (hj : index.messages[j]? = some m') (h : m.uid = m'.uid) : i = j := by
  have hlt : i < (index.messages.map (·.uid)).length := by
    rw [List.length_map]
    exact (List.getElem?_eq_some_iff.mp hi).1
  apply (List.getElem?_inj hlt index.distinct).mp
  rw [List.getElem?_map, List.getElem?_map, hi, hj, Option.map_some, Option.map_some, h]

omit [DecidableEq U] in
theorem mem_moved_iff {i : Nat} {m : MessageInfo U} (hi : index.messages[i]? = some m) :
    m.uid ∈ moved index messages ↔ i ∈ messages := by
  rw [moved, List.mem_filterMap]
  constructor
  · rintro ⟨j, hj, huid⟩
    obtain ⟨m', hm', heq⟩ := Option.map_eq_some_iff.mp huid
    rw [eq_of_uid hi hm' heq.symm]
    exact hj
  · intro hmem
    refine ⟨i, hmem, ?_⟩
    rw [hi]
    rfl

def selected (index : FolderIndex U) (messages : List Nat) (m : MessageInfo U) : Bool :=
  decide (m.uid ∈ moved index messages)

theorem mem_msgToDo {m : MessageInfo U} (hm : m ∈ index.messages) :
    m.uid ∈ msgToDo index messages ↔ selected index messages m ≠ m.deleted := by
  obtain ⟨i, hi⟩ := List.mem_iff_getElem?.mp hm
  have hsel : ∀ {j : Nat} {m' : MessageInfo U}, index.messages[j]? = some m' →
      decide (j ∈ messages) = selected index messages m' := by
    intro j m' hj
    rw [selected]
    exact decide_eq_decide.mpr (mem_moved_iff hj).symm
  rw [msgToDo, List.mem_filterMap]
  constructor
  · rintro ⟨j, -, huid⟩
    obtain ⟨m', hm', hif⟩ := Option.bind_eq_some_iff.mp huid
    rw [hsel hm'] at hif
    split_ifs at hif with hne
    have hij := eq_of_uid hi hm' (Option.some.inj hif).symm
    rw [← hij, hi] at hm'
    cases hm'
    exact hne
  · intro hne
    refine ⟨i, List.mem_range.mpr (List.getElem?_eq_some_iff.mp hi).1, ?_⟩
    rw [hi, Option.bind_some, hsel hi, if_pos hne]

theorem undeleted_eq :
    (updateFolderIndexFlags index (mkMessageList (msgToDo index messages) index) true false).messages =
      index.messages.map fun m => { m with deleted := selected index messages m } := by
  rw [updateFolderIndexFlags_eq]
  apply List.map_congr_left
  intro m hm
  obtain ⟨uid, deleted⟩ := m
  have hdo : uid ∈ msgToDo index messages ↔ selected index messages ⟨uid, deleted⟩ ≠ deleted :=
    mem_msgToDo hm
  by_cases huid : uid ∈ msgToDo index messages
  · have hne := hdo.mp huid
    rw [if_pos huid, setDeleted]
    dsimp only at hne ⊢
    congr 1
    cases hsel : selected index messages ⟨uid, deleted⟩ <;> cases deleted <;> simp_all
  · have heq := not_not.mp (hdo.not.mp huid)
    rw [if_neg huid, heq]

end Lists

section Outcome
variable {U : Type} [DecidableEq U] {index : FolderIndex U} {messages : List Nat} {a : Answers}

def others (index : FolderIndex U) (messages : List Nat) : List (MessageInfo U) :=
  index.messages.filter fun m => !selected index messages m

def Marked (index : FolderIndex U) (messages : List Nat) : Prop :=
  ∃ m ∈ others index messages, m.deleted = true

instance : Decidable (Marked index messages) :=
  inferInstanceAs (Decidable (∃ m ∈ others index messages, m.deleted = true))

structure Ends (s : State U) (l : List (MessageInfo U)) (call : Call) : Prop where
  request : s.request = none
  messages : s.index.messages = l
  calls : s.calls = [call]

theorem reply_of_none {s : State U} (h : s.request = none) : reply a s = s := by
  rw [reply, h]

theorem Ends.reply {s : State U} {l : List (MessageInfo U)} {call : Call} (h : Ends s l call) :
    Ends (reply a s) l call := by
  rw [reply_of_none h.request]
  exact h

theorem expunged_eq {idx : FolderIndex U}
    (h : idx.messages = index.messages.map fun m => { m with deleted := selected index messages m }) :
    (updateFolderIndexInfo idx).messages =
      (others index messages).map fun m => { m with deleted := false } := by
  change idx.messages.filter (fun m => !m.deleted) = _
  rw [h, List.filter_map, others]
  apply List.map_congr_left
  intro m hm
  have hsel : selected index messages m = false := by
    simpa using (List.mem_filter.mp hm).2
  rw [hsel]

theorem mem_msgToDo_of_others {m : MessageInfo U} (hm : m ∈ others index messages) :
    m.uid ∈ msgToDo index messages ↔ m.deleted = true := by
  obtain ⟨hmem, hsel⟩ := List.mem_filter.mp hm
  rw [Bool.not_eq_true'] at hsel
  rw [mem_msgToDo hmem, hsel]
  cases m.deleted <;> decide

theorem restoreList_eq_nil {idx : FolderIndex U}
    (h : idx.messages = (others index messages).map fun m => { m with deleted := false }) :
    mkMessageList (msgToDo index messages) idx = [] ↔ ¬ Marked index messages := by
  rw [mkMessageList_eq_nil, h, List.forall_mem_map, Marked, not_exists]
  constructor
  · intro hnone m ⟨hm, hdel⟩
    exact hnone m hm ((mem_msgToDo_of_others hm).mpr hdel)
  · intro hnone m hm huid
    exact hnone m ⟨hm, (mem_msgToDo_of_others hm).mp huid⟩

theorem restored_eq {idx : FolderIndex U}
    (h : idx.messages = (others index messages).map fun m => { m with deleted := false }) :
    (updateFolderIndexFlags idx (mkMessageList (msgToDo index messages) idx) false true).messages =
      others index messages := by
  rw [updateFolderIndexFlags_eq, h, List.map_map]
  refine (List.map_congr_left ?_).trans (List.map_id _)
  intro m hm
  have hdel := mem_msgToDo_of_others hm
  obtain ⟨uid, deleted⟩ := m
  rw [Function.comp_apply, id_eq]
  by_cases huid : uid ∈ msgToDo index messages
  · obtain rfl : deleted = true := hdel.mp huid
    rw [if_pos huid]
    rfl
  · rw [if_neg huid]
    cases deleted with
    | false => rfl
    | true => exact absurd (hdel.mpr rfl) huid

def expunging (index : FolderIndex U) (messages : List Nat) (idx : FolderIndex U) : State U :=
  expunge ⟨msgToDo index messages, true, .expunge⟩ ⟨idx, none, none, []⟩

theorem ends_expunge_fails {idx : FolderIndex U} (ha : a.expunge = false) :
    Ends (reply a (expunging index messages idx)) idx.messages .fail := by
  simp only [expunging, expunge, reply, Answers.toStage, ha]
  exact ⟨rfl, rfl, rfl⟩

def restoring (index : FolderIndex U) (messages : List Nat) (idx : FolderIndex U) : State U :=
  restore ⟨msgToDo index messages, true, .restore⟩ ⟨idx, none, none, []⟩

theorem reply_expunging {idx : FolderIndex U} (ha : a.expunge = true) :
    reply a (expunging index messages idx) =
      restoring index messages (updateFolderIndexInfo idx) := by
  simp only [expunging, expunge, reply, Answers.toStage, ha, if_true, success, perform, restoring,
    restore, done]

theorem ends_nothing_restored {idx : FolderIndex U}
    (h : idx.messages = (others index messages).map fun m => { m with deleted := false })
    (hmarked : ¬ Marked index messages) :
    Ends (restoring index messages idx) (others index messages) .success := by
  have hnil := (restoreList_eq_nil h).mpr hmarked
  have hsame : idx.messages = others index messages := by
    rw [h]
    refine (List.map_congr_left ?_).trans (List.map_id _)
    intro m hm
    have hdel : m.deleted = false := Bool.not_eq_true _ |>.mp fun ht => hmarked ⟨m, hm, ht⟩
    rw [← hdel]
    rfl
  rw [restoring, restore]
  dsimp only
  rw [if_neg (not_not.mpr hnil)]
  exact ⟨rfl, hsame, rfl⟩

/-- The answer to the last request. -/
theorem ends_restored {idx : FolderIndex U}
    (h : idx.messages = (others index messages).map fun m => { m with deleted := false })
    (hmarked : Marked index messages) :
    Ends (reply a (restoring index messages idx))
      (if a.restore = true then others index messages else idx.messages)
      (if a.restore = true then .success else .fail) := by
  have hne : mkMessageList (msgToDo index messages) idx ≠ [] := by
    intro hnil
    exact (restoreList_eq_nil h).mp hnil hmarked
  rw [restoring, restore]
  dsimp only
  rw [if_pos hne]
  cases ha : a.restore with
  | false =>
      simp only [reply, Answers.toStage, ha]
      exact ⟨rfl, rfl, rfl⟩
  | true =>
      simp only [reply, Answers.toStage, ha]
      exact ⟨rfl, restored_eq h, rfl⟩

def undeleted (index : FolderIndex U) (messages : List Nat) : List (MessageInfo U) :=
  index.messages.map fun m => { m with deleted := selected index messages m }

/-- There is a flag to change first. -/
def Undeletes (index : FolderIndex U) (messages : List Nat) : Prop :=
  mkMessageList (msgToDo index messages) index ≠ []

theorem genericRemoveMessages_cases (a : Answers) (index : FolderIndex U) (messages : List Nat) :
    (Undeletes index messages ∧ a.undelete = false ∧
      Ends (reply a (genericRemoveMessages index messages)) index.messages .fail) ∨
    ∃ idx, idx.messages = undeleted index messages ∧
      ((¬ Undeletes index messages ∧
          genericRemoveMessages index messages = expunging index messages idx) ∨
        (a.undelete = true ∧
          reply a (genericRemoveMessages index messages) = expunging index messages idx)) := by
  rw [genericRemoveMessages]
  dsimp only
  by_cases hne : mkMessageList (msgToDo index messages) index ≠ []
  · rw [if_pos hne]
    cases ha : a.undelete with
    | false =>
        left
        simp only [reply, Answers.toStage, ha]
        exact ⟨hne, trivial, rfl, rfl, rfl⟩
    | true =>
        right
        refine ⟨_, undeleted_eq, Or.inr ⟨rfl, ?_⟩⟩
        simp only [reply, Answers.toStage, ha]
        rfl
  · right
    rw [if_neg hne]
    refine ⟨index, ?_, Or.inl ⟨hne, rfl⟩⟩
    have heq : (updateFolderIndexFlags index (mkMessageList (msgToDo index messages) index) true
        false).messages = undeleted index messages := undeleted_eq
    rw [not_not.mp hne] at heq
    exact heq

/-- What is left when the flags were as they had to be. -/
inductive Expunged (a : Answers) (index : FolderIndex U) (messages : List Nat) :
    List (MessageInfo U) → Call → Prop where
  | kept : a.expunge = false → Expunged a index messages (undeleted index messages) .fail
  | unrestored : a.expunge = true → Marked index messages → a.restore = false →
    Expunged a index messages ((others index messages).map fun m => { m with deleted := false })
      .fail
  | removed : a.expunge = true → (Marked index messages → a.restore = true) →
    Expunged a index messages (others index messages) .success

theorem expunged_of_expunging {idx : FolderIndex U} (h : idx.messages = undeleted index messages) :
    ∃ l call, Expunged a index messages l call ∧
      Ends (reply a (reply a (expunging index messages idx))) l call := by
  cases hexp : a.expunge with
  | false =>
      refine ⟨_, _, .kept hexp, ?_⟩
      rw [← h]
      exact (ends_expunge_fails hexp).reply
  | true =>
      have hidx := expunged_eq h
      rw [reply_expunging hexp]
      by_cases hmarked : Marked index messages
      · have hends := ends_restored (a := a) hidx hmarked
        cases hrestore : a.restore with
        | false =>
            rw [hrestore, hidx] at hends
            exact ⟨_, _, .unrestored hexp hmarked hrestore, hends⟩
        | true =>
            rw [hrestore] at hends
            exact ⟨_, _, .removed hexp fun _ => hrestore, hends⟩
      · exact ⟨_, _, .removed hexp fun hm => absurd hm hmarked,
          (ends_nothing_restored hidx hmarked).reply⟩

theorem removed_cases (a : Answers) (index : FolderIndex U) (messages : List Nat) :
    (Undeletes index messages ∧ a.undelete = false ∧
      Ends (removed a index messages) index.messages .fail) ∨
    ((Undeletes index messages → a.undelete = true) ∧ ∃ l call, Expunged a index messages l call ∧
      Ends (removed a index messages) l call) := by
  rcases genericRemoveMessages_cases a index messages with
    ⟨hne, hfail, hends⟩ | ⟨idx, hidx, hrun⟩
  · exact Or.inl ⟨hne, hfail, hends.reply.reply⟩
  · obtain ⟨l, call, hexpunged, hends⟩ := expunged_of_expunging (a := a) hidx
    right
    rcases hrun with ⟨hnone, hrun⟩ | ⟨hok, hrun⟩
    · refine ⟨fun hne => absurd hne hnone, l, call, hexpunged, ?_⟩
      rw [removed, hrun]
      exact hends.reply
    · refine ⟨fun _ => hok, l, call, hexpunged, ?_⟩
      rw [removed, hrun]
      exact hends

end Outcome

section Keeps
variable {U : Type} [DecidableEq U]

structure Keeps (index : FolderIndex U) (messages : List Nat) (s : State U) : Prop where
  finished : s.request = none
  once : s.calls.length = 1
  others : ∀ i m, index.messages[i]? = some m → i ∉ messages → m ∈ s.index.messages
  gone : s.calls = [.success] → ∀ i m, index.messages[i]? = some m → i ∈ messages →
    ∀ m' ∈ s.index.messages, m'.uid ≠ m.uid

variable {index : FolderIndex U} {messages : List Nat} {a : Answers} {i : Nat}
  {m : MessageInfo U}

theorem selected_iff (hi : index.messages[i]? = some m) :
    selected index messages m = true ↔ i ∈ messages := by
  rw [selected, decide_eq_true_iff, mem_moved_iff hi]

theorem mem_others_iff (hi : index.messages[i]? = some m) :
    m ∈ others index messages ↔ i ∉ messages := by
  rw [others, List.mem_filter, Bool.not_eq_true', ← selected_iff hi, Bool.not_eq_true]
  exact and_iff_right (List.mem_of_getElem? hi)

omit [DecidableEq U] in
theorem uid_inj {m' : MessageInfo U} (hm : m ∈ index.messages) (hm' : m' ∈ index.messages)
    (h : m.uid = m'.uid) : m = m' := by
  obtain ⟨i, hi⟩ := List.mem_iff_getElem?.mp hm
  obtain ⟨j, hj⟩ := List.mem_iff_getElem?.mp hm'
  rw [eq_of_uid hi hj h, hj] at hi
  exact (Option.some.inj hi).symm

/-- A message that stays and had the flag makes the first request necessary. -/
theorem undeletes_of_marked (h : Marked index messages) : Undeletes index messages := by
  obtain ⟨m, hm, hdel⟩ := h
  intro hnil
  exact mkMessageList_eq_nil.mp hnil m (List.mem_filter.mp hm).1
    ((mem_msgToDo_of_others hm).mpr hdel)

theorem keeps_of_ends {s : State U} {l : List (MessageInfo U)} {call : Call} (h : Ends s l call)
    (hothers : ∀ m ∈ others index messages, m ∈ l)
    (hgone : call = .success → ∀ m ∈ l, m ∈ others index messages) : Keeps index messages s := by
  constructor
  · exact h.request
  · rw [h.calls]
    rfl
  · intro i m hi hnot
    rw [h.messages]
    exact hothers m ((mem_others_iff hi).mpr hnot)
  · intro hcalls i m hi hsel m' hm' huid
    rw [h.calls] at hcalls
    rw [h.messages] at hm'
    have hother := hgone (List.cons.inj hcalls).1 m' hm'
    have hsame := uid_inj (List.mem_filter.mp hother).1 (List.mem_of_getElem? hi) huid
    rw [hsame] at hother
    exact (mem_others_iff hi).mp hother hsel

theorem mem_of_unmarked {l : List (MessageInfo U)} (h : ¬ Marked index messages)
    (hl : ∀ m ∈ others index messages, { m with deleted := false } ∈ l) :
    ∀ m ∈ others index messages, m ∈ l := by
  intro m hm
  have hdel : m.deleted = false := Bool.not_eq_true _ |>.mp fun ht => h ⟨m, hm, ht⟩
  have hmem := hl m hm
  rw [← hdel] at hmem
  exact hmem

theorem not_keeps_of_ends {s : State U} {l : List (MessageInfo U)} {call : Call}
    (h : Ends s l call) (hmarked : Marked index messages)
    (hl : ∀ m ∈ l, m ∈ index.messages → m.deleted = true → m ∉ others index messages) :
    ¬ Keeps index messages s := by
  intro hkeeps
  obtain ⟨m, hm, hdel⟩ := hmarked
  have hmem := (List.mem_filter.mp hm).1
  obtain ⟨i, hi⟩ := List.mem_iff_getElem?.mp hmem
  have hleft := hkeeps.others i m hi ((mem_others_iff hi).mp hm)
  rw [h.messages] at hleft
  exact hl m hleft hmem hdel hm

theorem keeps_iff_marked (a : Answers) (index : FolderIndex U) (messages : List Nat) :
    Keeps index messages (removed a index messages) ↔
      ¬ Marked index messages ∨ a.undelete = false ∨ (a.expunge = true ∧ a.restore = true) := by
  rcases removed_cases a index messages with ⟨-, hfail, hends⟩ | ⟨hundelete, l, call, hleft, hends⟩
  · have hkeeps : Keeps index messages (removed a index messages) :=
      keeps_of_ends hends (fun m hm => (List.mem_filter.mp hm).1) nofun
    exact iff_of_true hkeeps (Or.inr (Or.inl hfail))
  · by_cases hmarked : Marked index messages
    · have hok := hundelete (undeletes_of_marked hmarked)
      cases hleft with
      | kept hexp =>
          refine iff_of_false (not_keeps_of_ends hends hmarked ?_) (by simp [hmarked, hok, hexp])
          intro m hm hmem hdel hother
          obtain ⟨m', hm', heq⟩ := List.mem_map.mp hm
          obtain rfl := uid_inj hm' hmem (by rw [← heq])
          rw [← heq] at hdel
          have hsel := (List.mem_filter.mp hother).2
          rw [show selected index messages m' = true from hdel] at hsel
          cases hsel
      | unrestored hexp _ hrestore =>
          refine iff_of_false (not_keeps_of_ends hends hmarked ?_)
            (by simp [hmarked, hok, hrestore])
          intro m hm _ hdel _
          obtain ⟨m', -, rfl⟩ := List.mem_map.mp hm
          cases hdel
      | removed hexp hrestore =>
          exact iff_of_true (keeps_of_ends hends (fun _ hm => hm) fun _ _ hm => hm)
            (Or.inr (Or.inr ⟨hexp, hrestore hmarked⟩))
    · refine iff_of_true ?_ (Or.inl hmarked)
      cases hleft with
      | kept hexp =>
          refine keeps_of_ends hends (mem_of_unmarked hmarked ?_) nofun
          intro m hm
          obtain ⟨hmem, hsel⟩ := List.mem_filter.mp hm
          rw [Bool.not_eq_true'] at hsel
          refine List.mem_map.mpr ⟨m, hmem, ?_⟩
          rw [hsel]
      | unrestored _ hm _ => exact absurd hm hmarked
      | removed hexp hrestore =>
          exact keeps_of_ends hends (fun _ hm => hm) fun _ _ hm => hm

theorem marked_iff : Marked index messages ↔
    ∃ i m, index.messages[i]? = some m ∧ i ∉ messages ∧ m.deleted = true := by
  constructor
  · rintro ⟨m, hm, hdel⟩
    obtain ⟨i, hi⟩ := List.mem_iff_getElem?.mp (List.mem_filter.mp hm).1
    exact ⟨i, m, hi, (mem_others_iff hi).mp hm, hdel⟩
  · rintro ⟨i, m, hi, hnot, hdel⟩
    exact ⟨m, (mem_others_iff hi).mpr hnot, hdel⟩

end Keeps

section Moves
variable {U : Type} [DecidableEq U]

structure Moves (index : FolderIndex U) (messages : List Nat) (copied : Option (FolderIndex U)) :
    Prop where
  after_copy : ∀ before l after,
    genericMoveMessages index messages copied = before ++ .removeMessages l :: after →
      .copied ∈ before
  exact : ∀ l, .removeMessages l ∈ genericMoveMessages index messages copied →
    ∃ index', copied = some index' ∧ ∀ j, j ∈ l ↔ ∃ m', index'.messages[j]? = some m' ∧
      ∃ i ∈ messages, ∃ m, index.messages[i]? = some m ∧ m'.uid = m.uid
  removes : ∀ index' i m, copied = some index' → i ∈ messages → index.messages[i]? = some m →
    ∃ l, .removeMessages l ∈ genericMoveMessages index messages copied

omit [DecidableEq U] in
theorem mem_moved {index : FolderIndex U} {messages : List Nat} {uid : U} :
    uid ∈ moved index messages ↔ ∃ i ∈ messages, ∃ m, index.messages[i]? = some m ∧ uid = m.uid := by
  rw [moved, List.mem_filterMap]
  constructor
  · rintro ⟨i, hi, huid⟩
    obtain ⟨m, hm, heq⟩ := Option.map_eq_some_iff.mp huid
    exact ⟨i, hi, m, hm, heq.symm⟩
  · rintro ⟨i, hi, m, hm, rfl⟩
    refine ⟨i, hi, ?_⟩
    rw [hm]
    rfl

theorem moves (index : FolderIndex U) (messages : List Nat) (copied : Option (FolderIndex U)) :
    Moves index messages copied := by
  cases copied with
  | none =>
      refine ⟨?_, ?_, nofun⟩
      · intro before l after h
        have hmem : MoveEvent.removeMessages l ∈ genericMoveMessages index messages none := by
          rw [h]
          simp
        simp [genericMoveMessages] at hmem
      · intro l hl
        simp [genericMoveMessages] at hl
  | some index' =>
      refine ⟨?_, ?_, ?_⟩
      · intro before l after h
        rw [genericMoveMessages] at h
        rcases before with _ | ⟨e, _ | ⟨e', before⟩⟩
        · cases h
        · cases h
        · rw [List.cons_append, List.cons_append] at h
          obtain ⟨-, h⟩ := List.cons.inj h
          obtain ⟨rfl, -⟩ := List.cons.inj h
          simp
      · intro l hl
        refine ⟨index', rfl, ?_⟩
        intro j
        simp only [genericMoveMessages, moveSuccess, List.mem_cons, List.not_mem_nil, or_false,
          reduceCtorEq, false_or] at hl
        split_ifs at hl with hne
        cases hl
        rw [mem_mkMessageList]
        simp only [mem_moved]
      · intro index'' i m heq hi hm
        cases heq
        have hmem : m.uid ∈ moved index messages := mem_moved.mpr ⟨i, hi, m, hm, rfl⟩
        have hne : moved index messages ≠ [] := List.ne_nil_of_mem hmem
        refine ⟨mkMessageList (moved index messages) index', ?_⟩
        simp [genericMoveMessages, moveSuccess, hne]

/-- The messages that are not removed keep their place and their flag exactly when none of them was
deleted, or taking that flag away failed, or both the later requests succeeded. -/
theorem genericRemoveMessages_keeps_iff (a : Answers) (index : FolderIndex U)
    (messages : List Nat) (copied : Option (FolderIndex U)) :
    (Keeps index messages (removed a index messages) ↔
      (¬ ∃ i m, index.messages[i]? = some m ∧ i ∉ messages ∧ m.deleted = true) ∨
        a.undelete = false ∨ (a.expunge = true ∧ a.restore = true)) ∧
      Moves index messages copied := by
  apply And.intro _ (moves index messages copied)
  rw [← marked_iff]
  exact keeps_iff_marked a index messages

/-- A message with the deleted flag loses it when the folder is not expunged. -/
theorem not_keeps_unexpunged : ¬ ∀ (a : Answers) (index : FolderIndex Nat) (messages : List Nat),
    Keeps index messages (removed a index messages) := by
  intro h
  have hkeeps := h ⟨true, false, true⟩ ⟨[⟨1, true⟩, ⟨2, false⟩], by decide⟩ [1]
  have hmem := hkeeps.others 0 ⟨1, true⟩ rfl (by decide)
  exact absurd hmem (by decide)

end Moves
end Cone.GenericRemove
