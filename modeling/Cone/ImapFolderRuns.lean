import Cone.ImapFolder
import Cone.Lib.Invariants

/-! # The application's list of uids

The index that is announced is inside the index, every message of it has a uid, and the application
has the same ones: in a state where this holds, it holds after a step exactly when the step spares
it. -/
set_option autoImplicit false
namespace Cone.ImapFolder

open Cone.Ctype Cone.Lib.Invariants
open Cone.ImapBodystructure (Text upper)

section Spares
variable {K : Type}

structure Consistent (s : State K) : Prop where
  inside : getFolderIndexSize s ≤ s.index.length
  uids : ∀ n i, n < getFolderIndexSize s → s.index[n]? = some i → i.uid ≠ []
  application : s.application = (s.index.take (getFolderIndexSize s)).map IndexInfo.uid

/-- The end of a task reaches the application. -/
def Notifies (s : State K) : Callback → Prop
  | .imapSELECTCallback => True
  | .existsCallback number => s.existsNotify = some number

/-- A task that succeeds announces no more than the index has and tells the application of what it
announces, and the server keeps to the uids of the messages announced. -/
def Spares (s : State K) : Event → Prop
  | .fetch_uid count text => 0 < count → count ≤ s.exists →
      ∀ i, s.index[count - 1]? = some i → i.uid = s.uidv ++ str "/" ++ text
  | .tagged true => ∀ sync, s.currentSYNCHRONIZE = some sync →
      (∀ i ∈ s.index.drop s.exists, i.uid ≠ []) → s.exists < sync.newExists →
      sync.newExists ≤ s.index.length ∧ Notifies s sync.callback
  | _ => True

end Spares

section Steps
variable {K : Type} {noKeywords : K} {addFlag : K → Text → K} {s s' : State K}

theorem newMessages_application {m : Nat} (hm : m ≤ s.exists) (hin : s.exists ≤ s.index.length)
    (h : s.application = (s.index.take m).map IndexInfo.uid) :
    (newMessages noKeywords s).application = (s.index.take s.exists).map IndexInfo.uid := by
  have hall : ((List.range s.exists).map fun n =>
      ((getFolderIndexInfo noKeywords s n).map IndexInfo.uid).getD []) =
        (s.index.take s.exists).map IndexInfo.uid := by
    apply List.ext_getElem
    · rw [List.length_map, List.length_range, List.length_map, List.length_take]
      omega
    · intro n h₁ h₂
      rw [List.length_map, List.length_range] at h₁
      rw [List.getElem_map, List.getElem_range, List.getElem_map, List.getElem_take,
        getFolderIndexInfo, if_pos h₁, List.getElem?_eq_getElem (by omega)]
      rfl
  have hlen : s.application.length = m := by
    rw [h, List.length_map, List.length_take]
    omega
  have hfirst : s.application = ((s.index.take s.exists).map IndexInfo.uid).take m := by
    rw [h, ← List.map_take, List.take_take, Nat.min_eq_left hm]
  rw [newMessages]
  dsimp only
  rw [List.map_drop, getFolderIndexSize, hall, hlen, hfirst, List.take_append_drop]

theorem called_index (c : Callback) : (called noKeywords c s).index = s.index := by
  cases c with
  | imapSELECTCallback => rfl
  | existsCallback number =>
      rw [called]
      split
      · rfl
      · rfl

theorem called_exists (c : Callback) : (called noKeywords c s).exists = s.exists := by
  cases c with
  | imapSELECTCallback => rfl
  | existsCallback number =>
      rw [called]
      split
      · rfl
      · rfl

variable (noKeywords) in
theorem called_application (c : Callback) {m : Nat} (hm : m ≤ s.exists)
    (hin : s.exists ≤ s.index.length)
    (h : s.application = (s.index.take m).map IndexInfo.uid) :
    (called noKeywords c s).application =
        (s.index.take s.exists).map IndexInfo.uid ∧ Notifies s c ∨
      (called noKeywords c s).application = s.application ∧ ¬ Notifies s c := by
  cases c with
  | imapSELECTCallback => exact Or.inl ⟨newMessages_application hm hin h, trivial⟩
  | existsCallback number =>
      rw [called]
      by_cases hn : s.existsNotify = some number
      · rw [if_pos hn]
        exact Or.inl ⟨newMessages_application (s := { s with existsNotify := none }) hm hin h, hn⟩
      · rw [if_neg hn]
        exact Or.inr ⟨rfl, hn⟩

theorem consistent_called (c : Callback) (h : Consistent s) : Consistent (called noKeywords c s) := by
  constructor
  · rw [getFolderIndexSize, called_exists, called_index]
    exact h.inside
  · rw [getFolderIndexSize, called_exists, called_index]
    exact h.uids
  · rw [getFolderIndexSize, called_exists, called_index]
    obtain ⟨happ, _⟩ | ⟨happ, _⟩ := called_application noKeywords c (Nat.le_refl _) h.inside h.application
    · exact happ
    · rw [happ]
      exact h.application

/-- The uids of the announced messages say everything. -/
theorem Consistent.of_same (h : Consistent s) (hin : s'.exists ≤ s'.index.length)
    (hexists : s'.exists = s.exists)
    (hindex : (s'.index.take s'.exists).map IndexInfo.uid =
      (s.index.take s.exists).map IndexInfo.uid)
    (happ : s'.application = s.application) : Consistent s' := by
  constructor
  · exact hin
  · intro n i hn hi
    have hn' : n < s'.exists := hn
    have hget : ((s'.index.take s'.exists).map IndexInfo.uid)[n]? = some i.uid := by
      rw [List.getElem?_map, List.getElem?_take_of_lt hn', hi]
      rfl
    rw [hindex, List.getElem?_map, List.getElem?_take_of_lt (hexists ▸ hn')] at hget
    obtain ⟨j, hj, hij⟩ := Option.map_eq_some_iff.mp hget
    rw [← hij]
    rw [hexists] at hn'
    exact h.uids n j hn' hj
  · rw [happ, getFolderIndexSize, hindex]
    exact h.application

theorem consistent_EXISTS (h : Consistent s) (count : Nat) :
    Consistent (get_count_EXISTS noKeywords count s) := by
  have hin := h.inside
  rw [getFolderIndexSize] at hin
  rw [get_count_EXISTS]
  split
  · rename_i hmore
    rw [Bool.and_eq_true, decide_eq_true_eq] at hmore
    rw [existsMore]
    split
    · exact h
    · have hsame : (if s.exists > count then count else s.exists) = s.exists := if_neg (by omega)
      rw [hsame]
      apply h.of_same
      · dsimp only
        rw [List.length_append, List.length_take, List.length_replicate]
        omega
      · rfl
      · dsimp only
        rw [List.take_of_length_le (l := s.index) (by omega), List.take_append_of_le_length hin]
      · rfl
  · exact h

theorem consistent_EXPUNGE (h : Consistent s) (count : Nat) :
    Consistent (get_count_EXPUNGE count s) := by
  have hin := h.inside
  rw [getFolderIndexSize] at hin
  rw [get_count_EXPUNGE]
  by_cases hc : count > 0 ∧ count ≤ s.index.length
  · rw [if_pos hc]
    dsimp only
    by_cases hlt : count - 1 < s.exists
    · have htake : (s.index.eraseIdx (count - 1)).take (s.exists - 1) =
          (s.index.take s.exists).eraseIdx (count - 1) := by
        apply List.ext_getElem?
        intro k
        rw [List.getElem?_take, List.getElem?_eraseIdx, List.getElem?_eraseIdx, List.getElem?_take,
          List.getElem?_take]
        grind
      rw [if_pos hlt]
      constructor
      · rw [getFolderIndexSize, messagesRemoved]
        dsimp only
        rw [List.length_eraseIdx_of_lt (by omega)]
        omega
      · intro n i hn hi
        rw [getFolderIndexSize, messagesRemoved] at hn
        rw [messagesRemoved] at hi
        dsimp only at hn hi
        rw [List.getElem?_eraseIdx] at hi
        split at hi
        · exact h.uids n i (by rw [getFolderIndexSize]; omega) hi
        · exact h.uids (n + 1) i (by rw [getFolderIndexSize]; omega) hi
      · rw [getFolderIndexSize, messagesRemoved]
        dsimp only
        rw [htake, h.application, getFolderIndexSize, List.eraseIdx_map]
    · rw [if_neg hlt]
      apply h.of_same
      · dsimp only
        rw [List.length_eraseIdx_of_lt (by omega)]
        omega
      · rfl
      · dsimp only
        congr 1
        apply List.ext_getElem?
        intro k
        rw [List.getElem?_take, List.getElem?_take, List.getElem?_eraseIdx]
        grind
      · rfl
  · rw [if_neg hc]
    exact h

theorem map_uid_take_modify (index : List (IndexInfo K)) {f : IndexInfo K → IndexInfo K} {c m : Nat}
    (hf : c < m → ∀ i, index[c]? = some i → (f i).uid = i.uid) :
    ((index.modify c f).take m).map IndexInfo.uid = (index.take m).map IndexInfo.uid := by
  apply List.ext_getElem?
  intro k
  rw [List.getElem?_map, List.getElem?_map, List.getElem?_take, List.getElem?_take]
  by_cases hk : k < m
  · rw [if_pos hk, if_pos hk, List.getElem?_modify]
    cases hi : index[k]? with
    | none => rfl
    | some i =>
        change some (if c = k then f i else i).uid = some i.uid
        by_cases hck : c = k
        · rw [if_pos hck, hf (by omega) i (by rw [hck]; exact hi)]
        · rw [if_neg hck]
  · rw [if_neg hk, if_neg hk]

theorem saveflag_uid (i : IndexInfo K) (flag : Text) : (saveflag addFlag i flag).uid = i.uid := by
  unfold saveflag
  grind

theorem saveflags_uid (flags : List Text) (i : IndexInfo K) :
    (flags.foldl (saveflag addFlag) i).uid = i.uid := by
  induction flags generalizing i with
  | nil => rfl
  | cons flag flags ih =>
      rw [List.foldl_cons, ih, saveflag_uid]

theorem consistent_FLAGS (h : Consistent s) (count : Nat) (flags : List Text) :
    Consistent (saveflags noKeywords addFlag count flags s) := by
  rw [saveflags]
  split
  · apply h.of_same
    · dsimp only
      rw [List.length_modify]
      exact h.inside
    · rfl
    · apply map_uid_take_modify
      intro _ i _
      rw [saveflags_uid]
      rfl
    · rfl
  · exact h

theorem consistent_UID_iff (h : Consistent s) (count : Nat) (text : Text) :
    Consistent (get_fetch_uid count text s) ↔ Spares s (.fetch_uid count text) := by
  have hin := h.inside
  rw [getFolderIndexSize] at hin
  rw [get_fetch_uid, setUid]
  by_cases hc : count > 0
  · rw [if_pos hc]
    by_cases hlt : count - 1 < s.index.length
    · rw [if_pos hlt]
      constructor
      · intro hafter _ hle i hi
        have heq := hafter.application
        rw [getFolderIndexSize] at heq
        rw [h.application, getFolderIndexSize] at heq
        have hget := congrArg (fun l : List Text => l[count - 1]?) heq
        dsimp only at hget
        rw [List.getElem?_map, List.getElem?_map, List.getElem?_take_of_lt (by omega),
          List.getElem?_take_of_lt (by omega), List.getElem?_modify_eq, hi] at hget
        exact Option.some.inj hget
      · intro hsame
        apply h.of_same
        · dsimp only
          rw [List.length_modify]
          exact hin
        · rfl
        · apply map_uid_take_modify
          intro hlt' i hi
          have hlt'' : count - 1 < s.exists := hlt'
          exact (hsame hc (by omega) i hi).symm
        · rfl
    · rw [if_neg hlt]
      apply iff_of_true h
      intro _ hle
      omega
  · rw [if_neg hc]
    apply iff_of_true h
    intro hpos
    omega

theorem consistent_tagged_iff (h : Consistent s) {sync : Synchronize}
    (hsync : s.currentSYNCHRONIZE = some sync) (okfail : Bool) :
    Consistent (taggedMessage noKeywords sync okfail s) ↔ Spares s (.tagged okfail) := by
  have hin := h.inside
  rw [getFolderIndexSize] at hin
  have hsame : Consistent { s with currentSYNCHRONIZE := none } :=
    ⟨h.inside, h.uids, h.application⟩
  rw [taggedMessage]
  dsimp only
  cases okfail with
  | false => exact iff_of_true (consistent_called _ hsame) trivial
  | true =>
      rw [Bool.not_true, if_neg Bool.false_ne_true]
      by_cases hno : ((s.index.drop s.exists).any fun i => decide (i.uid.length = 0)) = true
      · -- a message without a uid: the task fails
        rw [if_pos hno]
        apply iff_of_true (consistent_called _ hsame)
        intro sync' _ huids
        obtain ⟨i, hi, hempty⟩ := List.any_eq_true.mp hno
        exact absurd (List.eq_nil_of_length_eq_zero (of_decide_eq_true hempty)) (huids i hi)
      · have huids : ∀ i ∈ s.index.drop s.exists, i.uid ≠ [] := by
          intro i hi hempty
          exact hno (List.any_eq_true.mpr ⟨i, hi, by rw [hempty]; rfl⟩)
        rw [if_neg hno]
        by_cases hless : s.exists < sync.newExists
        · rw [if_pos hless]
          constructor
          · intro hafter sync' hsync' _ _
            rw [hsync, Option.some.injEq] at hsync'
            rw [← hsync']
            have hin' := hafter.inside
            rw [getFolderIndexSize, called_exists, called_index] at hin'
            apply And.intro hin'
            by_contra hnot
            obtain ⟨_, hyes⟩ | ⟨happ, _⟩ := called_application noKeywords
              (s := { s with currentSYNCHRONIZE := none, «exists» := sync.newExists })
              sync.callback (Nat.le_of_lt hless) hin' h.application
            · cases hc : sync.callback with
              | imapSELECTCallback => rw [hc] at hnot; exact hnot trivial
              | existsCallback number => rw [hc] at hnot hyes; exact hnot hyes
            · have heq := congrArg List.length (happ.symm.trans hafter.application)
              dsimp only at heq
              rw [h.application, getFolderIndexSize, getFolderIndexSize, called_exists,
                called_index, List.length_map, List.length_map, List.length_take,
                List.length_take] at heq
              dsimp only at heq hin'
              omega
          · intro hsp
            obtain ⟨hle, hyes⟩ := hsp sync hsync huids hless
            constructor
            · rw [getFolderIndexSize, called_exists, called_index]
              exact hle
            · rw [getFolderIndexSize, called_exists, called_index]
              intro n i hn hi
              by_cases hn' : n < s.exists
              · exact h.uids n i hn' hi
              · apply huids i
                rw [List.mem_iff_getElem?]
                apply Exists.intro (n - s.exists)
                rw [List.getElem?_drop, Nat.add_sub_cancel' (by omega)]
                exact hi
            · rw [getFolderIndexSize, called_exists, called_index]
              obtain ⟨happ, _⟩ | ⟨_, hnot⟩ := called_application noKeywords
                (s := { s with currentSYNCHRONIZE := none, «exists» := sync.newExists })
                sync.callback (Nat.le_of_lt hless) hle h.application
              · exact happ
              · apply absurd hyes
                cases hc : sync.callback with
                | imapSELECTCallback => rw [hc] at hnot; exact hnot
                | existsCallback number => rw [hc] at hnot; exact hnot
        · rw [if_neg hless]
          apply iff_of_true (consistent_called _ hsame)
          intro sync' hsync' _ hless'
          rw [hsync, Option.some.injEq] at hsync'
          rw [← hsync'] at hless'
          exact absurd hless' hless

end Steps

section Runs
variable {K : Type} (noKeywords : K) (addFlag : K → Text → K)

theorem consistent_selected (uidv : Text) (folderFlags : List Text) (count : Nat) :
    Consistent (selected noKeywords uidv folderFlags count) := by
  constructor
  · exact Nat.zero_le _
  · intro n i hn
    exact absurd hn (Nat.not_lt_zero n)
  · rfl

variable {noKeywords addFlag}

theorem eq_installed {s s' : State K} (hstep : step noKeywords addFlag s .installed = some s') :
    ∃ callback task_queue, s' = installed callback { s with task_queue := task_queue } := by
  unfold step at hstep
  dsimp only at hstep
  split at hstep
  · rename_i callback task_queue _ _
    cases hstep
    exact ⟨callback, task_queue, rfl⟩
  · cases hstep

theorem consistent_step_iff {s s' : State K} {e : Event} (h : Consistent s)
    (hstep : step noKeywords addFlag s e = some s') : Consistent s' ↔ Spares s e := by
  cases e with
  | exists_ count =>
      cases hstep
      exact iff_of_true (consistent_EXISTS h count) trivial
  | expunge count =>
      cases hstep
      exact iff_of_true (consistent_EXPUNGE h count) trivial
  | fetch_uid count text =>
      cases hstep
      exact consistent_UID_iff h count text
  | fetch_flags count flags =>
      cases hstep
      exact iff_of_true (consistent_FLAGS h count flags) trivial
  | closing =>
      cases hstep
      exact iff_of_true ⟨h.inside, h.uids, h.application⟩ trivial
  | installed =>
      obtain ⟨callback, task_queue, rfl⟩ := eq_installed hstep
      apply iff_of_true _ trivial
      have hin := h.inside
      rw [getFolderIndexSize] at hin
      have hexists : (if s.exists ≥ s.index.length then s.index.length else s.exists) =
          s.exists := by
        split
        · omega
        · rfl
      apply h.of_same
      · rw [installed]
        dsimp only
        rw [hexists]
        exact hin
      · exact hexists
      · rw [installed]
        dsimp only
        rw [hexists]
      · rfl
  | tagged okfail =>
      obtain ⟨sync, hsync, rfl⟩ := Option.map_eq_some_iff.mp hstep
      exact consistent_tagged_iff h hsync okfail

theorem spares_of_refused {s : State K} {e : Event} (hstep : step noKeywords addFlag s e = none) :
    Spares s e := by
  cases e with
  | exists_ | expunge | fetch_uid | fetch_flags | closing => cases hstep
  | installed => trivial
  | tagged okfail =>
      cases okfail with
      | false => trivial
      | true =>
          intro sync hsync
          unfold step at hstep
          rw [hsync] at hstep
          cases hstep

variable (noKeywords addFlag)

/-- From the SELECT on, the application agrees with the index in every state of a run exactly when
every step spares it. -/
theorem agrees_iff_spared (uidv : Text) (folderFlags : List Text) (count : Nat)
    (es : List Event) :
    Always (step noKeywords addFlag) Consistent (selected noKeywords uidv folderFlags count) es ↔
      EachStep (step noKeywords addFlag) Spares (selected noKeywords uidv folderFlags count) es :=
  always_iff_eachStep (fun _ _ _ h hstep => consistent_step_iff h hstep)
    (fun _ _ _ hstep => spares_of_refused hstep) (consistent_selected noKeywords uidv folderFlags count)

def run (s : State K) (es : List Event) : Option (State K) :=
  es.foldlM (step noKeywords addFlag) s

/-- Two messages are open; a third one comes and goes before the task for it begins, which then
only waits for a NOOP, and the first message is expunged meanwhile. -/
theorem announced_past_index :
    (run () (fun _ _ => ()) (selected () (str "1") [] 2)
      [.installed, .fetch_uid 1 (str "11"), .fetch_uid 2 (str "12"), .tagged true, .exists_ 3,
        .expunge 3, .installed, .expunge 1, .tagged true]).map
      (fun s => (getFolderIndexSize s, s.index.length, getFolderIndexInfo () s 1)) =
      some (2, 1, none) := by
  decide

end Runs
end Cone.ImapFolder
