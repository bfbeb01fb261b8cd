import Mathlib.Data.List.Nodup

/-! # Removing and moving messages

`genericRemoveMessages` and `genericMoveMessages` of libmail/generic.C, for accounts that mark
messages as deleted and expunge them.  The account stays open and memory does not run out. -/
set_option autoImplicit false
namespace Cone.GenericRemove

structure MessageInfo (U : Type) where
  uid : U
  deleted : Bool
  deriving DecidableEq, Repr

structure FolderIndex (U : Type) where
  messages : List (MessageInfo U)
  distinct : (messages.map (·.uid)).Nodup

section Account
variable {U : Type}

/-- The flag of one message, where `flags.deleted` is what `updateFolderIndexFlags` is to change. -/
def setDeleted (doFlip enableDisable : Bool) (m : MessageInfo U) : MessageInfo U :=
  { m with deleted := if doFlip then !m.deleted else enableDisable }

def flagged (messages : List Nat) (doFlip enableDisable : Bool) (index : List (MessageInfo U)) :
    List (MessageInfo U) :=
  messages.foldl (fun l i => l.modify i (setDeleted doFlip enableDisable)) index

theorem map_uid_flagged (messages : List Nat) (doFlip enableDisable : Bool)
    (index : List (MessageInfo U)) :
    (flagged messages doFlip enableDisable index).map (·.uid) = index.map (·.uid) := by
  induction messages generalizing index with
  | nil => rfl
  | cons i messages ih =>
      rw [flagged, List.foldl_cons]
      apply (ih _).trans
      apply List.ext_getElem?
      intro j
      rw [List.getElem?_map, List.getElem?_map, List.getElem?_modify]
      cases index[j]? with
      | none => rfl
      | some m =>
          by_cases h : i = j
          · simp [h, setDeleted]
          · simp [h]

def updateFolderIndexFlags (index : FolderIndex U) (messages : List Nat)
    (doFlip enableDisable : Bool) : FolderIndex U where
  messages := flagged messages doFlip enableDisable index.messages
  distinct := by
    rw [map_uid_flagged]
    exact index.distinct

def updateFolderIndexInfo (index : FolderIndex U) : FolderIndex U where
  messages := index.messages.filter fun m => !m.deleted
  distinct := index.distinct.sublist (List.filter_sublist.map _)

end Account

section Remove
variable {U : Type} [DecidableEq U]

/-- `success_func`. -/
inductive Stage where
  | expunge
  | restore
  | done
  deriving DecidableEq, Repr

/-- `callback`: the pointer is not `NULL`. -/
structure Remove (U : Type) where
  msgs : List U
  callback : Bool
  success_func : Stage

inductive Request where
  | updateFolderIndexFlags (messages : List Nat) (doFlip enableDisable : Bool)
  | updateFolderIndexInfo
  deriving DecidableEq, Repr

inductive Call where
  | success
  | fail
  deriving DecidableEq, Repr

structure State (U : Type) where
  index : FolderIndex U
  remove : Option (Remove U)
  request : Option Request
  calls : List Call

def mkMessageList (msgs : List U) (index : FolderIndex U) : List Nat :=
  (List.range index.messages.length).filter fun i =>
    (index.messages[i]?).any fun m => decide (m.uid ∈ msgs)

def done (r : Remove U) (s : State U) : State U :=
  { s with
    remove := none
    calls := if r.callback then s.calls ++ [.success] else s.calls }

def restore (r : Remove U) (s : State U) : State U :=
  let r := { r with success_func := .done }
  let flipDeleted := mkMessageList r.msgs s.index
  if flipDeleted ≠ [] then
    { s with
      remove := some r
      request := some (.updateFolderIndexFlags flipDeleted false true) }
  else done r s

def expunge (r : Remove U) (s : State U) : State U :=
  { s with
    remove := some { r with success_func := .restore }
    request := some .updateFolderIndexInfo }

def success (r : Remove U) (s : State U) : State U :=
  match r.success_func with
  | .expunge => expunge r s
  | .restore => restore r s
  | .done => done r s

/-- The object is left behind. -/
def fail (r : Remove U) (s : State U) : State U :=
  { s with
    remove := some { r with callback := false }
    calls := if r.callback then s.calls ++ [.fail] else s.calls }

def perform (index : FolderIndex U) : Request → FolderIndex U
  | .updateFolderIndexFlags messages doFlip enableDisable =>
    updateFolderIndexFlags index messages doFlip enableDisable
  | .updateFolderIndexInfo => updateFolderIndexInfo index

def msgToDo (index : FolderIndex U) (messages : List Nat) : List U :=
  (List.range index.messages.length).filterMap fun i =>
    (index.messages[i]?).bind fun m =>
      if decide (i ∈ messages) ≠ m.deleted then some m.uid else none

def genericRemoveMessages (index : FolderIndex U) (messages : List Nat) : State U :=
  let r : Remove U := ⟨msgToDo index messages, true, .expunge⟩
  let flipDeleted := mkMessageList r.msgs index
  let s : State U := ⟨index, some r, none, []⟩
  if flipDeleted ≠ [] then
    { s with request := some (.updateFolderIndexFlags flipDeleted true false) }
  else success r s

/-- Which of the three requests succeed; one that fails does nothing. -/
structure Answers where
  undelete : Bool
  expunge : Bool
  restore : Bool
  deriving DecidableEq, Repr

def Answers.toStage (a : Answers) : Stage → Bool
  | .expunge => a.undelete
  | .restore => a.expunge
  | .done => a.restore

def reply (a : Answers) (s : State U) : State U :=
  match s.request, s.remove with
  | some q, some r =>
    if a.toStage r.success_func then
      success r { s with index := perform s.index q, request := none }
    else fail r { s with request := none }
  | _, _ => s

/-- There are three requests at most. -/
def removed (a : Answers) (index : FolderIndex U) (messages : List Nat) : State U :=
  reply a (reply a (reply a (genericRemoveMessages index messages)))

end Remove

section Move
variable {U : Type} [DecidableEq U]

inductive MoveEvent where
  | copyMessagesTo (messages : List Nat)
  | copied
  | copyFailed
  | removeMessages (messages : List Nat)
  | callback (call : Call)
  deriving DecidableEq, Repr

def moved (index : FolderIndex U) (messages : List Nat) : List U :=
  messages.filterMap fun i => (index.messages[i]?).map (·.uid)

def moveSuccess (msgs : List U) (index : FolderIndex U) : MoveEvent :=
  if msgs ≠ [] then .removeMessages (mkMessageList msgs index) else .callback .success

/-- What `genericMoveMessages` asks for and gets, in order; `copied` is the folder when the copy
succeeds, and nothing when it fails.  `removeMessages` gets the caller's callback. -/
def genericMoveMessages (index : FolderIndex U) (messages : List Nat)
    (copied : Option (FolderIndex U)) : List MoveEvent :=
  let msgs := moved index messages
  .copyMessagesTo messages :: match copied with
    | some index => [.copied, moveSuccess msgs index]
    | none => [.copyFailed, .callback .fail]

end Move
end Cone.GenericRemove
