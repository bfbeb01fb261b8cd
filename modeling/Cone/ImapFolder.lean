import Cone.ImapBodystructure

/-! # The index of an open IMAP folder

`imapFOLDER`, `imapSYNCHRONIZE` and the EXISTS, EXPUNGE, UID and FLAGS parts of `imapFOLDER_COUNT`,
of libmail/imapfolder.C, together with the application's own list of uids.  The foreground tasks
that are not an `imapSYNCHRONIZE` only delay the next installation, and the progress reports are
left out. -/
set_option autoImplicit false
namespace Cone.ImapFolder

open Cone.Ctype
open Cone.ImapBodystructure (Text upper)

/-- `imapFOLDERinfo::indexInfo`; `K` is the type of the keyword sets. -/
structure IndexInfo (K : Type) where
  uid : Text
  draft : Bool
  replied : Bool
  marked : Bool
  deleted : Bool
  unread : Bool
  recent : Bool
  keywords : K
  deriving DecidableEq, Repr

/-- Whom an `imapSYNCHRONIZE` tells about its end: the caller that opened the folder, or one of the
`existsCallback`s, in the order of their creation. -/
inductive Callback where
  | imapSELECTCallback
  | existsCallback (number : Nat)
  deriving DecidableEq, Repr

structure Synchronize where
  callback : Callback
  newExists : Nat
  deriving DecidableEq, Repr

/-- The open folder, the account's tasks, and the uids that the application has.  `existsNotify` is
the number of the one `existsCallback` whose `me` is set. -/
structure State (K : Type) where
  uidv : Text
  folderFlags : List Text
  index : List (IndexInfo K)
  «exists» : Nat
  existsNotify : Option Nat
  created : Nat
  closeInProgress : Bool
  currentSYNCHRONIZE : Option Synchronize
  task_queue : List Callback
  application : List Text
  deriving DecidableEq, Repr

section Folder
variable {K : Type} (noKeywords : K) (addFlag : K → Text → K)

def indexInfo : IndexInfo K := ⟨[], false, false, false, false, false, false, noKeywords⟩

def getFolderIndexSize (s : State K) : Nat := s.exists

def getFolderIndexInfo (s : State K) (n : Nat) : Option (IndexInfo K) :=
  if n < s.exists then s.index[n]? else some (indexInfo noKeywords)

/-! ## The application -/

/-- `callback::folder::messagesRemoved` with one position. -/
def messagesRemoved (c : Nat) (s : State K) : State K :=
  { s with application := s.application.eraseIdx c }

def newMessages (s : State K) : State K :=
  { s with
    application := s.application ++
      ((List.range (getFolderIndexSize s)).drop s.application.length).map fun n =>
        ((getFolderIndexInfo noKeywords s n).map IndexInfo.uid).getD [] }

/-! ## The tasks -/

/-- `success` and `fail` of either callback. -/
def called (callback : Callback) (s : State K) : State K :=
  match callback with
  | .imapSELECTCallback => newMessages noKeywords s
  | .existsCallback number =>
    if s.existsNotify = some number then newMessages noKeywords { s with existsNotify := none }
    else s

def installed (callback : Callback) (s : State K) : State K :=
  let newExists := s.index.length
  { s with
    «exists» := if s.exists ≥ newExists then newExists else s.exists
    currentSYNCHRONIZE := some ⟨callback, newExists⟩ }

def taggedMessage (sync : Synchronize) (okfail : Bool) (s : State K) : State K :=
  let s := { s with currentSYNCHRONIZE := none }
  if !okfail then called noKeywords sync.callback s
  else if (s.index.drop s.exists).any fun i => decide (i.uid.length = 0) then
    called noKeywords sync.callback s
  else
    called noKeywords sync.callback
      { s with «exists» := if s.exists < sync.newExists then sync.newExists else s.exists }

/-! ## The responses -/

def existsMore (count : Nat) (s : State K) : State K :=
  if s.closeInProgress then s
  else
    { s with
      «exists» := if s.exists > count then count else s.exists
      index := s.index.take count ++
        List.replicate (count - s.index.length) (indexInfo noKeywords)
      existsNotify := some s.created
      created := s.created + 1
      task_queue := s.task_queue ++ [.existsCallback s.created] }

def get_count_EXISTS (count : Nat) (s : State K) : State K :=
  if !s.closeInProgress && decide (count > s.index.length) then existsMore noKeywords count s else s

def get_count_EXPUNGE (count : Nat) (s : State K) : State K :=
  if count > 0 ∧ count ≤ s.index.length then
    let c := count - 1
    let s' := { s with index := s.index.eraseIdx c }
    if c < s.exists then messagesRemoved c { s' with «exists» := s.exists - 1 } else s'
  else s

def setUid (count : Nat) (uid : Text) (s : State K) : State K :=
  if count < s.index.length then
    { s with index := s.index.modify count fun i => { i with uid := uid } }
  else s

def get_fetch_uid (count : Nat) (text : Text) (s : State K) : State K :=
  if count > 0 then setUid (count - 1) (s.uidv ++ str "/" ++ text) s else s

/-- One of the flags of a message, in `saveflags`. -/
def saveflag (i : IndexInfo K) (flag : Text) : IndexInfo K :=
  let f := upper flag
  if f = str "\\DRAFT" then { i with draft := true }
  else if f = str "\\ANSWERED" then { i with replied := true }
  else if f = str "\\FLAGGED" then { i with marked := true }
  else if f = str "\\DELETED" then { i with deleted := true }
  else if f = str "\\SEEN" then { i with unread := false }
  else if f = str "\\RECENT" then { i with recent := true }
  else if flag.head? ≠ some (byte '\\') then { i with keywords := addFlag i.keywords flag }
  else i

def clearflags (folderFlags : List Text) (i : IndexInfo K) : IndexInfo K :=
  let has (name : String) : Bool := folderFlags.contains (str name)
  { i with
    draft := if has "\\DRAFT" then false else i.draft
    replied := if has "\\ANSWERED" then false else i.replied
    marked := if has "\\FLAGGED" then false else i.marked
    deleted := if has "\\DELETED" then false else i.deleted
    unread := if has "\\SEEN" then true else i.unread
    recent := if has "\\RECENT" then false else i.recent
    keywords := noKeywords }

def saveflags (count : Nat) (flags : List Text) (s : State K) : State K :=
  if count > 0 ∧ count ≤ s.index.length then
    { s with
      index := s.index.modify (count - 1) fun i =>
        flags.foldl (saveflag addFlag) (clearflags noKeywords s.folderFlags i) }
  else s

/-! ## The runs -/

inductive Event where
  | exists_ (count : Nat)
  | expunge (count : Nat)
  | fetch_uid (count : Nat) (text : Text)
  | fetch_flags (count : Nat) (flags : List Text)
  | closing
  | installed
  | tagged (okfail : Bool)
  deriving DecidableEq, Repr

def step (s : State K) : Event → Option (State K)
  | .exists_ count => some (get_count_EXISTS noKeywords count s)
  | .expunge count => some (get_count_EXPUNGE count s)
  | .fetch_uid count text => some (get_fetch_uid count text s)
  | .fetch_flags count flags => some (saveflags noKeywords addFlag count flags s)
  | .closing => some { s with closeInProgress := true }
  | .installed =>
    match s.currentSYNCHRONIZE, s.task_queue with
    | none, callback :: task_queue => some (installed callback { s with task_queue := task_queue })
    | _, _ => none
  | .tagged okfail => s.currentSYNCHRONIZE.map fun sync => taggedMessage noKeywords sync okfail s

def selected (uidv : Text) (folderFlags : List Text) (count : Nat) : State K :=
  ⟨uidv, folderFlags, List.replicate count (indexInfo noKeywords), 0, none, 0, false, none,
    if count > 0 then [.imapSELECTCallback] else [], []⟩

end Folder
end Cone.ImapFolder
