import Mathlib.Data.List.Nodup

/-! # Searching a folder

`mail::searchMessages` of libmail/search.C, which examines the messages one by one, and the part of
`mail::searchOneMessage` that waits for the contents of a message.  What the contents say is a
parameter: `reads` has for each message whether the first request for it finds the criterion, the
second one, and so on.  The account stays open. -/
set_option autoImplicit false
namespace Cone.SearchMessages

structure MessageInfo (U : Type) where
  uid : U
  marked : Bool
  replied : Bool
  deleted : Bool
  draft : Bool
  unread : Bool
  deriving DecidableEq, Repr

inductive Criteria where
  | replied | deleted | draft | unread
  | «from» | «to» | cc | bcc | subject | header | body | text
  | before | on | since | sentbefore | senton | sentsince
  | larger | smaller
  deriving DecidableEq, Repr

inductive Scope where
  | search_all | search_marked | search_unmarked | search_range
  deriving DecidableEq, Repr

structure SearchParams where
  searchNot : Bool
  criteria : Criteria
  scope : Scope
  rangeLo : Nat
  rangeHi : Nat
  deriving DecidableEq, Repr

/-- `mail::searchOneMessage`; `pending` is what the requests left find, the one in progress first. -/
structure SearchOneMessage (U : Type) where
  messageNum : Nat
  uid : U
  searchFlag : Bool
  pending : List Bool
  deriving DecidableEq, Repr

inductive Result where
  | success (found : List Nat)
  | fail
  deriving DecidableEq, Repr

/-- The folder as it is, the `searchMessages` object, whether its `RunningLater` is to be called,
the message that is examined, and what the callback got.  `examined` lists the messages that were
examined; no function reads it. -/
structure State (U : Type) where
  folder : List (MessageInfo U)
  nextMsgNum : Nat
  uid : Option U
  successArray : List U
  runLater : Bool
  one : Option (SearchOneMessage U)
  result : Option Result
  examined : List U
  deriving DecidableEq, Repr

section Search
variable {U : Type} [DecidableEq U] (p : SearchParams) (reads : U → List Bool)

def inScope (nextMsgNum : Nat) (i : MessageInfo U) : Bool :=
  match p.scope with
  | .search_all => true
  | .search_unmarked => !i.marked
  | .search_marked => i.marked
  | .search_range => !(decide (nextMsgNum < p.rangeLo) || decide (nextMsgNum ≥ p.rangeHi))

def flagOf (i : MessageInfo U) : Option Bool :=
  match p.criteria with
  | .replied => some i.replied
  | .deleted => some i.deleted
  | .draft => some i.draft
  | .unread => some i.unread
  | _ => none

/-- The loop of `RunningLater` over the messages from `nextMsgNum` on: the message to be examined,
if there is one. -/
def scan (messages : List (MessageInfo U)) (s : State U) : State U × Option (MessageInfo U) :=
  match messages with
  | [] => (s, none)
  | i :: messages =>
    if inScope p s.nextMsgNum i then
      match flagOf p i with
      | some flag =>
        scan messages
          { s with
            nextMsgNum := s.nextMsgNum + 1
            uid := some i.uid
            successArray :=
              if (if p.searchNot then !flag else flag) then s.successArray ++ [i.uid]
              else s.successArray
            examined := s.examined ++ [i.uid] }
      | none => ({ s with uid := some i.uid }, some i)
    else scan messages { s with nextMsgNum := s.nextMsgNum + 1 }

def merge (messages : List (MessageInfo U)) (j : Nat) (uids : List U) : List Nat :=
  match messages, uids with
  | [], _ => []
  | _ :: _, [] => []
  | i :: messages, uid :: uids =>
    if i.uid = uid then j :: merge messages (j + 1) uids
    else merge messages (j + 1) (uid :: uids)

def runningLater (s : State U) : State U :=
  match scan p (s.folder.drop s.nextMsgNum) { s with runLater := false } with
  | (s, none) => { s with result := some (.success (merge s.folder 0 s.successArray)) }
  | (s, some i) =>
    { s with
      one := some ⟨s.nextMsgNum, i.uid, false, reads i.uid⟩
      nextMsgNum := s.nextMsgNum + 1
      examined := s.examined ++ [i.uid] }

def sanityCheck (folder : List (MessageInfo U)) (one : SearchOneMessage U) : Bool :=
  match folder[one.messageNum]? with
  | some i => decide (one.uid = i.uid)
  | none => false

def checkSearch (searchFlag : Bool) (s : State U) : State U :=
  let searchFlag := if p.searchNot then !searchFlag else searchFlag
  { s with
    successArray := if searchFlag then s.successArray ++ s.uid.toList else s.successArray
    one := none
    runLater := true }

def completed (one : SearchOneMessage U) (s : State U) : State U :=
  let searchFlag := one.searchFlag || one.pending.head?.getD false
  if !sanityCheck s.folder one then checkSearch p searchFlag s
  else if searchFlag || one.pending.tail.isEmpty then checkSearch p searchFlag s
  else { s with one := some { one with searchFlag := searchFlag, pending := one.pending.tail } }

inductive Event where
  | runningLater
  | completed
  | failed
  | removed (messageNum : Nat)
  deriving DecidableEq, Repr

def step (s : State U) (e : Event) : Option (State U) :=
  if s.result.isSome then none
  else
    match e with
    | .runningLater => if s.runLater then some (runningLater p reads s) else none
    | .completed => s.one.map fun one => completed p one s
    | .failed => s.one.map fun _ => { s with one := none, result := some .fail }
    | .removed messageNum =>
      if messageNum < s.folder.length then
        some { s with folder := s.folder.eraseIdx messageNum }
      else none

def search (folder : List (MessageInfo U)) : State U :=
  ⟨folder, 0, none, [], true, none, none, []⟩

def run : State U → List Event → Option (State U)
  | s, [] => some s
  | s, e :: es => (step p reads s e).bind fun s => run s es

end Search
end Cone.SearchMessages
