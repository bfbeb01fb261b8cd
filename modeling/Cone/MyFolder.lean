import Cone.Lib.Renumber

/-! # The open folder

The index of cone/myfolder.C: what the server's messages are, in what order they are shown, the
cursor, the open message and the range of a running filter.  `I` is a message's entry in
`serverIndex`; the screen, the timers and the saved index are left out. -/
set_option autoImplicit false
namespace Cone.MyFolder

open Cone.Lib.Renumber (Range Ascending cut)

structure FolderFilter where
  filterStart : Nat
  filterEnd : Nat
  deriving DecidableEq, Repr

/-- `mymessage`, the message that is open. -/
structure CursesMessage where
  messagenum : Nat
  messagesortednum : Nat
  deriving DecidableEq, Repr

structure Folder (I : Type) where
  serverIndex : List I
  sorted_index : List Nat
  currentMessage : Nat
  mymessage : Option CursesMessage
  currentFilter : Option FolderFilter
  expunge_count : Nat
  newMailCheckCount : Nat

section Removed

/-- The loop variables of `messagesRemoved` besides the index. -/
structure Cursor where
  currentMessage : Nat
  mymessage : Option CursesMessage
  deriving DecidableEq, Repr

/-- The message at `i` in `sorted_index` is erased. -/
def Cursor.erased (c : Cursor) (i : Nat) : Cursor :=
  let mymessage := if c.currentMessage = i then none else c.mymessage
  if c.currentMessage ≥ i then
    if c.currentMessage > 0 then
      ⟨c.currentMessage - 1,
        mymessage.map fun m => { m with messagesortednum := c.currentMessage - 1 }⟩
    else ⟨c.currentMessage, mymessage⟩
  else ⟨c.currentMessage, mymessage⟩

/-- What is left of `sorted_index` from `i` on. -/
def adjust (nfrom nto : Nat) (i : Nat) (sorted : List Nat) (c : Cursor) : List Nat × Cursor :=
  match sorted with
  | [] => ([], c)
  | n :: rest =>
    if n ≥ nfrom ∧ n ≤ nto then adjust nfrom nto i rest (c.erased i)
    else
      let (left, c) := adjust nfrom nto (i + 1) rest c
      ((if n > nto then n - (nto - nfrom + 1) else n) :: left, c)

def filtered (nfrom nto : Nat) (f : FolderFilter) : Nat :=
  let t := if nto + 1 > f.filterEnd then f.filterEnd else nto + 1
  if t > f.filterStart ∧ nfrom < f.filterEnd then
    let t := t - f.filterStart
    if nfrom > f.filterStart then t - (nfrom - f.filterStart) else t
  else 0

def FolderFilter.update (nfrom nto : Nat) (f : FolderFilter) : FolderFilter :=
  let f := { f with filterEnd := f.filterEnd - filtered nfrom nto f }
  let t := if nto + 1 > f.filterStart then f.filterStart else nto + 1
  if nfrom < f.filterStart then
    let t := t - nfrom
    ⟨f.filterStart - t, f.filterEnd - t⟩
  else f

variable {I : Type}

/-- One range of `removedList`. -/
def removeRange (s : Folder I) (re : Range) : Folder I :=
  let nfrom := re.1
  let nto := re.2
  if nfrom ≥ s.serverIndex.length then s
  else
    let nto := if nto ≥ s.serverIndex.length then s.serverIndex.length - 1 else nto
    let (sorted_index, c) :=
      adjust nfrom nto 0 s.sorted_index ⟨s.currentMessage, s.mymessage⟩
    let count := nto - nfrom + 1
    let mymessage := c.mymessage.map fun m =>
      if nto ≤ m.messagenum then { m with messagenum := m.messagenum - count } else m
    { s with
      serverIndex := cut (nfrom, nto) s.serverIndex
      sorted_index := sorted_index
      currentMessage := c.currentMessage
      mymessage := mymessage
      currentFilter := s.currentFilter.map (FolderFilter.update nfrom nto)
      expunge_count := s.expunge_count +
        (count - (s.currentFilter.map (filtered nfrom nto)).getD 0) }

def messagesRemoved (s : Folder I) (removedList : List Range) : Folder I :=
  removedList.foldr (fun re s => removeRange s re) s

end Removed

section Received
variable {I : Type}

def newMessages (blank : I) (s : Folder I) (currentMessageCount : Nat) : Folder I :=
  if s.serverIndex.length < currentMessageCount then
    { s with
      serverIndex := s.serverIndex ++
        List.replicate (currentMessageCount - s.serverIndex.length) blank
      newMailCheckCount := s.newMailCheckCount + 1 }
  else s

/-- `std::lower_bound` over `len` entries of `sorted` from `first` on. -/
def lower_bound (less : Nat → Nat → Bool) (sorted : List Nat) (n : Nat) (first len : Nat) : Nat :=
  if _h : len = 0 then first
  else
    let half := len / 2
    if less (sorted.getD (first + half) 0) n then
      lower_bound less sorted n (first + half + 1) (len - half - 1)
    else lower_bound less sorted n first half
  termination_by len

/-- One message of `newMessagesReceivedAndFiltered`; the server's entry for it is `info`. -/
def insertMessage (less : List I → Nat → Nat → Bool) (info : I → I) (s : Folder I) : Folder I :=
  let oldMessages := s.sorted_index.length
  let serverIndex := s.serverIndex.modify oldMessages info
  let insertAt := lower_bound (less serverIndex) s.sorted_index oldMessages 0 oldMessages
  { s with
    serverIndex := serverIndex
    currentMessage :=
      if s.currentMessage ≥ insertAt ∧ s.currentMessage < oldMessages then s.currentMessage + 1
      else s.currentMessage
    sorted_index := s.sorted_index.insertIdx insertAt oldMessages }

def insertMessages (less : List I → Nat → Nat → Bool) (info : Nat → I → I) :
    Nat → Folder I → Folder I
  | 0, s => s
  | n + 1, s => insertMessages less info n (insertMessage less (info s.sorted_index.length) s)

def newMessagesReceivedAndFiltered (less : List I → Nat → Nat → Bool) (info : Nat → I → I)
    (s : Folder I) (newMessages : Nat) : Option (Folder I) :=
  if s.sorted_index.length > newMessages then none
  else if newMessages > s.serverIndex.length then none
  else some (insertMessages less info (newMessages - s.sorted_index.length) s)

/-- `hasFilter`: the folder has a filter, and `installFilter` makes one. -/
def newMessagesReceived (less : List I → Nat → Nat → Bool) (info : Nat → I → I) (hasFilter : Bool)
    (s : Folder I) : Option (Folder I) :=
  let s := { s with newMailCheckCount := s.newMailCheckCount - 1 }
  if s.newMailCheckCount ≠ 0 ∨ s.currentFilter.isSome then some s
  else if hasFilter then
    some { s with currentFilter := some ⟨s.sorted_index.length, s.serverIndex.length⟩ }
  else newMessagesReceivedAndFiltered less info s s.serverIndex.length

def messagesFiltered (less : List I → Nat → Nat → Bool) (info : Nat → I → I) (s : Folder I) :
    Option (Folder I) :=
  match s.currentFilter with
  | none => none
  | some f =>
    if s.newMailCheckCount ≠ 0 then
      newMessagesReceivedAndFiltered less info { s with currentFilter := none } f.filterEnd
    else if f.filterEnd = s.serverIndex.length then
      newMessagesReceivedAndFiltered less info { s with currentFilter := none }
        s.serverIndex.length
    else some { s with currentFilter := some ⟨f.filterEnd, s.serverIndex.length⟩ }

/-- The end of `init`, where the filter of the messages that were there has run. -/
def filterRan (s : Folder I) : Folder I :=
  match s.currentFilter with
  | none => s
  | some f =>
    if f.filterEnd < s.serverIndex.length ∧ s.newMailCheckCount = 0 then
      { s with currentFilter := some ⟨f.filterEnd, s.serverIndex.length⟩ }
    else { s with currentFilter := none }

end Received

section Sorted
variable {I : Type}

/-- `std::sort` leaves some order, `order`, of `sorted_index`; the cursor is looked up in it. -/
def setSortFunctionNoSave (s : Folder I) (order : List Nat) : Folder I :=
  let cm := s.sorted_index.getD s.currentMessage s.currentMessage
  { s with
    sorted_index := order
    currentMessage := if cm ∈ order then order.idxOf cm else 0 }

end Sorted

section Events
variable {I : Type}

inductive Event (I : Type) where
  | messagesRemoved (removedList : List Range)
  | newMessages (currentMessageCount : Nat)
  | newMessagesReceived (less : List I → Nat → Nat → Bool) (info : Nat → I → I) (hasFilter : Bool)
  | messagesFiltered (less : List I → Nat → Nat → Bool) (info : Nat → I → I)
  | newMessagesReceivedAndFiltered (less : List I → Nat → Nat → Bool) (info : Nat → I → I)
    (newMessages : Nat)
  | filterRan
  | setSortFunctionNoSave (order : List Nat)

def step (blank : I) (s : Folder I) : Event I → Option (Folder I)
  | .messagesRemoved removedList => some (messagesRemoved s removedList)
  | .newMessages count => some (newMessages blank s count)
  | .newMessagesReceived less info hasFilter => newMessagesReceived less info hasFilter s
  | .messagesFiltered less info => messagesFiltered less info s
  | .newMessagesReceivedAndFiltered less info count =>
    newMessagesReceivedAndFiltered less info s count
  | .filterRan => some (filterRan s)
  | .setSortFunctionNoSave order => some (setSortFunctionNoSave s order)

def Allowed (s : Folder I) : Event I → Prop
  | .messagesRemoved removedList => Ascending removedList
  | .newMessagesReceived .. => 0 < s.newMailCheckCount
  | .setSortFunctionNoSave order => order.Perm s.sorted_index
  | _ => True

/-- The folder after `init` has read its index, before or without a filter. -/
structure Opened (s : Folder I) : Prop where
  sorted : s.sorted_index.Perm (List.range s.serverIndex.length)
  filter : s.currentFilter = none ∨ s.currentFilter = some ⟨0, s.serverIndex.length⟩

inductive Reaches (blank : I) (s₀ : Folder I) : Folder I → Prop where
  | start : Reaches blank s₀ s₀
  | step {s s' : Folder I} (e : Event I) : Reaches blank s₀ s → Allowed s e →
    step blank s e = some s' → Reaches blank s₀ s'

end Events
end Cone.MyFolder
