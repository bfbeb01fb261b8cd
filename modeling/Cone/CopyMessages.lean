import Cone.Lib.Decimal

/-! # Copying messages

`mail::copyMessages` and `mail::copyMessage` of libmail/copymessage.C.  Whenever they call the
source account or the destination, the account is in control until the call returns: it may
complete any request inside the call, later, or never, and `stack` says which calls have not returned
yet.  A `mail::addMessage` reports nothing before its `go` or `fail` is called, and `fail` reports at
once.  Memory does not run out and nothing throws; the progress reports are left out. -/
set_option autoImplicit false
namespace Cone.CopyMessages

open Cone.Ctype Cone.Lib.Decimal

abbrev Text := List UInt8

structure MessageInfo (F : Type) where
  uid : Text
  flags : F
  deriving DecidableEq, Repr

inductive SuccessCallback where
  | fetchText
  | fetchCompleted
  deriving DecidableEq, Repr

/-- What the destination is asked to do: `addMessage` has not returned yet, or has returned `NULL`
and is to call `fail`, or there is a `mail::addMessage` object, whose `go` is called or is not. -/
inductive Adding where
  | addMessage
  | refused
  | opened
  | going
  deriving DecidableEq, Repr

/-- A `copyMessage` object.  `fetch` is the request to the source that is not complete yet, and what
its success calls; `reading` is the message that `readMessageContent` was called for. -/
structure CopyMessage (F : Type) where
  messageNum : Nat
  messageInfo : MessageInfo F
  arrivalDate : Int
  fetch : Option SuccessCallback
  reading : Option Text
  addMessagePtr : Option Nat
  adding : Option Adding
  runLater : Bool
  alive : Bool
  copied : Bool
  deriving DecidableEq, Repr

/-- A `mail::addMessage` object: whose `add_callback` it has, and what is saved in it, with the
`copyMessage` that read it and the uid of the message that was read. -/
structure AddMessage (F : Type) where
  owner : Nat
  messageInfo : MessageInfo F
  messageDate : Int
  contents : List (Nat × Option Text × Text)
  deriving DecidableEq, Repr

/-- A call that has not returned: `copyMessage::copy` in the loop of `doSomething`, `addMessage` in
`fetchText`, or a call after which nothing is left to do. -/
inductive Frame where
  | copy (message : Text)
  | addMessage (id : Nat)
  | tail
  deriving DecidableEq, Repr

inductive Result where
  | success (message : Text)
  | fail (message : Text)
  deriving DecidableEq, Repr

/-- The source folder and whether the accounts are there, the `copyMessages` object, the
`copyMessage` objects by the order of their creation, and what the caller's callback got.  `misused`
is set where an object is used that is destroyed. -/
structure State (F : Type) where
  folder : List (MessageInfo F)
  copyFrom : Bool
  copyTo : Bool
  todo : List (Nat × Text)
  inProgress : UInt64
  copiedCount : Nat
  failMessage : Text
  runLater : Bool
  alive : Bool
  copies : List (CopyMessage F)
  adds : List (AddMessage F)
  stack : List Frame
  results : List Result
  misused : Bool
  deriving DecidableEq, Repr

section Copy
variable {F : Type}

def unchanged (folder : List (MessageInfo F)) (messageNum : Nat) (uid : Text) : Bool :=
  match folder[messageNum]? with
  | some i => decide (i.uid = uid)
  | none => false

def misuse (s : State F) : State F := { s with misused := true }

def modify (id : Nat) (f : CopyMessage F → CopyMessage F) (s : State F) : State F :=
  { s with copies := s.copies.modify id f }

/-- The constructor of `copyMessage`, and `go`, which calls `readMessageAttributes`. -/
def copyMessage (messageNum : Nat) (messageInfo : MessageInfo F) : CopyMessage F :=
  ⟨messageNum, messageInfo, 0, some .fetchText, none, none, none, false, true, false⟩

/-! ## `copyMessages` -/

/-- The end of `doSomething`. -/
def finish (message : Text) (s : State F) : State F :=
  if s.inProgress = 0 ∧ (s.failMessage ≠ [] ∨ s.todo = []) then
    if s.failMessage ≠ [] then
      let failMessage :=
        if s.copiedCount > 0 then
          s.failMessage ++ str " (" ++ decimal s.copiedCount ++ str " message(s) copied)"
        else s.failMessage
      { s with
        failMessage := failMessage
        alive := false
        results := s.results ++ [.fail failMessage] }
    else { s with alive := false, results := s.results ++ [.success message] }
  else s

/-- `doSomething`, until it calls `copyMessage::copy`. -/
def doSomething (message : Text) (s : State F) : State F :=
  match s.todo with
  | (messageNum, uid) :: todo =>
    if s.inProgress < 2 ∧ s.failMessage = [] then
      if !s.copyFrom || !s.copyTo then
        finish message
          { s with
            todo := todo
            failMessage := str "Server connection closed during copy." }
      else
        match s.folder[messageNum]? with
        | some messageInfo =>
          if messageInfo.uid = uid then
            { s with
              todo := todo
              copies := s.copies ++ [copyMessage messageNum messageInfo]
              stack := .copy message :: s.stack }
          else
            finish message
              { s with
                todo := todo
                failMessage := str
                  "Original folders contents have changed in a middle of the copy operation." }
        | none =>
          finish message
            { s with
              todo := todo
              failMessage := str
                "Original folders contents have changed in a middle of the copy operation." }
    else finish message s
  | [] => finish message s

def runningLater (s : State F) : State F :=
  doSomething (str "No messages copied.") { s with runLater := false }

def callbackSuccess (message : Text) (s : State F) : State F :=
  if s.alive then
    doSomething message
      { s with copiedCount := s.copiedCount + 1, inProgress := s.inProgress - 1 }
  else misuse s

def callbackFail (message : Text) (s : State F) : State F :=
  if s.alive then
    doSomething message
      { s with
        inProgress := s.inProgress - 1
        failMessage := if s.failMessage.length = 0 then message else s.failMessage }
  else misuse s

/-- `copyMessage::copy` has returned. -/
def copyReturned (message : Text) (s : State F) : State F :=
  if s.alive then doSomething message { s with inProgress := s.inProgress + 1 } else misuse s

/-! ## `copyMessage` -/

/-- `delete`; an `addMessagePtr` that is set is told to fail, which deletes the object again. -/
def destroy (id : Nat) (copied : Bool) (c : CopyMessage F) (s : State F) : State F :=
  let s := modify id (fun c => { c with alive := false, copied := copied }) s
  if c.addMessagePtr.isSome || !c.alive then misuse s else s

/-- `callback.fail(message); delete this;` -/
def failed (id : Nat) (c : CopyMessage F) (message : Text) (s : State F) : State F :=
  callbackFail message (destroy id false c s)

def fetchText (id : Nat) (c : CopyMessage F) (s : State F) : State F :=
  if !s.copyTo || !s.copyFrom then failed id c (str "Server connection closed during copy.") s
  else if unchanged s.folder c.messageNum c.messageInfo.uid then
    { modify id (fun c => { c with adding := some .addMessage }) s with
      stack := .addMessage id :: s.stack }
  else
    -- there is no return after this one
    misuse (failed id c (str "Original folder's contents modified during copy") s)

/-- `addMessage` has returned in `fetchText`, which goes on to `readMessageContent`. -/
def addMessageReturned (id : Nat) (c : CopyMessage F) (null : Bool) (s : State F) : State F :=
  if c.adding ≠ some .addMessage then s
  else if null then modify id (fun c => { c with adding := some .refused }) s
  else if !c.alive then misuse s
  else
    { modify id
        (fun c =>
          { c with
            adding := some .opened
            addMessagePtr := some s.adds.length
            fetch := some .fetchCompleted
            reading := s.folder[c.messageNum]?.map MessageInfo.uid }) s with
      adds := s.adds ++ [⟨id, c.messageInfo, c.arrivalDate, []⟩]
      stack := .tail :: s.stack }

/-- `FetchCallback::success` -/
def fetchSuccess (id : Nat) (c : CopyMessage F) (fetch : SuccessCallback) (s : State F) : State F :=
  let s := modify id (fun c => { c with fetch := none }) s
  if !c.alive then misuse s
  else
    match fetch with
    | .fetchText => fetchText id { c with fetch := none } s
    | .fetchCompleted => modify id (fun c => { c with runLater := true }) s

/-- `AddCallback::fail` -/
def addFail (id : Nat) (c : CopyMessage F) (message : Text) (s : State F) : State F :=
  let s := modify id (fun c => { c with adding := none, addMessagePtr := none }) s
  if !c.alive then misuse s
  else failed id { c with adding := none, addMessagePtr := none } message s

/-- `FetchCallback::fail`; with an `addMessagePtr` it is reported by the `fail` of that one. -/
def fetchFail (id : Nat) (c : CopyMessage F) (message : Text) (s : State F) : State F :=
  let s := modify id (fun c => { c with fetch := none }) s
  if !c.alive then misuse s
  else
    match c.addMessagePtr with
    | some _ => addFail id { c with fetch := none } message s
    | none => failed id { c with fetch := none } message s

/-- `AddCallback::success` -/
def addSuccess (id : Nat) (c : CopyMessage F) (message : Text) (s : State F) : State F :=
  let s := modify id (fun c => { c with adding := none, addMessagePtr := none }) s
  if !c.alive then misuse s
  else callbackSuccess message (destroy id true { c with adding := none, addMessagePtr := none } s)

/-- `copyMessage::RunningLater` -/
def copyRunningLater (id : Nat) (c : CopyMessage F) (s : State F) : State F :=
  let s := modify id (fun c => { c with runLater := false }) s
  match c.addMessagePtr with
  | some _ =>
    { modify id (fun c => { c with adding := some .going }) s with stack := .tail :: s.stack }
  | none => misuse s

/-- `FetchCallback::messageTextCallback` -/
def messageText (id : Nat) (c : CopyMessage F) (text : Text) (s : State F) : State F :=
  if !c.alive then misuse s
  else
    match c.addMessagePtr with
    | some add =>
      { s with
        adds := s.adds.modify add fun a =>
          { a with contents := a.contents ++ [(id, c.reading, text)] } }
    | none => s

/-! ## The runs -/

inductive Event (F : Type) where
  | runningLater
  | copyRunningLater (id : Nat)
  | arrivalDate (id : Nat) (date : Int)
  | text (id : Nat) (text : Text)
  | fetchSuccess (id : Nat)
  | fetchFail (id : Nat) (message : Text)
  | addSuccess (id : Nat) (message : Text)
  | addFail (id : Nat) (message : Text)
  | returned (null : Bool)
  | renumbered (folder : List (MessageInfo F))
  | closedFrom
  | closedTo
  deriving DecidableEq, Repr

def step (s : State F) : Event F → Option (State F)
  | .runningLater => if s.stack = [] ∧ s.runLater then some (runningLater s) else none
  | .copyRunningLater id =>
    s.copies[id]?.bind fun c =>
      if s.stack = [] ∧ c.runLater ∧ c.alive then some (copyRunningLater id c s) else none
  | .arrivalDate id date =>
    s.copies[id]?.bind fun c =>
      if c.fetch = some .fetchText then
        some (if c.alive then modify id (fun c => { c with arrivalDate := date }) s else misuse s)
      else none
  | .text id text =>
    s.copies[id]?.bind fun c =>
      if c.fetch = some .fetchCompleted then some (messageText id c text s) else none
  | .fetchSuccess id =>
    s.copies[id]?.bind fun c => c.fetch.map fun fetch => fetchSuccess id c fetch s
  | .fetchFail id message =>
    s.copies[id]?.bind fun c => c.fetch.map fun _ => fetchFail id c message s
  | .addSuccess id message =>
    s.copies[id]?.bind fun c =>
      if c.adding = some .going then some (addSuccess id c message s) else none
  | .addFail id message =>
    s.copies[id]?.bind fun c =>
      if c.adding = some .addMessage ∨ c.adding = some .refused ∨ c.adding = some .going then
        some (addFail id c message s)
      else none
  | .returned null =>
    match s.stack with
    | [] => none
    | .copy message :: stack => some (copyReturned message { s with stack := stack })
    | .addMessage id :: stack =>
      s.copies[id]?.map fun c => addMessageReturned id c null { s with stack := stack }
    | .tail :: stack => some { s with stack := stack }
  | .renumbered folder => some { s with folder := folder }
  | .closedFrom => some { s with copyFrom := false }
  | .closedTo => some { s with copyTo := false }

def copy (folder : List (MessageInfo F)) (messages : List Nat) : State F :=
  ⟨folder, true, true,
    messages.map fun n => (n, (folder[n]?.map MessageInfo.uid).getD []), 0, 0, [], true, true, [],
    [], [], [], false⟩

end Copy
end Cone.CopyMessages
