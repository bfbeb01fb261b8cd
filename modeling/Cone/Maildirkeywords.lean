import Cone.Lib.LinkedList
import Cone.Rfc2045Header

/-! # Keywords of messages (`maildir/maildirkeywords.c`)

The keywords of a hash table, the messages, and one cell for each keyword of each message, which is
on a list of the message and on a list of the keyword.  Memory is never short, and an address is not
used again. -/
set_option autoImplicit false
namespace Cone.Maildirkeywords

open Cone.Ctype Cone.Rfc2045Header Cone.Lib.LinkedList

abbrev buckets : Nat := 43

/-- A pointer to a `struct libmail_keywordEntry`: a dummy of the hash table, or allocated. -/
inductive KeyPtr where
  | head (i : Fin buckets)
  | tail (i : Fin buckets)
  | entry (n : Nat)
  deriving DecidableEq, Repr

/-- `struct libmail_keywordEntry`, and the name behind it. -/
structure KeywordEntry where
  prev : Option KeyPtr
  next : Option KeyPtr
  name : List UInt8
  userNum : Nat
  firstMsg : Option Nat
  lastMsg : Option Nat
  deriving DecidableEq, Repr, Inhabited

structure MessageEntry where
  next : Option Nat
  prev : Option Nat
  keywordNext : Option Nat
  keywordPrev : Option Nat
  keywordEntry : KeyPtr
  message : Nat
  deriving DecidableEq, Repr

structure Message where
  firstEntry : Option Nat
  lastEntry : Option Nat
  deriving DecidableEq, Repr, Inhabited

/-- The cells, and the addresses that come next. -/
structure State where
  keywords : KeyPtr → Option KeywordEntry
  entries : Nat → Option MessageEntry
  messages : Nat → Option Message
  keywordBreak : Nat
  entryBreak : Nat
  messageBreak : Nat
  keywordAddedRemoved : Bool

def kwhInit : State where
  keywords
    | .head i => some ⟨none, some (.tail i), [], 0, none, none⟩
    | .tail i => some ⟨some (.head i), none, [], 0, none, none⟩
    | .entry _ => none
  entries _ := none
  messages _ := none
  keywordBreak := 0
  entryBreak := 0
  messageBreak := 0
  keywordAddedRemoved := false

section Read
variable (s : State)

def keyword (k : KeyPtr) : KeywordEntry := (s.keywords k).getD default

def keywordName (k : KeyPtr) : List UInt8 := (keyword s k).name

def entry (e : Nat) : MessageEntry := (s.entries e).getD ⟨none, none, none, none, .entry 0, 0⟩

def message (km : Nat) : Message := (s.messages km).getD default

def setKeyword (k : KeyPtr) (f : KeywordEntry → KeywordEntry) : State :=
  { s with keywords := modify s.keywords k f }

def setEntry (e : Nat) (f : MessageEntry → MessageEntry) : State :=
  { s with entries := modify s.entries e f }

def setMessage (km : Nat) (f : Message → Message) : State :=
  { s with messages := modify s.messages km f }

end Read

/-! ## Names -/

def strcmp : List UInt8 → List UInt8 → Int
  | [], [] => 0
  | [], d :: _ => -d.toNat
  | c :: _, [] => c.toNat
  | c :: a, d :: b => if c = d then strcmp a b else c.toNat - d.toNat

/-- `libmail_kwVerbotten` and `libmail_kwCaseSensitive` -/
structure Settings where
  verbotten : Option (List UInt8)
  caseSensitive : Bool
  deriving DecidableEq, Repr

section Settings
variable (g : Settings)

def fixName (name : List UInt8) : List UInt8 :=
  match g.verbotten with
  | none => name
  | some v => name.map fun c => if v.contains c then byte '_' else c

def foldCase (name : List UInt8) : List UInt8 := if g.caseSensitive then name else name.map tolower

/-- `strcmp`, or `strcasecmp` when names are not case sensitive. -/
def nameCmp (a b : List UInt8) : Int := strcmp (foldCase g a) (foldCase g b)

def hashBucket (name : List UInt8) : Fin buckets :=
  let h : UInt64 := (foldCase g name).foldl
    (fun h c => (h <<< 1) ^^^ (if h &&& 0x8000 ≠ 0 then 0x1301 else 0) ^^^ c.toUInt64) 0
  Fin.ofNat buckets (h &&& 0xFFFF).toNat

/-- Where the loop of `libmail_kweFind` stops: at the tail, or at the first name that is not less. -/
def stopsAt (s : State) (name : List UInt8) (e : KeyPtr) : Bool :=
  (keyword s e).next.isNone || 0 ≤ nameCmp g (keywordName s e) name

/-- The new entry of `libmail_kweFind`, before `e`. -/
def newKeyword (s : State) (name : List UInt8) (e : KeyPtr) : KeyPtr × State :=
  let eNew := KeyPtr.entry s.keywordBreak
  let prev := (keyword s e).prev
  let s := { s with
    keywords := store s.keywords eNew ⟨prev, some e, name, 0, none, none⟩
    keywordBreak := s.keywordBreak + 1
    keywordAddedRemoved := true }
  let s := setKeyword s e fun c => { c with prev := some eNew }
  match prev with
  | some p => (eNew, setKeyword s p fun c => { c with next := some eNew })
  | none => (eNew, s)

def kweFind (s : State) (name : List UInt8) (createIfNew : Bool) : Option KeyPtr × State :=
  let name := fixName g name
  let first := (keyword s (.head (hashBucket g name))).next
  match walk (fun e => (keyword s e).next) (stopsAt g s name) (s.keywordBreak + 2) first with
  | none => (none, s)
  | some e =>
    if (keyword s e).next.isSome && nameCmp g (keywordName s e) name = 0 then (some e, s)
    else if createIfNew = false then (none, s)
    else
      let r := newKeyword s name e
      (some r.1, r.2)

end Settings

/-! ## Messages -/

def kwmCreate (s : State) : Nat × State :=
  (s.messageBreak, { s with
    messages := store s.messages s.messageBreak ⟨none, none⟩
    messageBreak := s.messageBreak + 1 })

/-- `libmail_kwmSet` puts the new cell on the list of the message, before `keLast` or at the end. -/
def linkMessage (s : State) (km : Nat) (keLast : Option Nat) (kePtr : Nat) : State :=
  match keLast with
  | some last =>
    let prev := (entry s last).prev
    let s := setEntry s kePtr fun c => { c with next := some last, prev := prev }
    let s := setEntry s last fun c => { c with prev := some kePtr }
    match prev with
    | some p => setEntry s p fun c => { c with next := some kePtr }
    | none => setMessage s km fun c => { c with firstEntry := some kePtr }
  | none =>
    let prev := (message s km).lastEntry
    let s := setEntry s kePtr fun c => { c with next := none, prev := prev }
    let s := match prev with
      | some p => setEntry s p fun c => { c with next := some kePtr }
      | none => setMessage s km fun c => { c with firstEntry := some kePtr }
    setMessage s km fun c => { c with lastEntry := some kePtr }

/-- `libmail_kwmSet` puts the new cell at the end of the list of the keyword. -/
def linkKeyword (s : State) (ke : KeyPtr) (kePtr : Nat) : State :=
  let prev := (keyword s ke).lastMsg
  let s := setEntry s kePtr fun c => { c with keywordNext := none, keywordPrev := prev }
  let s := match prev with
    | some p => setEntry s p fun c => { c with keywordNext := some kePtr }
    | none => setKeyword s ke fun c => { c with firstMsg := some kePtr }
  setKeyword s ke fun c => { c with lastMsg := some kePtr }

def kwmSet (s : State) (km : Nat) (ke : KeyPtr) : Int × State :=
  let name := keywordName s ke
  let cmp (e : Nat) : Int := strcmp (keywordName s (entry s e).keywordEntry) name
  let keLast := walk (fun e => (entry s e).next) (fun e => 0 ≤ cmp e) (s.entryBreak + 1)
    (message s km).firstEntry
  if keLast.any fun e => cmp e = 0 then (1, s)
  else
    let kePtr := s.entryBreak
    let s := { s with
      entries := store s.entries kePtr ⟨none, none, none, none, ke, km⟩
      entryBreak := s.entryBreak + 1 }
    (0, linkKeyword (linkMessage s km keLast kePtr) ke kePtr)

def kwmSetName (g : Settings) (s : State) (km : Nat) (n : List UInt8) : Int × State :=
  match kweFind g s n true with
  | (none, s) => (-1, s)
  | (some ke, s) => kwmSet s km ke

/-- The loop of `libmail_kwmCmp`: zero when both lists end at once. -/
def cmpLoop (s : State) : Nat → Option Nat → Option Nat → Int
  | 0, _, _ => -1
  | _ + 1, none, none => 0
  | _ + 1, none, some _ => -1
  | _ + 1, some _, none => -1
  | fuel + 1, some e1, some e2 =>
    if strcmp (keywordName s (entry s e1).keywordEntry) (keywordName s (entry s e2).keywordEntry) ≠ 0
    then -1
    else cmpLoop s fuel (entry s e1).next (entry s e2).next

def kwmCmp (s : State) (km1 km2 : Nat) : Int :=
  cmpLoop s (s.entryBreak + 1) (message s km1).firstEntry (message s km2).firstEntry

/-- `libmail_kwmClearEntry` takes the cell from the list of its message. -/
def unlinkMessage (s : State) (e : Nat) : State :=
  let c := entry s e
  let s := match c.next with
    | some n => setEntry s n fun d => { d with prev := c.prev }
    | none => setMessage s c.message fun m => { m with lastEntry := c.prev }
  match c.prev with
  | some p => setEntry s p fun d => { d with next := c.next }
  | none => setMessage s c.message fun m => { m with firstEntry := c.next }

/-- `libmail_kwmClearEntry` takes the cell from the list of its keyword. -/
def unlinkKeyword (s : State) (e : Nat) : State :=
  let c := entry s e
  let s := match c.keywordNext with
    | some n => setEntry s n fun d => { d with keywordPrev := c.keywordPrev }
    | none => setKeyword s c.keywordEntry fun k => { k with lastMsg := c.keywordPrev }
  match c.keywordPrev with
  | some p => setEntry s p fun d => { d with keywordNext := c.keywordNext }
  | none => setKeyword s c.keywordEntry fun k => { k with firstMsg := c.keywordNext }

/-- `libmail_kweClear`; the loop to the tail of the bucket finds the table. -/
def kweClear (s : State) (kw : KeyPtr) : State :=
  let c := keyword s kw
  if c.firstMsg.isNone && c.lastMsg.isNone then
    let s := { s with keywordAddedRemoved := true }
    let s := match c.prev with
      | some p => setKeyword s p fun k => { k with next := c.next }
      | none => s
    let s := match c.next with
      | some n => setKeyword s n fun k => { k with prev := c.prev }
      | none => s
    { s with keywords := free s.keywords kw }
  else s

def kwmClearEntry (s : State) (e : Nat) : State :=
  let kw := (entry s e).keywordEntry
  let s := kweClear (unlinkKeyword (unlinkMessage s e) e) kw
  { s with entries := free s.entries e }

def kwmClearName (s : State) (km : Nat) (n : List UInt8) : Int × State :=
  match walk (fun e => (entry s e).next)
      (fun e => strcmp (keywordName s (entry s e).keywordEntry) n = 0) (s.entryBreak + 1)
      (message s km).firstEntry with
  | some e => (0, kwmClearEntry s e)
  | none => (1, s)

/-- The loop of `libmail_kwmDestroy`. -/
def destroyLoop : Nat → State → Nat → State
  | 0, s, _ => s
  | fuel + 1, s, km =>
    match (message s km).firstEntry with
    | none => s
    | some e => destroyLoop fuel (kwmClearEntry s e) km

def kwmDestroy (s : State) (km : Nat) : State :=
  let s := destroyLoop (s.entryBreak + 1) s km
  { s with messages := free s.messages km }

def kwhCheck (s : State) : Int :=
  if (List.finRange buckets).any fun i =>
      ((keyword s (.head i)).next.bind fun k => (keyword s k).next).isSome
  then -1 else 0

end Cone.Maildirkeywords
