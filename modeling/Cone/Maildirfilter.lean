import Cone.Lib.Decimal
import Cone.Lib.LinkedList

/-! # The rules of a mail filter (`maildir/maildirfilter.c`)

The rules are cells on a doubly linked list.  Memory is never short, and an address is not used
again.  A call that reads behind a null pointer, or through a pointer that is no rule, has no
defined result: it is `none`. -/
set_option autoImplicit false
namespace Cone.Maildirfilter
open Cone.Ctype
open Cone.Lib.Decimal
open Cone.Lib.LinkedList

inductive Maildirfiltertype where
  | startswith
  | endswith
  | contains
  | hasrecipient
  | mimemultipart
  | textplain
  | islargerthan
  | anymessage
  deriving DecidableEq, Repr

abbrev Flags := BitVec 32

def MFR_DOESNOT : Flags := 1
def MFR_BODY : Flags := 2
def MFR_CONTINUE : Flags := 4
def MFR_PLAINSTRING : Flags := 8

/-- `flags & bit` -/
def hasFlag (flags bit : Flags) : Bool := flags &&& bit ≠ 0

inductive Errcode where
  | badrulename
  | badruleheader
  | badrulevalue
  | badrulefolder
  | badfromhdr
  | exists
  deriving DecidableEq, Repr

abbrev BACKQUOTE : UInt8 := 96

def INBOX : List UInt8 := str "INBOX"

/-! ## Validation -/

section Validate

def badRulename (name : List UInt8) : Bool :=
  name = [] || 200 < name.length ||
    name.any fun c => c < SP || c = byte '\'' || c = byte '"' || c = BACKQUOTE

def headerOptional (type : Maildirfiltertype) (flags : Flags) : Bool :=
  match type with
  | .hasrecipient | .islargerthan | .mimemultipart | .textplain | .anymessage => true
  | .contains | .startswith | .endswith => hasFlag flags MFR_BODY

variable (mdirsep : UInt8)

def badRuleheader (type : Maildirfiltertype) (flags : Flags) (header : List UInt8) : Bool :=
  200 < header.length ||
    if header = [] then !headerOptional type flags
    else header.any fun c => c ≤ SP || c = mdirsep || 127 ≤ c || c = byte '\'' || c = byte '\\' ||
      c = byte '"' || c = BACKQUOTE || c = byte '/'

def valueOptional (type : Maildirfiltertype) : Bool :=
  match type with
  | .mimemultipart | .textplain | .anymessage => true
  | _ => false

def isQuote (c : UInt8) : Bool := c = byte '\'' || c = byte '"' || c = BACKQUOTE

/-- Where the loop over a pattern stands. -/
inductive ScanAt where
  | top
  | opened
  | escaped
  | set
  | setEscaped
  | afterFirst
  | second
  | secondEscaped
  | afterSecond
  deriving DecidableEq, Repr

def topStep (type : Maildirfiltertype) (c : UInt8) : Option ScanAt :=
  if c = byte '/' || c = byte '$' || c = byte '!' || c = BACKQUOTE || c < SP || c = byte '\'' ||
      c = byte '"' then none
  else if type = .islargerthan && !isdigit c then none
  else if c = byte '(' then if type = .hasrecipient then none else some .opened
  else if c = byte ')' then if type = .hasrecipient then none else some .top
  else if c = byte '[' then if type = .hasrecipient then none else some .set
  else if c = byte '\\' then if type = .hasrecipient then none else some .escaped
  else some .top

def setStep (backslash other : ScanAt) (c : UInt8) : Option ScanAt :=
  if isQuote c then none
  else if c = byte '\\' then some backslash
  else if c < SP then none
  else some other

/-- One character of a pattern. -/
def scanStep (type : Maildirfiltertype) (at' : ScanAt) (c : UInt8) : Option ScanAt :=
  match at' with
  | .top => topStep type c
  | .opened => if c = byte ')' then none else topStep type c
  | .escaped => some .top
  | .set => setStep .setEscaped .afterFirst c
  | .setEscaped => if c < SP then none else some .afterFirst
  | .afterFirst =>
    if c = byte ']' then some .top
    else if c = byte '-' then some .second
    else setStep .setEscaped .afterFirst c
  | .second => setStep .secondEscaped .afterSecond c
  | .secondEscaped => if c < SP then none else some .afterSecond
  | .afterSecond => if c = byte ']' then some .top else setStep .setEscaped .afterFirst c

/-- The loop over a pattern: it must not end inside a set or behind a backslash. -/
def scanValue (type : Maildirfiltertype) (value : List UInt8) : Bool :=
  match value.foldlM (scanStep type) .top with
  | some .top | some .opened => true
  | _ => false

variable (pcreCompile : List UInt8 → Bool)

def badRulevalue (type : Maildirfiltertype) (flags : Flags) (value : List UInt8) : Bool :=
  200 < value.length ||
    if value = [] then !valueOptional type
    else if hasFlag flags MFR_PLAINSTRING then false
    else !scanValue type value ||
      match type with
      | .contains | .startswith | .endswith => !pcreCompile value
      | _ => false

def name2dir (maildir foldername : List UInt8) : Option (List UInt8) :=
  if (foldername.take 5).map toUpper = INBOX && !foldername.contains (byte '/') then
    match foldername.drop 5 with
    | [] => some maildir
    | c :: r =>
      if c = byte '.' then
        if emptyName foldername then none else some (maildir ++ byte '/' :: c :: r)
      else none
  else none
where
  toUpper (c : UInt8) : UInt8 := if byte 'a' ≤ c && c ≤ byte 'z' then c - 32 else c
  /-- A period with a period, or nothing, behind it. -/
  emptyName : List UInt8 → Bool
    | [] => false
    | c :: r =>
      (c = byte '.' && (match r with
        | [] => true
        | d :: _ => d = byte '.')) || emptyName r

def tokenSeparator (c : UInt8) : Bool := c = SP || c = TAB || c = CR || c = NL

def badRulefolder (folder : Option (List UInt8)) : Bool :=
  match folder with
  | none => true
  | some folder =>
    200 < folder.length ||
      if folder.head? = some (byte '*') || folder.head? = some (byte '!') then
        folder.tail.any fun c => (str "'\"$\\`;()\x7b\x7d#&<>~").contains c || c < SP
      else if folder.head? = some (byte '+') then folder.tail.all tokenSeparator
      else if folder = str "exit" then false
      else
        (folder ≠ INBOX && folder.take 6 ≠ INBOX ++ str ".") ||
          (name2dir (str ".") folder).isNone

end Validate

/-! ## Rules and their list -/

structure Fields where
  rulename : Option (List UInt8)
  type : Maildirfiltertype
  flags : Flags
  fieldname : Option (List UInt8)
  fieldvalue : Option (List UInt8)
  tofolder : Option (List UInt8)
  fromhdr : Option (List UInt8)
  deriving DecidableEq, Repr

structure Maildirfilterrule extends Fields where
  next : Option Nat
  prev : Option Nat
  deriving DecidableEq, Repr

/-- `struct maildirfilter`, the cells, and the address that comes next. -/
structure Filter where
  rules : Nat → Option Maildirfilterrule
  brk : Nat
  first : Option Nat
  last : Option Nat

def nulled : Filter := { rules := fun _ => none, brk := 0, first := none, last := none }

/-- The arguments of `maildir_filter_appendrule` and `maildir_filter_ruleupdate`. -/
structure RuleArgs where
  name : Option (List UInt8)
  type : Maildirfiltertype
  flags : Flags
  header : Option (List UInt8)
  value : Option (List UInt8)
  folder : Option (List UInt8)
  fromhdr : Option (List UInt8)
  deriving DecidableEq, Repr

section Rules
variable (s : Filter)

def setRule (p : Nat) (f : Maildirfilterrule → Maildirfilterrule) : Filter :=
  { s with rules := modify s.rules p f }

def setNext (p next : Option Nat) : Filter :=
  { s with rules := modifyAt s.rules p fun c => { c with next := next } }

def setPrev (p prev : Option Nat) : Filter :=
  { s with rules := modifyAt s.rules p fun c => { c with prev := prev } }

/-- `p->next=next`, or the first rule when there is no `p`. -/
def setNextOrFirst (p next : Option Nat) : Filter :=
  match p with
  | some _ => setNext s p next
  | none => { s with first := next }

/-- `p->prev=prev`, or the last rule when there is no `p`. -/
def setPrevOrLast (p prev : Option Nat) : Filter :=
  match p with
  | some _ => setPrev s p prev
  | none => { s with last := prev }

def existsLoop (p : Nat) (name : List UInt8) : Nat → Option Nat → Option Bool
  | 0, _ => none
  | _ + 1, none => none
  | fuel + 1, some pom =>
    match s.rules pom with
    | none => none
    | some c =>
      match c.next with
      | none => some false
      | some next =>
        if p = pom then existsLoop p name fuel (some next)
        else match c.rulename with
          | none => none
          | some rulename =>
            if rulename = name then some true else existsLoop p name fuel (some next)

section Update
variable (mdirsep : UInt8) (pcreCompile : List UInt8 → Bool)

def newFields (a : RuleArgs) : Option (Except Errcode Fields) :=
  if badRuleheader mdirsep a.type a.flags (a.header.getD []) then some (.error .badruleheader)
  else if badRulevalue pcreCompile a.type a.flags (a.value.getD []) then
    some (.error .badrulevalue)
  else match a.fromhdr with
    | none => none
    | some fromhdr =>
      let fromhdr := fromhdr.dropWhile isspace
      if fromhdr.any (· < SP) then some (.error .badfromhdr)
      else if badRulefolder a.folder then some (.error .badrulefolder)
      else some (.ok
        { rulename := a.name, type := a.type, flags := a.flags,
          fieldname := some (a.header.getD []), fieldvalue := some (a.value.getD []),
          tofolder := a.folder, fromhdr := some fromhdr })

/-- `maildir_filter_ruleupdate`: the error, or none, and what has become of the filter. -/
def ruleupdate (p : Nat) (a : RuleArgs) : Option (Option Errcode × Filter) :=
  if badRulename (a.name.getD []) then some (some .badrulename, s)
  else match existsLoop s p (a.name.getD []) (s.brk + 1) s.first with
    | none => none
    | some true => some (some .exists, s)
    | some false =>
      match newFields mdirsep pcreCompile a with
      | none => none
      | some (.error e) => some (some e, s)
      | some (.ok fields) => some (none, setRule s p fun c => { c with toFields := fields })

end Update

def ruledel (p : Nat) : Option Filter :=
  match s.rules p with
  | none => none
  | some c =>
    let s := setNextOrFirst s c.prev c.next
    let s := setPrevOrLast s c.next c.prev
    some { s with rules := free s.rules p }

/-- The new rule of `maildir_filter_appendrule`, empty, at the end of the list. -/
def linkNew : Nat × Filter :=
  let p := s.brk
  let prev := s.last
  let s := { s with
    rules := store s.rules p
      { rulename := none, type := .startswith, flags := 0, fieldname := none, fieldvalue := none,
        tofolder := none, fromhdr := none, next := none, prev := prev }
    brk := s.brk + 1 }
  let s := setNextOrFirst s prev (some p)
  (p, { s with last := some p })

def appendrule (mdirsep : UInt8) (pcreCompile : List UInt8 → Bool) (a : RuleArgs) :
    Option (Option Errcode × Filter) :=
  let (p, s) := linkNew s
  match ruleupdate s mdirsep pcreCompile p a with
  | none => none
  | some (none, s) => some (none, s)
  | some (some e, s) => (ruledel s p).map fun s => (some e, s)

def ruleup (p : Nat) : Option Filter :=
  match s.rules p with
  | none => none
  | some c =>
    match c.prev with
    | none => some s
    | some q =>
      match s.rules q with
      | none => none
      | some d =>
        let s := setNext s (some q) c.next
        let s := setPrevOrLast s c.next (some q)
        let s := setPrev s (some p) d.prev
        let s := setNextOrFirst s d.prev (some p)
        let s := setNext s (some p) (some q)
        some (setPrev s (some q) (some p))

def ruledown (p : Nat) : Option Filter :=
  match s.rules p with
  | none => none
  | some c =>
    match c.next with
    | none => some s
    | some q =>
      match s.rules q with
      | none => none
      | some d =>
        let s := setPrev s (some q) c.prev
        let s := setNextOrFirst s c.prev (some q)
        let s := setNext s (some p) d.next
        let s := setPrevOrLast s d.next (some p)
        let s := setPrev s (some p) (some q)
        some (setNext s (some q) (some p))

end Rules

end Cone.Maildirfilter
