import Cone.ImapSearchProgram
import Cone.SearchMessages

/-! # SEARCH on the server and in the client

`mail::imap::searchMessages` and `mail::imapSEARCH::installed` of libmail/imapfolder.C, without the
connections that speak SMAP, and what `mail::searchOneMessage` of libmail/search.C finds in a message
whose contents it can read.  How texts are converted and dates are parsed is a parameter. -/
set_option autoImplicit false
namespace Cone.ImapSearch

open Cone.Ctype Cone.Lib.Decimal
open Cone.ImapBodystructure (Text)
open Cone.SearchMessages (Criteria Scope MessageInfo inScope)

structure SearchParams extends SearchMessages.SearchParams where
  param1 : Text
  param2 : Text
  charset : Text
  deriving DecidableEq, Repr

def c_str (s : Text) : Text := s.takeWhile (· ≠ NUL)

/-- `istringstream >> unsigned long`, which takes a minus sign. -/
def readSize (t : Text) : Option Nat :=
  let number (w : Text) : Option Nat :=
    if w.takeWhile isdigit ≠ [] ∧ readDigits w < 2 ^ 64 then some (readDigits w) else none
  match t.dropWhile isspace with
  | [] => none
  | c :: w =>
    if c = byte '-' then (number w).map fun n => (2 ^ 64 - n) % 2 ^ 64
    else if c = byte '+' then number w
    else number (c :: w)

/-! ## The command -/

def escape (s : Text) : Text :=
  s.flatMap fun c => if c = byte '"' ∨ c = byte '\\' then [byte '\\', c] else [c]

def quoteSimple (s : Text) : Text := byte '"' :: escape s ++ [byte '"']

/-- The loop over the header name, which looks at the same character again and again. -/
def checkName : Nat → Text → Option Bool
  | 0, _ => none
  | _ + 1, [] => some true
  | fuel + 1, c :: b => if c < SP ∨ 127 ≤ c then some false else checkName fuel (c :: b)

/-- `install` has the arguments of the `imapSEARCH` object, the last one if `hasStringArg`. -/
inductive Outcome where
  | byHand
  | fail (message : Text)
  | install (searchCmd : Text) (stringArg : Option Text)
  deriving DecidableEq, Repr

def charsetCmd (p : SearchParams) : Text :=
  if p.charset.length > 0 then str "CHARSET " ++ quoteSimple p.charset ++ str " " else []

def scopeCmd (p : SearchParams) : Text :=
  match p.scope with
  | .search_all => str "ALL"
  | .search_unmarked => str "ALL NOT FLAGGED"
  | .search_marked => str "ALL FLAGGED"
  | .search_range => decimal ((p.rangeLo + 1) % 2 ^ 64) ++ byte ':' :: decimal p.rangeHi

def notFlag (p : SearchParams) : Bool :=
  if p.criteria = .unread then !p.searchNot else p.searchNot

def notCmd (p : SearchParams) : Text := if notFlag p then str " NOT" else []

def searchMessages (fuel : Nat) (flagged : Bool) (p : SearchParams) : Option Outcome :=
  if !flagged then some .byHand
  else
    let cmd := charsetCmd p ++ scopeCmd p ++ notCmd p
    let flag (w : String) := some (.install (cmd ++ str w) none)
    let string (w : String) := some (.install (cmd ++ str w) (some p.param2))
    let size (w : String) :=
      match readSize (c_str p.param2) with
      | none => some (.fail (str "Invalid message size string."))
      | some sizeNum => some (.install (cmd ++ str w ++ decimal sizeNum) none)
    match p.criteria with
    | .replied => flag " ANSWERED"
    | .deleted => flag " DELETED"
    | .draft => flag " DRAFT"
    | .unread => flag " SEEN"
    | .from => string " FROM "
    | .to => string " TO "
    | .cc => string " CC "
    | .bcc => string " BCC "
    | .subject => string " SUBJECT "
    | .header =>
      (checkName fuel p.param1).bind fun ok =>
        if ok then
          some (.install (cmd ++ str " HEADER " ++ quoteSimple p.param1 ++ str " ") (some p.param2))
        else some (.fail (str "Invalid header name."))
    | .body => string " BODY "
    | .text => string " TEXT "
    | .before => string " BEFORE "
    | .on => string " ON "
    | .since => string " SINCE "
    | .sentbefore => string " SENTBEFORE "
    | .senton => string " SENTON "
    | .sentsince => string " SENTSINCE "
    | .larger => size " LARGER "
    | .smaller => size " SMALLER "

def isPlain (c : UInt8) : Bool := !(decide (c < SP) || decide (127 ≤ c))

/-- What `installed` and `continuationRequest` send for the argument. -/
def argument (stringArg : Text) : Text :=
  if stringArg.all isPlain then quoteSimple stringArg
  else byte '\x7b' :: decimal stringArg.length ++ (str "\x7d\r\n" ++ stringArg)

def sent (searchCmd : Text) (stringArg : Option Text) : Text :=
  searchCmd ++ (stringArg.map argument).getD []

/-! ## The client -/

/-- `libmail_u_convert_tocase` with `unicode_uc`, by charset; the length of the search string after
`setString`; and the day of `gmtime` for what `rfc822_parsedt` returns, unless it returns 0. -/
structure Library where
  tocase : Text → Text → Option Text
  setString : Text → Text → Option Nat
  parsedt : Text → Option Day

section Client
variable (lib : Library) (p : SearchParams)

def unicode_isspace (c : UInt8) : Bool := isspace c || c = 0x85

def dateText (t : Text) : Text :=
  (((t.dropWhile unicode_isspace).takeWhile (· ≠ SP)).map fun c => if c = byte '-' then SP else c) ++
    str " 00:00:00 -0000"

/-- `doDateCmp`: `diff` is the order of the day of the message and `cmpDate`. -/
def doDateCmp (day cmpDate : Day) : Bool :=
  match p.criteria with
  | .on | .senton => decide (day = cmpDate)
  | .before | .sentbefore => decide (day < cmpDate)
  | .since | .sentsince => decide (cmpDate ≤ day)
  | _ => false

def searchString (m : Message) (param2 : Text) (field : Field) (name : Text) : Bool :=
  match lib.setString p.charset param2 with
  | none | some 0 => false
  | some _ => m.finds ⟨field, name, p.charset, p.param2⟩

/-- `mail::searchOneMessage::go`: whether the message meets the criterion, and nothing where the
search fails. -/
def searchOneMessage (m : Message) : Option Bool :=
  match p.criteria with
  | .replied => some m.answered
  | .deleted => some m.deleted
  | .draft => some m.draft
  | .unread => some !m.seen
  | criteria =>
    (lib.tocase p.charset (c_str p.param2)).bind fun param2 =>
      (lib.tocase (str "iso-8859-1") (c_str p.param1)).bind fun _ =>
        match criteria with
        | .larger => some ((readSize (c_str param2)).any fun b => decide (m.size > b))
        | .smaller => some ((readSize (c_str param2)).any fun b => decide (m.size < b))
        | .before | .on | .since => (lib.parsedt (dateText param2)).map (doDateCmp p m.arrival)
        | .sentbefore | .senton | .sentsince =>
          (lib.parsedt (dateText param2)).map (doDateCmp p m.sent)
        | .from => some (searchString lib p m param2 .from [])
        | .to => some (searchString lib p m param2 .to [])
        | .cc => some (searchString lib p m param2 .cc [])
        | .bcc => some (searchString lib p m param2 .bcc [])
        | .subject => some (searchString lib p m param2 .subject [])
        | .body => (lib.setString p.charset param2).map fun _ =>
          searchString lib p m param2 .body []
        | .text => (lib.setString p.charset param2).map fun _ =>
          searchString lib p m param2 .text []
        | _ => (lib.setString p.charset param2).map fun _ =>
          if p.param1 = [] then searchString lib p m param2 .anyHeader []
          else searchString lib p m param2 .header p.param1

def info (m : Message) : MessageInfo Unit :=
  ⟨(), m.flagged, m.answered, m.deleted, m.draft, !m.seen⟩

/-- `RunningLater`, over the messages from `nextMsgNum` on. -/
def clientSearch : List Message → Nat → Option (List Nat)
  | [], _ => some []
  | m :: messages, nextMsgNum =>
    if inScope p.toSearchParams nextMsgNum (info m) then
      (searchOneMessage lib p m).bind fun searchFlag =>
        (clientSearch messages (nextMsgNum + 1)).map fun found =>
          if (if p.searchNot then !searchFlag else searchFlag) then nextMsgNum :: found else found
    else clientSearch messages (nextMsgNum + 1)

def Agrees (flagged : Bool) : Prop :=
  ∃ fuel outcome, searchMessages fuel flagged p = some outcome ∧
    ∀ searchCmd stringArg, outcome = .install searchCmd stringArg →
      ∃ program, readProgram (sent searchCmd stringArg) = some program ∧
        ∀ folder, clientSearch lib p folder 0 = some (selects program folder)

end Client
end Cone.ImapSearch
