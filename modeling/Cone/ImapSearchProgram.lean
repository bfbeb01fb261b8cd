import Cone.ImapBodystructure
import Mathlib.Data.Prod.Lex

/-! # The SEARCH program of RFC 3501

The part of the grammar of `SEARCH` without parentheses, and the messages that a program selects.
Whether a text is found in a part of a message, and the days of its dates, are properties of the
message. -/
set_option autoImplicit false
namespace Cone.ImapSearch

open Cone.Ctype Cone.Lib.Decimal
open Cone.ImapBodystructure (Text upper)

abbrev Day := ℕ ×ₗ ℕ ×ₗ ℕ

inductive Field where
  | «from» | «to» | cc | bcc | subject | header | anyHeader | body | text
  deriving DecidableEq, Repr

structure Sought where
  field : Field
  name : Text
  charset : Text
  text : Text
  deriving DecidableEq, Repr

structure Message where
  seen : Bool
  answered : Bool
  flagged : Bool
  deleted : Bool
  draft : Bool
  size : Nat
  arrival : Day
  sent : Day
  finds : Sought → Bool

inductive DateKey where
  | before | on | since | sentbefore | senton | sentsince
  deriving DecidableEq, Repr

inductive Key where
  | all | seen | answered | flagged | deleted | draft
  | sequence (lo hi : Nat)
  | string (sought : Sought)
  | date (key : DateKey) (day : Day)
  | larger (n : Nat)
  | smaller (n : Nat)
  | not (key : Key)
  deriving DecidableEq

/-! ## The meaning -/

def DateKey.holds (key : DateKey) (m : Message) (day : Day) : Bool :=
  match key with
  | .before => decide (m.arrival < day)
  | .on => decide (m.arrival = day)
  | .since => decide (day ≤ m.arrival)
  | .sentbefore => decide (m.sent < day)
  | .senton => decide (m.sent = day)
  | .sentsince => decide (day ≤ m.sent)

/-- Sequence numbers begin with 1, and the ends of a range may stand in either order. -/
def Key.holds (position : Nat) (m : Message) : Key → Bool
  | .all => true
  | .seen => m.seen
  | .answered => m.answered
  | .flagged => m.flagged
  | .deleted => m.deleted
  | .draft => m.draft
  | .sequence lo hi => decide (min lo hi ≤ position + 1) && decide (position + 1 ≤ max lo hi)
  | .string sought => m.finds sought
  | .date key day => key.holds m day
  | .larger n => decide (m.size > n)
  | .smaller n => decide (m.size < n)
  | .not key => !key.holds position m

def selects (program : List Key) (folder : List Message) : List Nat :=
  (List.range folder.length).filter fun j => folder[j]?.any fun m => program.all (·.holds j m)

/-! ## The grammar -/

def isAtomChar (c : UInt8) : Bool :=
  decide (SP < c) && decide (c < 0x7F) && !(str "()\x7b%*\"\\]").contains c

def readWord (t : Text) : Text × Text := (t.takeWhile isAtomChar, t.dropWhile isAtomChar)

def readQuoted : Text → Option (Text × Text)
  | [] => none
  | [c] => if c = byte '"' then some ([], []) else none
  | c :: d :: t =>
    if c = byte '"' then some ([], d :: t)
    else if c = byte '\\' then
      if d = byte '"' ∨ d = byte '\\' then (readQuoted t).map fun r => (d :: r.1, r.2) else none
    else if c = NUL ∨ c = CR ∨ c = NL ∨ 0x7F < c then none
    else (readQuoted (d :: t)).map fun r => (c :: r.1, r.2)

def readLiteral (t : Text) : Option (Text × Text) :=
  let ds := t.takeWhile isdigit
  match t.dropWhile isdigit with
  | a :: b :: c :: t =>
    if ds ≠ [] ∧ readDigits ds < 2 ^ 32 ∧ a = byte '\x7d' ∧ b = CR ∧ c = NL ∧
        readDigits ds ≤ t.length ∧ NUL ∉ t.take (readDigits ds) then
      some (t.take (readDigits ds), t.drop (readDigits ds))
    else none
  | _ => none

def readAstring : Text → Option (Text × Text)
  | [] => none
  | c :: t =>
    if c = byte '"' then readQuoted t
    else if c = byte '\x7b' then readLiteral t
    else
      let w := (c :: t).takeWhile fun c => isAtomChar c || c = byte ']'
      if w = [] then none
      else some (w, (c :: t).dropWhile fun c => isAtomChar c || c = byte ']')

def readSP : Text → Option Text
  | [] => none
  | c :: t => if c = SP then some t else none

def readNumber (w : Text) : Option Nat :=
  if w ≠ [] ∧ w.all isdigit ∧ readDigits w < 2 ^ 32 then some (readDigits w) else none

def readNzNumber (w : Text) : Option Nat :=
  if w.head? = some (byte '0') then none else readNumber w

def readSequence (w : Text) : Option Key :=
  match w.dropWhile isdigit with
  | [] => (readNzNumber w).map fun n => .sequence n n
  | c :: hi =>
    if c = byte ':' then
      (readNzNumber (w.takeWhile isdigit)).bind fun lo =>
        (readNzNumber hi).map fun hi => .sequence lo hi
    else none

def months : List Text :=
  ["JAN", "FEB", "MAR", "APR", "MAY", "JUN", "JUL", "AUG", "SEP", "OCT", "NOV", "DEC"].map str

def readDateText (w : Text) : Option Day :=
  let d := w.takeWhile isdigit
  match w.dropWhile isdigit with
  | dash :: a :: b :: c :: dash' :: y =>
    if d ≠ [] ∧ d.length ≤ 2 ∧ dash = byte '-' ∧ dash' = byte '-' ∧ y.length = 4 ∧
        y.all isdigit then
      (months.idxOf? (upper [a, b, c])).map fun m =>
        toLex (readDigits y, toLex (m + 1, readDigits d))
    else none
  | _ => none

def readDate : Text → Option (Day × Text)
  | [] => none
  | c :: t =>
    if c = byte '"' then
      match t.dropWhile (· ≠ byte '"') with
      | [] => none
      | _ :: rest => (readDateText (t.takeWhile (· ≠ byte '"'))).map fun day => (day, rest)
    else
      (readDateText (readWord (c :: t)).1).map fun day => (day, (readWord (c :: t)).2)

inductive Keyword where
  | plain (key : Key)
  | string (field : Field)
  | header
  | date (key : DateKey)
  | larger
  | smaller
  | not

def keywords : List (Text × Keyword) :=
  [(str "ALL", .plain .all), (str "SEEN", .plain .seen), (str "ANSWERED", .plain .answered),
    (str "FLAGGED", .plain .flagged), (str "DELETED", .plain .deleted),
    (str "DRAFT", .plain .draft), (str "FROM", .string .from), (str "TO", .string .to),
    (str "CC", .string .cc), (str "BCC", .string .bcc), (str "SUBJECT", .string .subject),
    (str "BODY", .string .body), (str "TEXT", .string .text), (str "HEADER", .header),
    (str "BEFORE", .date .before), (str "ON", .date .on), (str "SINCE", .date .since),
    (str "SENTBEFORE", .date .sentbefore), (str "SENTON", .date .senton),
    (str "SENTSINCE", .date .sentsince), (str "LARGER", .larger), (str "SMALLER", .smaller),
    (str "NOT", .not)]

def readKey (charset : Text) : Nat → Text → Option (Key × Text)
  | 0, _ => none
  | fuel + 1, t =>
    let (w, rest) := readWord t
    match keywords.lookup (upper w) with
    | some (.plain key) => some (key, rest)
    | some (.string field) =>
      (readSP rest).bind fun t => (readAstring t).map fun r =>
        (.string ⟨field, [], charset, r.1⟩, r.2)
    | some .header =>
      (readSP rest).bind fun t => (readAstring t).bind fun name =>
        (readSP name.2).bind fun t => (readAstring t).map fun r =>
          (.string ⟨.header, name.1, charset, r.1⟩, r.2)
    | some (.date key) =>
      (readSP rest).bind fun t => (readDate t).map fun r => (.date key r.1, r.2)
    | some .larger =>
      (readSP rest).bind fun t => (readNumber (readWord t).1).map fun n =>
        (.larger n, (readWord t).2)
    | some .smaller =>
      (readSP rest).bind fun t => (readNumber (readWord t).1).map fun n =>
        (.smaller n, (readWord t).2)
    | some .not =>
      (readSP rest).bind fun t => (readKey charset fuel t).map fun r => (.not r.1, r.2)
    | none => (readSequence w).map fun key => (key, rest)

def readKeys (charset : Text) : Nat → Text → Option (List Key)
  | 0, _ => none
  | fuel + 1, t =>
    (readKey charset (t.length + 1) t).bind fun r =>
      if r.2 = [] then some [r.1]
      else (readSP r.2).bind fun t => (readKeys charset fuel t).map (r.1 :: ·)

/-- What stands behind `SEARCH`. -/
def readProgram (t : Text) : Option (List Key) :=
  if upper (readWord t).1 = str "CHARSET" then
    (readSP (readWord t).2).bind fun t => (readAstring t).bind fun charset =>
      (readSP charset.2).bind fun t => readKeys charset.1 (t.length + 1) t
  else readKeys [] (t.length + 1) t

end Cone.ImapSearch
