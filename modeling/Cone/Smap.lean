import Cone.ImapSearch

/-! # SMAP replies

libmail/smap.C and the dispatcher of libmail/imap.C.  One handler at a time waits for the replies
of an SMAP server, and the ones that a session installs one after the other are taken as one here;
`accepts` is what its `ok`, `fail` and `processLine` return, except for the start of a multiline
response, which no handler takes for itself, and depends on what it took before.  What it does with
what it sees is left out, and so are timeouts. -/
set_option autoImplicit false
namespace Cone.Smap

open Cone.Ctype Cone.Lib.Decimal
open Cone.ImapSearch (unicode_isspace)

abbrev Text := List UInt8

section Replies

inductive Reply where
  | ok (s : Text)
  | fail (s : Text)
  | words (ws : List Text)
  deriving DecidableEq, Repr

def quoted : Text → Text × Text
  | [] => ([], [])
  | [c] => if c = byte '"' then ([], []) else ([c], [])
  | c :: d :: p =>
    if c = byte '"' then
      if d = byte '"' then
        let r := quoted p
        (c :: r.1, r.2)
      else ([], d :: p)
    else
      let r := quoted (d :: p)
      (c :: r.1, r.2)

theorem quoted_length_le : ∀ p : Text, (quoted p).2.length ≤ p.length
  | [] => Nat.le_refl _
  | [c] => by
      rw [quoted]
      split <;> exact Nat.zero_le _
  | c :: d :: p => by
      have hescaped := quoted_length_le p
      have hplain := quoted_length_le (d :: p)
      rw [List.length_cons] at hplain
      rw [quoted, List.length_cons, List.length_cons]
      split
      · split
        · exact Nat.le_trans hescaped (by omega)
        · exact Nat.le_succ _
      · exact Nat.le_trans hplain (Nat.le_succ _)

def trimEnd (s : Text) : Text := (s.reverse.dropWhile unicode_isspace).reverse

/-- A word is a C string of the line's copy, so it ends at a NUL. -/
def cstr (p : Text) : Text := p.takeWhile (· ≠ NUL)

def parseWords (words : List Text) (p : Text) : Reply :=
  match p with
  | [] => .words words
  | c :: q =>
    if unicode_isspace c then parseWords words q
    else if words = [str "+OK"] then .ok (trimEnd (c :: q))
    else if words = [str "-ERR"] then .fail (trimEnd (c :: q))
    else if c ≠ byte '"' then
      parseWords (words ++ [cstr (c :: q.takeWhile (!unicode_isspace ·))])
        ((q.dropWhile (!unicode_isspace ·)).drop 1)
    else parseWords (words ++ [cstr (quoted q).1]) (quoted q).2
  termination_by p.length
  decreasing_by
    · exact Nat.lt_succ_self _
    · have h := (List.dropWhile_suffix (!unicode_isspace ·) (l := q)).length_le
      simp only [List.length_drop, List.length_cons]
      omega
    · exact Nat.lt_succ_of_le (quoted_length_le q)

/-- `i >> n` for an `unsigned long`: the number, whether it was read, and what follows. -/
def extract (p : Text) : Nat × Bool × Text :=
  let p := p.dropWhile isspace
  let negative := p.head? = some (byte '-')
  let q := if negative ∨ p.head? = some (byte '+') then p.drop 1 else p
  let digits := q.takeWhile isdigit
  let rest := q.dropWhile isdigit
  let n := digits.foldl (fun n c => 10 * n + (c.toNat - (byte '0').toNat)) 0
  if digits = [] then (0, false, rest)
  else if n ≥ 2 ^ 64 then (2 ^ 64 - 1, false, rest)
  else (if negative then (2 ^ 64 - n) % 2 ^ 64 else n, true, rest)

/-- `i >> dummy >> n`, where `n` was 0 -/
def extractBehind (p : Text) : Nat :=
  match p.dropWhile isspace with
  | [] => 0
  | _ :: q => (extract q).1

end Replies

section Account

inductive Protocol where
  | singleLine
  | multiLineDotStuffed
  | multiLineBinary
  deriving DecidableEq, Repr

/-- What the handlers keep in the `imap` account: the function that takes the next bytes, and what
is left of a chunk. -/
structure Account where
  smapProtocolHandlerFunc : Protocol
  smapBinaryCount : Nat
  deriving DecidableEq, Repr

inductive Seen where
  | answered (reply : Reply) (taken : Bool)
  | beginProcessData (words : List Text) (estimate : Nat)
  | processData (data : Text)
  | endData
  deriving DecidableEq, Repr

abbrev Processed := Nat × Account × List Seen

def beginning (reply : Reply) (s : Account) : Option (Account × List Text × Nat) :=
  match reply with
  | .words ((c :: p) :: ws) =>
    if c ≠ byte '\x7b' then none
    else if p.head? = some (byte '.') then
      some ({ s with smapProtocolHandlerFunc := .multiLineDotStuffed }, ws, (extract (p.drop 1)).1)
    else
      let first := extract p
      some ({ s with smapProtocolHandlerFunc := .multiLineBinary, smapBinaryCount := first.1 },
        ws, if first.2.1 then extractBehind first.2.2 else 0)
  | _ => none

section Handler
variable (accepts : Reply → Bool)

def takes (reply : Reply) : Bool := reply = .words [] || accepts reply

def singleLine (s : Account) (line : Text) : Bool × Account × List Seen :=
  let reply := parseWords [] (line ++ [NL])
  match beginning reply s with
  | some (s, words, estimate) =>
    (true, s, [.answered reply true, .beginProcessData words estimate])
  | none => (takes accepts reply, s, [.answered reply (takes accepts reply)])

def singleLineProcess (s : Account) (buffer : Text) : Processed :=
  if NL ∉ buffer then (0, s, [])
  else
    let line := buffer.takeWhile (· ≠ NL)
    let r := singleLine accepts s line
    (if r.1 then line.length + 1 else 0, r.2)

def dotStuffedLine (s : Account) (line : Text) : Account × List Seen :=
  let line := if line.getLast? = some CR then line.dropLast else line
  if line.head? = some (byte '.') then
    if line.drop 1 = [] then ({ s with smapProtocolHandlerFunc := .singleLine }, [.endData])
    else (s, [.processData (line.drop 1 ++ [NL])])
  else (s, [.processData (line ++ [NL])])

def multiLineProcessDotStuffed (s : Account) (buffer : Text) : Processed :=
  if NL ∉ buffer then (0, s, [])
  else
    let line := buffer.takeWhile (· ≠ NL)
    (line.length + 1, dotStuffedLine s line)

def chunkLine (s : Account) (line : Text) : Account × List Seen :=
  let nextChunk := extract (line ++ [NL])
  if !nextChunk.2.1 || nextChunk.1 = 0 then
    ({ s with smapProtocolHandlerFunc := .singleLine }, [.endData])
  else ({ s with smapBinaryCount := nextChunk.1 }, [])

def multiLineProcessBinary (s : Account) (buffer : Text) : Processed :=
  if s.smapBinaryCount = 0 then
    if NL ∉ buffer then (0, s, [])
    else
      let line := buffer.takeWhile (· ≠ NL)
      (line.length + 1, chunkLine s line)
  else if s.smapBinaryCount ≥ buffer.length then
    (buffer.length, { s with smapBinaryCount := s.smapBinaryCount - buffer.length },
      [.processData buffer])
  else
    (s.smapBinaryCount, { s with smapBinaryCount := 0 },
      [.processData (buffer.take s.smapBinaryCount)])

def process (s : Account) (buffer : Text) : Processed :=
  match s.smapProtocolHandlerFunc with
  | .singleLine => singleLineProcess accepts s buffer
  | .multiLineDotStuffed => multiLineProcessDotStuffed s buffer
  | .multiLineBinary => multiLineProcessBinary s buffer

end Handler

structure Imap where
  account : Account
  current_handler : Bool
  seen : List (Bool × Seen)
  deriving DecidableEq, Repr

def Seen.refused : Seen → Bool
  | .answered _ taken => !taken
  | _ => false

def bytewise (seen : List Seen) : List Seen :=
  seen.flatMap fun
    | .processData data => data.map fun c => .processData [c]
    | other => [other]

def pieces (seen : List (Bool × Seen)) : List Seen :=
  bytewise ((seen.filter fun call => !(call.1 && call.2.refused)).map Prod.snd)

variable (accepts : List Seen → Reply → Bool)

/-- `mail::imap::socketRead`: the handler is tried as the current one and as one of the list.  A
line that it does not take is the account's, and too long a beginning of one is dropped. -/
def socketRead (i : Imap) (buffer : Text) : Nat × Imap :=
  let tried :=
    if i.current_handler then process (accepts (pieces i.seen)) i.account buffer
    else (0, i.account, [])
  let seen := i.seen ++ tried.2.2.map (Prod.mk true)
  if tried.1 > 0 then (tried.1, ⟨tried.2.1, i.current_handler, seen⟩)
  else
    let listed := process (accepts (pieces seen)) tried.2.1 buffer
    let seen := seen ++ listed.2.2.map (Prod.mk false)
    if listed.1 > 0 then (listed.1, ⟨listed.2.1, true, seen⟩)
    else
      (if NL ∉ buffer then (if buffer.length > 16000 then buffer.length - 16000 else 0)
        else (buffer.takeWhile (· ≠ NL)).length + 1,
        ⟨listed.2.1, false, seen⟩)

/-- The loop of `mail::fd::process` over what was read. -/
def readLoop : Nat → Imap → Text → Imap × Text
  | 0, i, buffer => (i, buffer)
  | fuel + 1, i, buffer =>
    if buffer = [] then (i, buffer)
    else
      let r := socketRead accepts i buffer
      if r.1 = 0 then (r.2, buffer) else readLoop fuel r.2 (buffer.drop r.1)

def session : Imap → Text → List Text → Imap × Text
  | i, buffer, [] => (i, buffer)
  | i, buffer, read :: reads =>
    let r := readLoop accepts (buffer ++ read).length i (buffer ++ read)
    session r.1 r.2 reads

end Account
end Cone.Smap
