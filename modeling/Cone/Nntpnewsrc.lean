import Cone.Linebreak
import Cone.Lib.Decimal
import Cone.Lib.Ranges

/-! # Lines of a newsrc file (`nntpnewsrc.C`)

A call that reads past the end of `msglist`, or writes through an iterator that an insertion has
invalidated, has no defined result: it is `none`. -/
set_option autoImplicit false
namespace Cone.Nntpnewsrc
open Cone.Ctype
open Cone.Lib.Decimal
open Cone.Lib.Ranges
open Cone.Linebreak
open Cone.UnicodeTablookup

/-- The number of values of `msgnum_t`. -/
def msgnums : Nat := 2 ^ 64

/-- `std::vector<std::pair<msgnum_t, msgnum_t> >`, as far as its reallocations matter. -/
structure Msglist where
  elems : List Range
  capacity : Nat

structure Newsrc where
  newsgroupname : List UInt8
  subscribed : Bool
  msglist : Msglist

section Vector
variable (grow : Nat → Nat)

def Msglist.reserve (v : Msglist) : Nat :=
  if v.elems.length = v.capacity then grow v.capacity else v.capacity

def Msglist.insert (v : Msglist) (k : Nat) (r : Range) : Msglist :=
  { elems := v.elems.take k ++ r :: v.elems.drop k, capacity := v.reserve grow }

def Msglist.pushBack (v : Msglist) (r : Range) : Msglist :=
  { elems := v.elems ++ [r], capacity := v.reserve grow }

def Msglist.erase (v : Msglist) (k : Nat) : Msglist := { v with elems := v.elems.eraseIdx k }

def Msglist.store (v : Msglist) (k : Nat) (r : Range) : Msglist :=
  { v with elems := v.elems.set k r }

end Vector

/-! ## Reading a line -/

section Parse
variable (tab : Tables LbClass) (grow : Nat → Nat)

def unicodeIsspace (ch : UInt8) : Bool :=
  ch = 9 || (match lbLookup tab ch.toUInt32 with
    | .BK | .CR | .LF | .NL | .SP => true
    | _ => false)

/-- `std::istringstream`: what is left, and whether `good()` holds. -/
structure Istringstream where
  rest : List UInt8
  good : Bool

/-- The digits of a number behind its sign: `0` when there are none, the largest value when they
are too many; a minus sign counts down from zero. -/
def storeNum (negative : Bool) (digits : List UInt8) : Nat × Istringstream :=
  let rest := digits.dropWhile isdigit
  let n := readDigits digits
  if digits.takeWhile isdigit = [] then (0, { rest := rest, good := false })
  else if msgnums ≤ n then (msgnums - 1, { rest := rest, good := false })
  else ((if negative then msgnums - n else n) % msgnums, { rest := rest, good := rest ≠ [] })

/-- `i >> n` for a `msgnum_t` that is zero before. -/
def extractNum (i : Istringstream) : Nat × Istringstream :=
  if i.good = false then (0, i)
  else match i.rest.dropWhile isspace with
    | 0x2d :: digits => storeNum true digits
    | 0x2b :: digits => storeNum false digits
    | digits => storeNum false digits

/-- `i >> dummy` for a `char`; `none` leaves it as it was. -/
def extractChar (i : Istringstream) : Option UInt8 × Istringstream :=
  if i.good = false then (none, i)
  else match i.rest.dropWhile isspace with
    | [] => (none, { rest := [], good := false })
    | c :: rest => (some c, { rest := rest, good := true })

/-- `i >> firstMsg >> dummy >> lastMsg`; an unset `dummy` goes with `lastMsg=0`, and the value it
has then does not matter. -/
def readRange (range : List UInt8) : Nat × Nat :=
  let first := extractNum { rest := range, good := true }
  let dummy := extractChar first.2
  let last := extractNum dummy.2
  if dummy.1 = some 0x2d ∧ last.1 ≥ first.1 then (first.1, last.1) else (first.1, first.1)

def addRange (v : Msglist) (range : List UInt8) : Msglist :=
  let r := readRange range
  if r.1 > 0 then
    match v.elems.getLast? with
    | none => v.pushBack grow r
    | some ending =>
      if (ending.2 + 1) % msgnums = r.1 then
        v.store (v.elems.length - 1) (ending.1, r.2)
      else if ending.2 ≥ r.1 then v
      else v.pushBack grow r
  else v

def isSeparator (c : UInt8) : Bool := unicodeIsspace tab c || c = 0x2c

/-- `while (b != e)`: the words between spaces and commas. -/
def ranges (s : List UInt8) (v : Msglist) : Msglist :=
  let word := s.dropWhile (isSeparator tab)
  match _h : word with
  | [] => v
  | c :: cs =>
    ranges (cs.dropWhile fun c => !isSeparator tab c)
      (addRange grow v (c :: cs.takeWhile fun c => !isSeparator tab c))
termination_by s.length
decreasing_by
  have short : (s.dropWhile (isSeparator tab)).length ≤ s.length :=
    (List.dropWhile_sublist _).length_le
  have rest : (cs.dropWhile fun c => !isSeparator tab c).length ≤ cs.length :=
    (List.dropWhile_sublist _).length_le
  simp only [word] at _h
  rw [_h, List.length_cons] at short
  omega

/-- `newsrc::newsrc()` -/
def empty : Newsrc :=
  { newsgroupname := [], subscribed := true, msglist := { elems := [], capacity := 0 } }

/-- The loop up to the first `:` or `!`. -/
def groupName (n : Newsrc) (s : List UInt8) : List UInt8 → Newsrc × List UInt8
  | [] => (n, [])
  | c :: cs =>
    if unicodeIsspace tab c then (n, c :: cs)
    else if c = 0x3a then
      ({ n with newsgroupname := s.take (s.length - (cs.length + 1)) }, c :: cs)
    else if c = 0x21 then
      ({ n with subscribed := false, newsgroupname := s.take (s.length - (cs.length + 1)) }, c :: cs)
    else groupName n s cs

/-- `newsrc::newsrc(string s)` -/
def parse (s : List UInt8) : Newsrc :=
  if s = [] ∨ s.head? = some 0x23 then empty
  else
    let r := groupName tab empty s s
    { r.1 with msglist := ranges tab grow r.2 r.1.msglist }

end Parse

/-! ## Marking messages -/

section Marks
variable (grow : Nat → Nat)

/-- The end of `newsrc::read`: `m` comes before all ranges. -/
def readFront (v : Msglist) (m : Nat) : Msglist :=
  match v.elems with
  | r :: rs =>
    if (m + 1) % msgnums ≠ 0 ∧ r.1 ≠ 0 then { v with elems := (r.1 - 1, r.2) :: rs }
    else v.insert grow 0 (m, m)
  | [] => v.insert grow 0 (m, m)

/-- The loop of `newsrc::read`, with `e` behind the first `k` elements. -/
def readLoop (v : Msglist) (m : Nat) : Nat → Option Msglist
  | 0 => some (readFront grow v m)
  | k + 1 => do
    let r ← v.elems[k]?
    if r.1 > m then readLoop v m k
    else if m ≤ r.2 then some v
    else
      let next ← v.elems[k + 1]? -- `e != msglist.end()` holds of every element
      let growThis := (r.2 + 1) % msgnums = m
      let growNext := (m + 1) % msgnums = next.1
      if growThis then
        if growNext then some ((v.store k (r.1, next.2)).erase (k + 1))
        else some (v.store k (r.1, r.2 + 1))
      else if growNext then some (v.store (k + 1) (next.1 - 1, next.2))
      else some (v.insert grow (k + 1) (m, m))

def read (v : Msglist) (m : Nat) : Option Msglist := readLoop grow v m v.elems.length

/-- The loop of `newsrc::unread`. -/
def unreadLoop (v : Msglist) (m : Nat) : Nat → Option Msglist
  | 0 => some v
  | k + 1 => do
    let r ← v.elems[k]?
    if r.2 < m then some v
    else if r.1 > m then unreadLoop v m k
    else if r.1 = r.2 then some (v.erase k)
    else if r.1 = m then some (v.store k (r.1 + 1, r.2))
    else if r.2 = m then some (v.store k (r.1, r.2 - 1))
    else if v.elems.length = v.capacity then none -- `e` is invalid after the insertion
    else some ((v.insert grow (k + 1) (m + 1, r.2)).store k (r.1, m - 1))

def unread (v : Msglist) (m : Nat) : Option Msglist := unreadLoop grow v m v.elems.length

end Marks

end Cone.Nntpnewsrc
