import Cone.Lib.Decimal

/-! # Dates, read (`rfc822/rfc822_parsedt.c`)

A C string is the list of its characters before the terminating zero; `unsigned` is 32 bits
wide, `time_t` wide enough. -/
set_option autoImplicit false
namespace Cone.Rfc822Parsedt

open Cone.Ctype Cone.Lib.Decimal

def isAlpha (c : UInt8) : Bool := (byte 'a' ≤ c && c ≤ byte 'z') || (byte 'A' ≤ c && c ≤ byte 'Z')

def isAlnum (c : UInt8) : Bool := isAlpha c || isdigit c

/-- `my_isspace` -/
def isBlank (c : UInt8) : Bool := c = SP || c = TAB || c = CR || c = NL

def lc (c : UInt8) : UInt8 := if byte 'A' ≤ c ∧ c ≤ byte 'Z' then c + (byte 'a' - byte 'A') else c

/-- The number, from `i` on, and what follows it. -/
def parsedig : Nat → List UInt8 → Nat × List UInt8
  | i, [] => (i, [])
  | i, c :: p =>
    if isdigit c then parsedig ((i * 10 + c.toNat - (byte '0').toNat) % 2 ^ 32) p else (i, c :: p)

def mnames : List (List UInt8) :=
  ["Jan", "Feb", "Mar", "Apr", "May", "Jun", "Jul", "Aug", "Sep", "Oct", "Nov", "Dec"].map str

def leap (y : Nat) : Prop := y % 400 = 0 ∨ (y % 4 = 0 ∧ y % 100 ≠ 0)

instance (y : Nat) : Decidable (leap y) := inferInstanceAs (Decidable (_ ∨ _))

def mlength : List Nat := [31, 28, 31, 30, 31, 30, 31, 31, 30, 31, 30, 31]

def mdays (m y : Nat) : Nat := if m ≠ 2 then mlength.getD (m - 1) 0 else if leap y then 29 else 28

def zonenames : List (List UInt8) :=
  ["UT", "GMT", "EST", "EDT", "CST", "CDT", "MST", "MDT", "PST", "PDT", "Z", "A", "B", "C", "D",
    "E", "F", "G", "H", "I", "K", "L", "M", "N", "O", "P", "Q", "R", "S", "T", "U", "V", "W", "X",
    "Y"].map str

/-- `ZH` -/
def zoneHours (n : Int) : Int := n * 60 * 60

def zoneoffset : List Int :=
  [0, 0, -5, -4, -6, -5, -7, -6, -8, -7, 0, -1, -2, -3, -4, -5, -6, -7, -8, -9, -10, -11, -12, 1, 2,
    3, 4, 5, 6, 7, 8, 9, 10, 11, 12].map zoneHours

def afterKey : List UInt8 → List UInt8 → Option (List UInt8)
  | [], p => some p
  | _ :: _, [] => none
  | k :: key, c :: p => if lc k = lc c then afterKey key p else none

/-- The number of the first key that the text begins with, from one, and what follows it. -/
def parsekey : List (List UInt8) → List UInt8 → Nat × List UInt8
  | [], p => (0, p)
  | key :: ary, p =>
    match afterKey key p with
    | some rest => (1, rest)
    | none =>
      let r := parsekey ary p
      if r.1 = 0 then r else (r.1 + 1, r.2)

def parsetime (t : List UInt8) : Option (Nat × List UInt8) :=
  if (t.head?.map isdigit) ≠ some true then none
  else
    let (h, t) := parsedig 0 t
    if h > 23 then none
    else
      match t with
      | [] => none
      | c :: t =>
        if c ≠ byte ':' ∨ (t.head?.map isdigit) ≠ some true then none
        else
          let (m, t) := parsedig 0 t
          match t with
          | [] => if m > 59 then none else some (h * 60 * 60 + m * 60, [])
          | c :: t' =>
            if c = byte ':' then
              if (t'.head?.map isdigit) ≠ some true then none
              else
                let (s, t) := parsedig 0 t'
                if m > 59 ∨ s > 59 then none else some (h * 60 * 60 + m * 60 + s, t)
            else if m > 59 then none
            else some (h * 60 * 60 + m * 60, c :: t')

/-- The first loop of `rfc822_parsedt`, until it has the day and the month.  Each round takes a
character at least. -/
def dayAndMonth : Nat → Nat → Nat → List UInt8 → Option (Nat × Nat × List UInt8)
  | fuel, day, mon, p =>
    if day ≠ 0 ∧ mon ≠ 0 then some (day, mon, p)
    else
      match fuel, p with
      | 0, _ => none
      | _ + 1, [] => none
      | fuel + 1, c :: q =>
        if isAlpha c then
          if mon ≠ 0 then none
          else
            let r := parsekey mnames (c :: q)
            if r.1 = 0 then dayAndMonth fuel day 0 (r.2.dropWhile isAlpha)
            else dayAndMonth fuel day r.1 r.2
        else if isdigit c then
          if day ≠ 0 then none
          else
            let r := parsedig 0 (c :: q)
            if r.1 = 0 then none else dayAndMonth fuel r.1 mon r.2
        else dayAndMonth fuel day mon q

def century (year : Nat) : Nat :=
  let year := if year < 70 then year + 2000 else year
  if year < 100 then year + 1900 else year

def parsezone (rfcdt : List UInt8) : Int :=
  let p := rfcdt.dropWhile fun c => !(isAlnum c || c = byte '+' || c = byte '-')
  match p with
  | [] => 0
  | c :: q =>
    if isAlpha c then
      let n := (parsekey zonenames p).1
      if n > 0 then zoneoffset.getD (n - 1) 0 else 0
    else
      let sign : Int := if c = byte '-' then -1 else 1
      let p := if c = byte '-' ∨ c = byte '+' then q else p
      if (p.head?.map isdigit) = some true then
        let n := (parsedig 0 p).1
        let n := if n > 2359 ∨ n % 100 > 59 then 0 else n
        sign * ((n % 100) * 60 + n / 100 * 60 * 60 : Nat)
      else 0

def yearLoop : Nat → Nat → Nat → Int → Int
  | 0, _, _, t => t
  | fuel + 1, y, year, t =>
    if y < year then
      if leap y then
        if year - y ≥ 4 then yearLoop fuel (y + 4) year (t + (365 * 3 + 366) * 24 * 60 * 60)
        else yearLoop fuel (y + 1) year (t + 24 * 60 * 60 + 365 * 24 * 60 * 60)
      else yearLoop fuel (y + 1) year (t + 365 * 24 * 60 * 60)
    else t

def monthLoop : Nat → Nat → Nat → Nat → Int → Int
  | 0, _, _, _, t => t
  | fuel + 1, y, mon, year, t =>
    if y < mon then monthLoop fuel (y + 1) mon year (t + mdays y year * 24 * 60 * 60) else t

def parsedt (rfcdt : List UInt8) : Int :=
  match dayAndMonth rfcdt.length 0 0 rfcdt with
  | none => 0
  | some (day, mon, rfcdt) =>
    let rfcdt := rfcdt.dropWhile isBlank
    if (rfcdt.head?.map isdigit) ≠ some true then 0
    else
      let (year, rfcdt) := parsedig 0 rfcdt
      let year := century year
      let rfcdt := rfcdt.dropWhile isBlank
      if day = 0 ∨ mon = 0 ∨ mon > 12 ∨ day > mdays mon year then 0
      else
        match parsetime rfcdt with
        | none => 0
        | some (secs, rfcdt) =>
          let offset := parsezone rfcdt
          if year < 1970 then 0
          else if year > 9999 then 0
          else
            let t := yearLoop (year - 1970) 1970 year 0
            let t := monthLoop (mon - 1) 1 mon year t
            t + (day - 1) * 24 * 60 * 60 + secs - offset

end Cone.Rfc822Parsedt
