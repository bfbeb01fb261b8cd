import Cone.Rfc822Parsedt
import Cone.Lib.Slots

/-! # Dates, written (`rfc822_mkdt` and `rfc822/rfc822_mkdate.c`)

`gmtime` is the C library's for the proleptic Gregorian calendar from the year 0 on; `localtime`
in a zone is `gmtime` of the shifted time. -/
set_option autoImplicit false
namespace Cone.Rfc822Mkdate

open Cone.Ctype Cone.Lib.Decimal Cone.Lib.Slots Cone.Rfc822Parsedt

/-- `struct tm`; `year` is `tm_year + 1900`. -/
structure Tm where
  wday : Nat
  mday : Nat
  mon : Nat
  year : Nat
  hour : Nat
  min : Nat
  sec : Nat
  deriving DecidableEq, Repr

def yearDays (y : Nat) : Nat := if leap y then 366 else 365

/-- The length of the month `tm_mon`. -/
def monthDays (y m : Nat) : Nat := mdays (m + 1) y

def epochDay : Nat := 719528

def gmtime (t : Int) : Tm :=
  let day := (t / 86400 + epochDay).toNat
  let secs := (t % 86400).toNat
  let year := slot yearDays (day + 1) 0 day
  let month := slot (monthDays year.1) 12 0 year.2
  { wday := (day + 6) % 7
    mday := month.2 + 1
    mon := month.1
    year := year.1
    hour := secs / 3600
    min := secs % 3600 / 60
    sec := secs % 60 }

def weekdays : List (List UInt8) := ["Sun", "Mon", "Tue", "Wed", "Thu", "Fri", "Sat"].map str

/-- `%0wd` of a number that is not negative. -/
def padded (w n : Nat) : List UInt8 :=
  List.replicate (w - (decimal n).length) (byte '0') ++ decimal n

/-- `%s, %02d %s %04d %02d:%02d:%02d ` -/
def stamp (p : Tm) : List UInt8 :=
  weekdays.getD p.wday [] ++ str ", " ++ padded 2 p.mday ++ str " " ++ mnames.getD p.mon [] ++
    str " " ++ padded 4 p.year ++ str " " ++ padded 2 p.hour ++ str ":" ++ padded 2 p.min ++
    str ":" ++ padded 2 p.sec ++ str " "

/-- `%+05d` -/
def signed (n : Int) : List UInt8 := (if n < 0 then byte '-' else byte '+') :: padded 4 n.natAbs

def mkdt (t : Int) : List UInt8 := stamp (gmtime t) ++ str "GMT"

/-- `rfc822_mkdate_buf`; `zone` is `tm_gmtoff`.  An odd number of seconds is as good as none. -/
def mkdateBuf (zone t : Int) : List UInt8 :=
  let offset := if zone.tmod 60 ≠ 0 then 0 else zone
  let p := gmtime (t + offset)
  let offset := offset.tdiv 60
  stamp p ++ signed (offset.tmod 60 + offset.tdiv 60 * 100)

end Cone.Rfc822Mkdate
