import Cone.Lib.Decimal

/-! # The maildirsize file (`maildir/maildirquota.c`, `numlib/strofft.c`)

The quota on the first line, then one record for each change of the sizes, appended as a whole.
Sums and negations wrap around at the width of their type. -/
set_option autoImplicit false
namespace Cone.Maildirquota

open Cone.Ctype Cone.Lib.Decimal

@[ext]
structure Quota where
  nbytes : Int64
  nmessages : Int32
  deriving DecidableEq, Repr

/-- `struct maildirsize`, the fields that are read from the file. -/
structure Maildirsize where
  quota : Quota
  size : Quota
  recalculationNeeded : Bool
  nlines : Nat
  deriving DecidableEq, Repr

/-! ## Writing -/

def digitsLoop : Nat → Int → List UInt8 → List UInt8
  | 0, _, p => p
  | fuel + 1, t, p =>
    let p := UInt8.ofInt ((byte '0').toNat + t.tmod 10) :: p
    if t.tdiv 10 = 0 then p else digitsLoop fuel (t.tdiv 10) p

def numbufsize : Nat := 60

/-- `libmail_str_int64_t` -/
def strInt64 (t : Int64) : List UInt8 :=
  let isneg := t < 0
  let t := if isneg then -t else t
  let p := digitsLoop (numbufsize - 1) t.toInt []
  if isneg then byte '-' :: p else p

/-- `libmail_str_size_t` -/
def strSize (t : Int) : List UInt8 := digitsLoop (numbufsize - 1) t []

/-- `%12s` -/
def pad12 (s : List UInt8) : List UInt8 := List.replicate (12 - s.length) SP ++ s

def quotaLine (quota : Quota) : List UInt8 :=
  let buf := if quota.nbytes > 0 then strInt64 quota.nbytes ++ [byte 'S'] else []
  let buf :=
    if quota.nmessages > 0 then
      buf ++ (if buf ≠ [] then [byte ','] else []) ++ strSize quota.nmessages.toInt ++ [byte 'C']
    else buf
  buf ++ [NL]

def doaddquota (quota : Quota) (maildirsizeSize : Int64) (maildirsizeCnt : Int32) (isnew : Bool) :
    List UInt8 :=
  (if isnew then quotaLine quota else []) ++
    pad12 (strInt64 maildirsizeSize) ++ [SP] ++ pad12 (strInt64 maildirsizeCnt.toInt64) ++ [NL]

/-! ## Reading -/

def wrap (bits : Nat) (n : Int) : Int := n.bmod (2 ^ bits)

def digitsValue (bits : Nat) (q : List UInt8) : Int :=
  (q.takeWhile isdigit).foldl (fun n c => wrap bits (n * 10 + (c.toNat - (byte '0').toNat : Nat))) 0

def parseLoop : Nat → List UInt8 → Quota → Quota
  | 0, _, q => q
  | _ + 1, [], q => q
  | fuel + 1, c :: quota, q =>
    if isdigit c then
      let i := Int64.ofInt (digitsValue 64 (c :: quota))
      let quota := (c :: quota).dropWhile isdigit
      if quota.head? = some (byte 'S') then parseLoop fuel quota { q with nbytes := i }
      else if quota.head? = some (byte 'C') then
        parseLoop fuel quota { q with nmessages := i.toInt32 }
      else parseLoop fuel quota q
    else parseLoop fuel quota q

def parsequotastr (quota : List UInt8) : Quota := parseLoop quota.length quota ⟨0, 0⟩

def readNumber (bits : Nat) (q : List UInt8) : Option (Int × List UInt8) :=
  let q := q.dropWhile isspace
  let neg := q.head? = some (byte '-')
  let q := if neg then q.tail else q
  if q.head?.any isdigit then
    let n := digitsValue bits q
    some (if neg then wrap bits (-n) else n, q.dropWhile isdigit)
  else none

def readRecord (q : List UInt8) : Option (Int64 × Int32) :=
  match readNumber 64 q with
  | none => none
  | some (n, q) =>
    match readNumber 32 q with
    | none => none
    | some (c, _) => some (Int64.ofInt n, Int32.ofInt c)

def addRecord (info : Maildirsize) (q : List UInt8) : Maildirsize :=
  let info := { info with nlines := info.nlines + 1 }
  match readRecord q with
  | none => info
  | some (n, c) =>
    { info with size := ⟨info.size.nbytes + n, info.size.nmessages + c⟩ }

def readRecords : Nat → List UInt8 → Maildirsize → Maildirsize
  | 0, _, info => info
  | _ + 1, [], info => info
  | fuel + 1, c :: p, info =>
    let line := (c :: p).takeWhile (· ≠ NL)
    readRecords fuel ((c :: p).drop (line.length + 1)) (addRecord info line)

/-- `sizeof(buf)` -/
def bufSize : Nat := 5120

def Maildirsize.zero : Maildirsize := ⟨⟨0, 0⟩, ⟨0, 0⟩, false, 0⟩

/-- `do_maildir_openquotafile` of a file with this text, without a new quota. -/
def openquotafile (file : List UInt8) : Maildirsize :=
  if bufSize ≤ file.length then
    let buf := (file.take (bufSize - 1)).takeWhile fun c => c ≠ NUL && c ≠ NL
    { Maildirsize.zero with quota := parsequotastr buf, recalculationNeeded := true }
  else
    let buf := file.takeWhile (· ≠ NUL)
    if buf = [] then Maildirsize.zero
    else
      let line := buf.takeWhile (· ≠ NL)
      let info := readRecords buf.length (buf.drop (line.length + 1))
        { Maildirsize.zero with quota := parsequotastr line }
      { info with recalculationNeeded := info.size.nbytes < 0 || info.size.nmessages < 0 }

end Cone.Maildirquota
