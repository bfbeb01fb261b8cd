import Cone.Lib.Decimal
import Cone.Rfc2045Header

/-! # Parameter values in any charset (`rfc2045/rfc2231encode.c`, `rfc2045/rfc2231.c`)

`rfc2231_attrCreate` writes a value as one quoted parameter, or as numbered and percent-encoded
fragments; `rfc2231_decodeDisposition` puts it together again from the parameters that the
header parser kept. -/
set_option autoImplicit false
namespace Cone.Rfc2231

open Cone.Ctype Cone.Lib.Decimal Cone.Rfc2045Header

/-! ## Writing -/

def doEncode (c : UInt8) : Bool :=
  c ∈ ['(', ')', '\'', '"', '\\', '%', ':', ';', '='].map byte || c ≤ SP || 127 ≤ c

def escape (c : UInt8) : List UInt8 :=
  if doEncode c then
    [byte '%', xdigit.getD (c.toNat / 16 % 16) 0, xdigit.getD (c.toNat % 16) 0]
  else [c]

/-- `sprintf(r, "%s*%d*", name, n)` -/
def fragmentName (name : List UInt8) (n : Nat) : List UInt8 :=
  name ++ byte '*' :: (decimal n ++ [byte '*'])

/-- A cut at `l` moved past the escape that it would split or stand before. -/
def wholeEscape (q : List UInt8) (l : Nat) : Nat :=
  if q[l]? = some (byte '%') then l + 3
  else if l ≠ 0 ∧ q[l - 1]? = some (byte '%') then l + 2
  else if 1 < l ∧ q[l - 2]? = some (byte '%') then l + 1
  else l

/-- How much of `q` goes into the fragment named `r`.  The subtraction is one of `size_t`: a
name longer than 70 leaves room for everything. -/
def fragmentLen (r q : List UInt8) : Nat :=
  wholeEscape q (if r.length ≤ 70 then min q.length (70 - r.length) else q.length)

/-- A parameter as it is handed to `cb_func`. -/
structure Parameter where
  param : List UInt8
  value : List UInt8
  deriving DecidableEq, Repr

/-- The loop of `docreate`, when every call returns zero. -/
def fragments (name : List UInt8) : Nat → Nat → List UInt8 → Option (List Parameter)
  | _, _, [] => some []
  | 0, _, _ :: _ => none
  | fuel + 1, n, c :: q =>
    let r := fragmentName name n
    let l := fragmentLen r (c :: q)
    (fragments name fuel (n + 1) ((c :: q).drop l)).map fun rest =>
      ⟨r, (c :: q).take l⟩ :: rest

def extendedValue (value charset language : List UInt8) : List UInt8 :=
  charset ++ byte '\'' :: (language ++ byte '\'' :: value.flatMap escape)

def plainly (name value : List UInt8) : Bool :=
  !value.any doEncode && name.length + value.length < 75

/-- `rfc2231_attrCreate`, when every call returns zero: the calls, or `none` for the name that
is refused.  `fuel` bounds the number of fragments. -/
def attrCreate (fuel : Nat) (name value charset language : List UInt8) :
    Option (List Parameter) :=
  if 60 < name.length then none
  else if plainly name value then some [⟨name, byte '"' :: (value ++ [byte '"'])⟩]
  else fragments name fuel 0 (extendedValue value charset language)

/-! ## Reading -/

structure Param where
  paramnum : Nat
  encoded : Bool
  value : List UInt8
  deriving DecidableEq, Repr

def paramnumOf (p : List UInt8) : Nat :=
  match p with
  | [] => 0
  | _ :: p => if atoi p + 1 ≤ 0 then 1 else (atoi p + 1).toNat

/-- `strrchr(attrName, '*')` is at the end. -/
def endsInStar (attrName : List UInt8) : Bool := attrName.getLast? = some (byte '*')

def insertParam (n : Param) : List Param → List Param
  | [] => [n]
  | o :: rest => if n.paramnum < o.paramnum then n :: o :: rest else o :: insertParam n rest

def buildAttrList (name : List UInt8) (paramList : List Param) (attr : Attr) : List Param :=
  let p := attr.name.drop name.length
  if name.isPrefixOf attr.name ∧ (p = [] ∨ p.head? = some (byte '*')) then
    insertParam ⟨paramnumOf p, endsInStar attr.name, attr.value⟩ paramList
  else paramList

/-- `rfc2231_xdigit` -/
def xdigits : List UInt8 := xdigit ++ ['a', 'b', 'c', 'd', 'e', 'f'].map byte

def nyb (c : UInt8) : Nat :=
  match strchr xdigits c with
  | none => 0
  | some n => if 16 ≤ n then n - 6 else n

def decodeText (encoded : Bool) : List UInt8 → List UInt8
  | c :: a :: b :: p =>
    if c = byte '%' ∧ encoded = true then
      UInt8.ofNat (nyb a * 16 + nyb b) :: decodeText encoded p
    else c :: decodeText encoded (a :: b :: p)
  | c :: p => c :: decodeText encoded p
  | [] => []

structure Decoded where
  charset : List UInt8
  language : List UInt8
  text : List UInt8
  deriving DecidableEq, Repr

/-- The `charset'language'` in front of the first value, and what follows it. -/
def splitCharset (p : List UInt8) : List UInt8 × List UInt8 × List UInt8 :=
  match p.dropWhile (· ≠ byte '\'') with
  | [] => ([], [], p)
  | _ :: q =>
    match q.dropWhile (· ≠ byte '\'') with
    | [] => ([], [], p)
    | _ :: text => (p.takeWhile (· ≠ byte '\''), q.takeWhile (· ≠ byte '\''), text)

def paramDecode (paramList : List Param) : Decoded :=
  -- of a plain parameter and numbered ones, the numbered ones are better
  let paramList :=
    match paramList with
    | p :: q :: rest => if p.paramnum = 0 then q :: rest else p :: q :: rest
    | ps => ps
  match paramList with
  | [] => ⟨[], [], []⟩
  | p :: rest =>
    let s := if p.encoded then splitCharset p.value else ([], [], p.value)
    ⟨s.1, s.2.1, decodeText p.encoded s.2.2 ++ rest.flatMap fun q => decodeText q.encoded q.value⟩

def decode (attrs : List Attr) (name : List UInt8) : Decoded :=
  paramDecode (attrs.foldl (buildAttrList name) [])

def decodeType (h : Headers) (name : List UInt8) : Decoded := decode h.contentTypeAttr name

def decodeDisposition (h : Headers) (name : List UInt8) : Decoded :=
  decode h.contentDispositionAttr name

end Cone.Rfc2231
