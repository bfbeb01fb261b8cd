import Cone.Ctype

/-! # Modified UTF-7 (`unicode/unicode.c`)

The two modules of a conversion stack that turn UCS-2 into the names of IMAP folders and back.
What they hand to the next module is accepted: it returns zero. -/
set_option autoImplicit false
namespace Cone.Utf7

open Cone.Ctype

def mbase64 : List UInt8 :=
  ['A', 'B', 'C', 'D', 'E', 'F', 'G', 'H', 'I', 'J', 'K', 'L', 'M', 'N', 'O', 'P',
   'Q', 'R', 'S', 'T', 'U', 'V', 'W', 'X', 'Y', 'Z', 'a', 'b', 'c', 'd', 'e', 'f',
   'g', 'h', 'i', 'j', 'k', 'l', 'm', 'n', 'o', 'p', 'q', 'r', 's', 't', 'u', 'v',
   'w', 'x', 'y', 'z', '0', '1', '2', '3', '4', '5', '6', '7', '8', '9', '+', ','].map byte

def mbase64Char (n : Nat) : UInt8 := mbase64.getD n 0

/-! ## Encoding -/

/-- `struct libmail_u_convert_toimaputf7`, and what its output function was given. -/
structure ToUtf7 where
  out : List UInt8
  utf7encodebuf : List UInt8
  utf7bits : Nat
  utf7bitcount : Nat
  utfmode : Bool
  smapmunge : List UInt8
  deriving DecidableEq, Repr

/-- `sizeof(utf7encodebuf)` -/
def encodebufSize : Nat := 1024

/-- `libmail_u_convert_init`: the charset name has room for 15 more characters to be munged. -/
def ToUtf7.init (smapmunge : List UInt8) : ToUtf7 := ⟨[], [], 0, 0, false, smapmunge.take 15⟩

def encodeFlush (p : ToUtf7) : ToUtf7 :=
  { p with out := p.out ++ p.utf7encodebuf, utf7encodebuf := [] }

def encodeAdd (p : ToUtf7) (c : UInt8) : ToUtf7 :=
  let p := if encodebufSize ≤ p.utf7encodebuf.length then encodeFlush p else p
  { p with utf7encodebuf := p.utf7encodebuf ++ [c] }

def utf7off (toutf7 : ToUtf7) : ToUtf7 :=
  if toutf7.utfmode = false then toutf7
  else
    let toutf7 := { toutf7 with utfmode := false }
    let toutf7 :=
      if 0 < toutf7.utf7bitcount then
        encodeAdd toutf7 (mbase64Char (toutf7.utf7bits * 2 ^ (6 - toutf7.utf7bitcount) % 64))
      else toutf7
    encodeAdd toutf7 (byte '-')

def emitLoop : Nat → ToUtf7 → ToUtf7
  | 0, toutf7 => toutf7
  | fuel + 1, toutf7 =>
    if 6 ≤ toutf7.utf7bitcount then
      let n := toutf7.utf7bitcount - 6
      let toutf7 := { toutf7 with utf7bitcount := n }
      emitLoop fuel (encodeAdd toutf7 (mbase64Char (toutf7.utf7bits / 2 ^ n % 64)))
    else toutf7

/-- The character is its own encoding. -/
def isPlain (toutf7 : ToUtf7) (utext : UInt16) : Bool :=
  0x20 ≤ utext && utext ≤ 0x7F && !toutf7.smapmunge.contains utext.toUInt8

def convertBits (toutf7 : ToUtf7) (utext : UInt16) : ToUtf7 :=
  let toutf7 :=
    { toutf7 with
      utf7bits := (toutf7.utf7bits * 2 ^ 16 + utext.toNat) % 2 ^ 32
      utf7bitcount := toutf7.utf7bitcount + 16 }
  emitLoop toutf7.utf7bitcount toutf7

/-- One round of the loop of `do_convert_toutf7`, or two when a shift begins. -/
def convertUnit (toutf7 : ToUtf7) (utext : UInt16) : ToUtf7 :=
  if isPlain toutf7 utext then
    let toutf7 := encodeAdd (utf7off toutf7) utext.toUInt8
    if utext.toUInt8 = byte '&' then encodeAdd toutf7 (byte '-') else toutf7
  else if toutf7.utfmode = false then
    convertBits (encodeAdd { toutf7 with utfmode := true, utf7bitcount := 0 } (byte '&')) utext
  else convertBits toutf7 utext

def doConvertToutf7 (toutf7 : ToUtf7) (text : List UInt16) : ToUtf7 := text.foldl convertUnit toutf7

def deinitToimaputf7 (toutf7 : ToUtf7) : List UInt8 :=
  (encodeFlush (utf7off toutf7)).out

def toImap (smapmunge : List UInt8) (texts : List (List UInt16)) : List UInt8 :=
  deinitToimaputf7 (texts.foldl doConvertToutf7 (ToUtf7.init smapmunge))

/-! ## Decoding -/

/-- `struct libmail_u_convert_fromimaputf7`, and what the next module was given. -/
structure FromUtf7 where
  out : List UInt16
  convbuf : List UInt16
  modbits : Nat
  modcnt : Nat
  seenamp : Bool
  inmod : Bool
  errflag : Int
  deriving DecidableEq, Repr

def FromUtf7.init : FromUtf7 := ⟨[], [], 0, 0, false, false, 0⟩

def convbufSize : Nat := 512

/-- `convert_fromutf7_flush`, which sets `errflag` to the zero of the next module. -/
def fromFlush (p : FromUtf7) : FromUtf7 :=
  { p with out := p.out ++ p.convbuf, convbuf := [], errflag := 0 }

/-- `convert_fromutf7_add` -/
def fromAdd (p : FromUtf7) (c : UInt16) : FromUtf7 :=
  let p := if convbufSize ≤ p.convbuf.length then fromFlush p else p
  { p with convbuf := p.convbuf ++ [c] }

def mbase64Lookup (c : UInt8) : Option Nat := mbase64.idxOf? c

/-- `((uint16_t)*text) & 0xFFFF` of a signed `char`. -/
def charUnit (c : UInt8) : UInt16 := if c < 0x80 then c.toUInt16 else c.toUInt16 + 0xFF00

def fromSextet (fromutf7 : FromUtf7) (bits : Nat) : FromUtf7 :=
  let fromutf7 :=
    { fromutf7 with
      modbits := (fromutf7.modbits * 2 ^ 6 + bits) % 2 ^ 32
      modcnt := fromutf7.modcnt + 6 }
  if 16 ≤ fromutf7.modcnt then
    let shiftcnt := fromutf7.modcnt - 16
    fromAdd { fromutf7 with modcnt := shiftcnt } (UInt16.ofNat (fromutf7.modbits / 2 ^ shiftcnt))
  else fromutf7

/-- What follows the tests of `seenamp`. -/
def fromText (fromutf7 : FromUtf7) (text : UInt8) : FromUtf7 :=
  if fromutf7.inmod = false then fromAdd fromutf7 (charUnit text)
  else if text = byte '-' then { fromutf7 with inmod := false }
  else
    match mbase64Lookup text with
    | none => { fromutf7 with errflag := -1 }
    | some bits => fromSextet fromutf7 bits

/-- One round of the loop of `convert_fromutf7`, which returns at once when `errflag` is set. -/
def convertChar (fromutf7 : FromUtf7) (text : UInt8) : FromUtf7 :=
  if fromutf7.errflag ≠ 0 then fromutf7
  else if fromutf7.seenamp = false ∧ text = byte '&' then
    { fromutf7 with seenamp := true, inmod := false, modcnt := 0 }
  else if fromutf7.seenamp then
    if text = byte '-' then { fromAdd fromutf7 (charUnit (byte '&')) with seenamp := false }
    else fromText { fromutf7 with seenamp := false, inmod := true } text
  else fromText fromutf7 text

def convertFromutf7 (fromutf7 : FromUtf7) (text : List UInt8) : FromUtf7 :=
  text.foldl convertChar fromutf7

def deinitFromutf7 (fromutf7 : FromUtf7) : Int × List UInt16 :=
  let fromutf7 :=
    if (fromutf7.seenamp || fromutf7.inmod) && fromutf7.errflag = 0 then
      { fromutf7 with errflag := -1 }
    else fromutf7
  let fromutf7 := if fromutf7.convbuf ≠ [] then fromFlush fromutf7 else fromutf7
  (fromutf7.errflag, fromutf7.out)

def fromImap (texts : List (List UInt8)) : Int × List UInt16 :=
  deinitFromutf7 (texts.foldl convertFromutf7 FromUtf7.init)

end Cone.Utf7
