import Cone.Encode

/-! # Encoded words, written (`rfc822/rfc2047.c`)

`rfc2047_encode_str` in charset utf-8.  The conversions between utf-8 and unicode are exact, so
a string is the list of its characters, and `utf8` is `libmail_u_convert_fromu_tobuf`.  The
function that receives the output keeps it and returns zero.  `graphemeBreak` is
`unicode_grapheme_break`. -/
set_option autoImplicit false
namespace Cone.Rfc2047Encode

open Cone.Ctype Cone.Encode

def utf8 (uc : List Char) : List UInt8 := uc.flatMap String.utf8EncodeChar

def foldLength : Nat := 76

def isSpace (c : Char) : Bool := c = '\t' || c = '\r' || c = '\n' || c = ' '

inductive Method where
  | encodeqp
  | encodebase64
  deriving DecidableEq, Repr

section Functions
variable (qpAllow : UInt8 → Bool) (graphemeBreak : Char → Char → Bool)

/-- `DOENCODEWORD` of a byte. -/
def doEncodeByte (c : UInt8) : Bool :=
  c < 0x20 || 0x7F < c || c = byte '"' || c = byte '_' || c = byte '=' || c = byte '?' || !qpAllow c

def doEncodeWord (c : Char) : Bool := 0x7F < c.toNat || doEncodeByte qpAllow (byte c)

def qpByte (c : UInt8) : List UInt8 :=
  if c = byte ' ' then [byte '_']
  else if doEncodeByte qpAllow c then
    [byte '=', xdigit.getD (c.toNat / 16 % 16) 0, xdigit.getD (c.toNat % 16) 0]
  else [c]

/-- The bytes between the `?Q?` or `?B?` and the `?=`.  `encodebase64` is the loop of
`base64_flush`. -/
def contentOf (method : Method) (ptr : List UInt8) : List UInt8 :=
  match method with
  | .encodeqp => ptr.flatMap (qpByte qpAllow)
  | .encodebase64 => base64Quads ptr

def methodLetter : Method → UInt8
  | .encodeqp => byte 'Q'
  | .encodebase64 => byte 'B'

def charset : List UInt8 := ['u', 't', 'f', '-', '8'].map byte

def encoder (method : Method) (ptr : List UInt8) : List UInt8 :=
  [byte '=', byte '?'] ++ charset ++ [byte '?', methodLetter method, byte '?'] ++
    contentOf qpAllow method ptr ++ [byte '?', byte '=']

def encodeWord (uc : List Char) : Bool × List Char :=
  let word := uc.takeWhile fun c => !isSpace c
  (word.any (doEncodeWord qpAllow), word)

/-- How far `encode_words` goes on from the end of a word that is to be encoded. -/
def moreWords : Nat → List Char → Nat
  | 0, _ => 0
  | fuel + 1, uc =>
    let spaces := uc.takeWhile isSpace
    let r := encodeWord qpAllow (uc.dropWhile isSpace)
    if r.1 then
      let n := spaces.length + r.2.length
      n + moreWords fuel (uc.drop n)
    else 0

def encodeWords (uc : List Char) : Bool × Nat :=
  let r := encodeWord qpAllow uc
  if r.1 then (true, r.2.length + moreWords qpAllow uc.length (uc.drop r.2.length))
  else (false, r.2.length)

/-- The loop for `i`, from `j` down: the last place at or before `j` where the text may be cut. -/
def graphemeCut (uc : List Char) (j : Nat) : Nat → Nat
  | 0 => j
  | i + 1 =>
    if graphemeBreak (uc.getD i '\x00') (uc.getD (i + 1) '\x00') then i + 1
    else graphemeCut uc j i

def wordSize (offset : Nat) (uc : List Char) : Nat :=
  let j := (foldLength - offset) / 2
  if uc.length ≤ j then uc.length else graphemeCut graphemeBreak uc j j

/-- The encoded words of `do_encode_words_method`, without the spaces between them. -/
def encodedWords (method : Method) : Nat → Nat → List Char → List (List UInt8)
  | 0, _, _ => []
  | _ + 1, _, [] => []
  | fuel + 1, offset, c :: uc =>
    let j := wordSize graphemeBreak offset (c :: uc)
    encoder qpAllow method (utf8 ((c :: uc).take j)) ::
      encodedWords method fuel 0 ((c :: uc).drop j)

def doEncodeWordsMethod (method : Method) (offset : Nat) (uc : List Char) : List UInt8 :=
  [byte ' '].intercalate (encodedWords qpAllow graphemeBreak method uc.length offset uc)

def doEncodeWords (flag : Bool) (offset : Nat) (uc : List Char) : List UInt8 :=
  if flag then
    let q := doEncodeWordsMethod qpAllow graphemeBreak .encodeqp offset uc
    let b64 := doEncodeWordsMethod qpAllow graphemeBreak .encodebase64 offset uc
    if q.length < b64.length then q else b64
  else utf8 uc

def encodeCallback : Nat → Nat → List Char → List UInt8
  | 0, _, _ => []
  | _ + 1, _, [] => []
  | fuel + 1, offset, c :: uc =>
    if isSpace c then byte c :: encodeCallback fuel offset uc
    else
      let r := encodeWords qpAllow (c :: uc)
      doEncodeWords qpAllow graphemeBreak r.1 offset ((c :: uc).take r.2) ++
        encodeCallback fuel 0 ((c :: uc).drop r.2)

def encodeStr (str : List Char) : List UInt8 :=
  encodeCallback qpAllow graphemeBreak str.length 27 str

end Functions

/-! ## The characters that a client lets stand in quoted-printable -/

def qpAllowAny (_ : UInt8) : Bool := true

def qpAllowComment (c : UInt8) : Bool := !(c = byte '(' || c = byte ')' || c = byte '"')

def qpAllowWord (c : UInt8) : Bool :=
  c ∈ base64tab || c ∈ ['*', '-', '=', '_'].map byte || c = NUL

end Cone.Rfc2047Encode
