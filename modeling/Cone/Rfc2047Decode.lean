import Cone.Lib.Radix64
import Cone.Rfc2231

/-! # Encoded words, read (`rfc822/rfc2047u.c`) -/
set_option autoImplicit false
namespace Cone.Rfc2047Decode

open Cone.Ctype Cone.Lib.Radix64 Cone.Rfc2231

def decode64tab : List Nat := [
  0,0,0,0,0,0,0,0,0,0,0,0,0,0,0,0,
  0,0,0,0,0,0,0,0,0,0,0,0,0,0,0,0,
  0,0,0,0,0,0,0,0,0,0,0,62,0,0,0,63,
  52,53,54,55,56,57,58,59,60,61,0,0,0,99,0,0,
  0,0,1,2,3,4,5,6,7,8,9,10,11,12,13,14,
  15,16,17,18,19,20,21,22,23,24,25,0,0,0,0,0,
  0,26,27,28,29,30,31,32,33,34,35,36,37,38,39,40,
  41,42,43,44,45,46,47,48,49,50,51,0,0,0,0,0]

def decode64 (c : UInt8) : Nat := decode64tab.getD c.toNat 0

def decodebase64 : List UInt8 → List UInt8
  | c0 :: c1 :: c2 :: c3 :: ptr =>
    [UInt8.ofNat (octet0 (decode64 c0) (decode64 c1))] ++
      (if c2 ≠ byte '=' then [UInt8.ofNat (octet1 (decode64 c1) (decode64 c2))] else []) ++
      (if c3 ≠ byte '=' then [UInt8.ofNat (octet2 (decode64 c2) (decode64 c3))] else []) ++
      decodebase64 ptr
  | _ => []

/-- The loop over a `Q` content.  An escape at its end takes its digits from the `?=` behind it,
whose characters count as zero. -/
def decodeqp : List UInt8 → List UInt8
  | [] => []
  | c :: ptr =>
    if c = byte '=' then
      match ptr with
      | a :: b :: ptr => UInt8.ofNat (nyb a * 16 + nyb b) :: decodeqp ptr
      | [a] => [UInt8.ofNat (nyb a * 16)]
      | [] => [0]
    else (if c = byte '_' then byte ' ' else c) :: decodeqp ptr

structure Call where
  chset : List UInt8
  lang : List UInt8
  content : List UInt8
  deriving DecidableEq, Repr

/-- The text before the first `?=`, and what follows it. -/
def splitAtEnd : List UInt8 → Option (List UInt8 × List UInt8)
  | [] => none
  | c :: str =>
    if c = byte '?' ∧ str.head? = some (byte '=') then some ([], str.drop 1)
    else (splitAtEnd str).map fun r => (c :: r.1, r.2)

/-- The text before the first `?`, and what follows it. -/
def splitAtMark (str : List UInt8) : Option (List UInt8 × List UInt8) :=
  match str.dropWhile (· ≠ byte '?') with
  | [] => none
  | _ :: rest => some (str.takeWhile (· ≠ byte '?'), rest)

/-- `rfc822_decode_rfc2047_atom`: the call, and the text behind the encoded word; `none` where it
returns zero. -/
def decodeAtom : List UInt8 → Option (Call × List UInt8)
  | c :: d :: str =>
    if c = byte '=' ∧ d = byte '?' then
      match splitAtMark str with
      | none => none
      | some (chset, str) =>
        match splitAtMark str with
        | none => none
        | some (enc, str) =>
          match splitAtEnd str with
          | none => none
          | some (content, rest) =>
            let call (text : List UInt8) : Call :=
              ⟨chset.takeWhile (· ≠ byte '*'), (chset.dropWhile (· ≠ byte '*')).drop 1, text⟩
            if enc.head? = some (byte 'q') ∨ enc.head? = some (byte 'Q') then
              some (call (decodeqp content), rest)
            else if enc.head? = some (byte 'b') ∨ enc.head? = some (byte 'B') then
              some (call (decodebase64 content), rest)
            else none
    else none
  | _ => none

def iso88591 : List UInt8 := ['i', 's', 'o', '-', '8', '8', '5', '9', '-', '1'].map byte

def plainCall (text : List UInt8) : Call := ⟨iso88591, [], text⟩

def splitAtWord : List UInt8 → List UInt8 × List UInt8
  | [] => ([], [])
  | c :: text =>
    if c = byte '=' ∧ text.head? = some (byte '?') then ([], c :: text)
    else ((c :: (splitAtWord text).1), (splitAtWord text).2)

def between (c : UInt8) : Bool := c = SP || c = TAB || c = CR || c = NL

/-- White space after an encoded word is dropped when another one follows. -/
def skipBetween (text : List UInt8) : List UInt8 :=
  let next := text.dropWhile between
  if (decodeAtom next).isSome then next else text

/-- `rfc2047_decoder`: the calls. -/
def decoder : Nat → List UInt8 → List Call
  | 0, _ => []
  | fuel + 1, text =>
    let r := splitAtWord text
    (if r.1 = [] then [] else [plainCall r.1]) ++
      if r.2 = [] then []
      else
        match decodeAtom r.2 with
        | none => plainCall (r.2.take 2) :: decoder fuel (r.2.drop 2)
        | some (call, rest) => call :: decoder fuel (skipBetween rest)

def decoded (text : List UInt8) : List UInt8 :=
  (decoder text.length text).flatMap Call.content

end Cone.Rfc2047Decode
