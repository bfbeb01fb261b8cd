import Cone.Ctype
import Cone.Lib.Radix64
import Cone.Lib.ReturnCode

/-! # Transfer decoding (`rfc2045/rfc2045cdecode.c`)

The streaming decoder behind `rfc2045_cdecode_start`, `rfc2045_cdecode` and
`rfc2045_cdecode_end`.  `workbuf` holds the first `workbuflen` bytes of the work buffer. -/
set_option autoImplicit false
namespace Cone.Cdecode

open Cone.Ctype Cone.Lib.Radix64 Cone.Lib.ReturnCode

inductive DecodeFunc where
  | decodeRaw
  | decodeQp
  | decodeBase64
  deriving DecidableEq, Repr

/-- The fields of `struct rfc2045` that the decoder uses. -/
structure Rfc2045 (σ : Type) where
  workbuf : List UInt8
  decodeFunc : DecodeFunc
  udecodeFunc : Callback σ
  miscDecodePtr : σ

section Functions
variable {σ : Type}

def udecode (bytes : List UInt8) (p : Rfc2045 σ) : Int × Rfc2045 σ :=
  let r := p.udecodeFunc bytes p.miscDecodePtr
  (r.1, { p with miscDecodePtr := r.2 })

def decodeRaw (s : List UInt8) (p : Rfc2045 σ) : Int × Rfc2045 σ :=
  if s = [] then (0, p) else udecode s p

/-! ## quoted-printable -/

def tou (c : UInt8) : UInt8 :=
  if byte 'a' ≤ c ∧ c ≤ byte 'f' then c + (byte 'A' - byte 'a') else c

/-- The loop of `do_decode_qp`, from the work buffer to the bytes it leaves there.  A `break`
drops what is left of the buffer; a `continue` on a bad digit has dropped the `=` (and a good
first digit) and goes on with the bad one. -/
def qpLoop : List UInt8 → List UInt8
  | [] => []
  | c :: a =>
    if c ≠ byte '=' then c :: qpLoop a
    else
      match a with
      | [] => []
      | x :: a' =>
        if x = NUL || isspace x then []
        else
          match strchr xdigit (tou x) with
          | none => qpLoop (x :: a')
          | some hi =>
            match a' with
            | [] => []
            | y :: a'' =>
              if y = NUL then []
              else
                match strchr xdigit (tou y) with
                | none => qpLoop (y :: a'')
                | some lo => UInt8.ofNat (hi * 16 + lo) :: qpLoop a''

def doDecodeQp (p : Rfc2045 σ) : Int × Rfc2045 σ :=
  let r := udecode (qpLoop p.workbuf) p
  (r.1, { r.2 with workbuf := [] })

def heldBack (workbuf : List UInt8) : List UInt8 :=
  (workbuf.drop (workbuf.length - 5)).dropWhile (· ≠ byte '=')

/-- `rfc2045_add_workbuf(p, buf, strlen(buf))` puts back what precedes a zero byte. -/
def flushLongLine (p : Rfc2045 σ) : Int × Rfc2045 σ :=
  if p.workbuf.length > 1024 then
    let buf := heldBack p.workbuf
    let kept := p.workbuf.take (p.workbuf.length - buf.length)
    andThen (doDecodeQp { p with workbuf := kept }) fun p =>
      (0, { p with workbuf := p.workbuf ++ buf.takeWhile (· ≠ NUL) })
  else (0, p)

/-- The loop of `decode_qp`; `run` is what lies between `start` and `i`.  After a newline the
loop falls through to an empty `rfc2045_add_workbuf` and a length test on an empty buffer. -/
def decodeQpLoop : List UInt8 → List UInt8 → Rfc2045 σ → Int × Rfc2045 σ
  | run, [], p =>
    if run = [] then (0, p) else flushLongLine { p with workbuf := p.workbuf ++ run }
  | run, c :: s, p =>
    if c ≠ NL then decodeQpLoop (run ++ [c]) s p
    else
      andThen (doDecodeQp { p with workbuf := p.workbuf ++ run ++ [NL] }) (decodeQpLoop [] s)

def decodeQp (s : List UInt8) (p : Rfc2045 σ) : Int × Rfc2045 σ := decodeQpLoop [] s p

/-! ## base64 -/

def decode64tab : List Nat := [
  100,100,100,100,100,100,100,100,100,100,100,100,100,100,100,100,
  100,100,100,100,100,100,100,100,100,100,100,100,100,100,100,100,
  100,100,100,100,100,100,100,100,100,100,100,62,100,100,100,63,
  52,53,54,55,56,57,58,59,60,61,100,100,100,99,100,100,
  100,0,1,2,3,4,5,6,7,8,9,10,11,12,13,14,
  15,16,17,18,19,20,21,22,23,24,25,100,100,100,100,100,
  100,26,27,28,29,30,31,32,33,34,35,36,37,38,39,40,
  41,42,43,44,45,46,47,48,49,50,51,100,100,100,100,100,
  100,100,100,100,100,100,100,100,100,100,100,100,100,100,100,100,
  100,100,100,100,100,100,100,100,100,100,100,100,100,100,100,100,
  100,100,100,100,100,100,100,100,100,100,100,100,100,100,100,100,
  100,100,100,100,100,100,100,100,100,100,100,100,100,100,100,100,
  100,100,100,100,100,100,100,100,100,100,100,100,100,100,100,100,
  100,100,100,100,100,100,100,100,100,100,100,100,100,100,100,100,
  100,100,100,100,100,100,100,100,100,100,100,100,100,100,100,100,
  100,100,100,100,100,100,100,100,100,100,100,100,100,100,100,100]

def decode64 (c : UInt8) : Nat := decode64tab.getD c.toNat 100

/-- The bytes one group of four gives; the stores into `char` keep eight bits. -/
def decodeQuad (c0 c1 c2 c3 : UInt8) : List UInt8 :=
  [UInt8.ofNat (octet0 (decode64 c0) (decode64 c1))] ++
    (if c2 ≠ byte '=' then [UInt8.ofNat (octet1 (decode64 c1) (decode64 c2))] else []) ++
    (if c3 ≠ byte '=' then [UInt8.ofNat (octet2 (decode64 c2) (decode64 c3))] else [])

def decodeQuads : List UInt8 → List UInt8 × List UInt8
  | c0 :: c1 :: c2 :: c3 :: rest =>
    (decodeQuad c0 c1 c2 c3 ++ (decodeQuads rest).1, (decodeQuads rest).2)
  | rest => ([], rest)

/-- `do_decode_base64` computes `rc` and returns zero all the same. -/
def doDecodeBase64 (p : Rfc2045 σ) : Int × Rfc2045 σ :=
  let kept := p.workbuf.filter fun c => decode64 c < 100
  let r := udecode (decodeQuads kept).1 p
  (0, { r.2 with workbuf := (decodeQuads kept).2 })

def decodeBase64 (s : List UInt8) (p : Rfc2045 σ) : Int × Rfc2045 σ :=
  let p := { p with workbuf := p.workbuf ++ s }
  if p.workbuf.length > 256 then doDecodeBase64 p else (0, p)

/-! ## The entry points -/

def decodeFuncOf (contentTransferEncoding : Option (List UInt8)) : DecodeFunc :=
  match contentTransferEncoding with
  | none => .decodeRaw
  | some cte =>
    if cte = ['q', 'u', 'o', 't', 'e', 'd', '-', 'p', 'r', 'i', 'n', 't', 'a', 'b', 'l', 'e'].map byte
    then .decodeQp
    else if cte = ['b', 'a', 's', 'e', '6', '4'].map byte then .decodeBase64
    else .decodeRaw

def rfc2045CdecodeStart (contentTransferEncoding : Option (List UInt8)) (u : Callback σ)
    (miscptr : σ) : Rfc2045 σ where
  workbuf := []
  decodeFunc := decodeFuncOf contentTransferEncoding
  udecodeFunc := u
  miscDecodePtr := miscptr

def rfc2045Cdecode (p : Rfc2045 σ) (s : List UInt8) : Int × Rfc2045 σ :=
  if s = [] then (0, p)
  else
    match p.decodeFunc with
    | .decodeRaw => decodeRaw s p
    | .decodeQp => decodeQp s p
    | .decodeBase64 => decodeBase64 s p

def rfc2045CdecodeEnd (p : Rfc2045 σ) : Int × Rfc2045 σ :=
  match p.decodeFunc with
  | .decodeRaw => (0, p)
  | .decodeQp => doDecodeQp p
  | .decodeBase64 => doDecodeBase64 p

end Functions

end Cone.Cdecode
