import Cone.Ctype
import Cone.Lib.Radix64
import Cone.Lib.ReturnCode

/-! # Transfer encoding (`rfc822/encode.c`)

`libmail_encode_start`, `libmail_encode` and `libmail_encode_end` over the three encoders.  The
buffers are lists that hold the bytes in use, so the counters `output_buf_cnt`, `local_buf_cnt`
and, for base64, `input_buf_cnt` are their lengths. -/
set_option autoImplicit false
namespace Cone.Encode

open Cone.Ctype Cone.Lib.Radix64 Cone.Lib.ReturnCode

inductive EncodingFunc where
  | quotedPrintable
  | base64
  | eflush
  deriving DecidableEq, Repr

/-- `struct libmail_encode_info`.  Quoted-printable recycles `input_buffer[0]` as the flag
`prevSpace` and `input_buf_cnt` as its column. -/
structure EncodeInfo (σ : Type) where
  outputBuffer : List UInt8
  inputBuffer : List UInt8
  prevSpace : Bool
  inputBufCnt : Nat
  encodingFunc : EncodingFunc
  callbackFunc : Callback σ
  callbackArg : σ

/-- `sizeof(info->output_buffer)`, that is `BUFSIZ`. -/
def outputBufferSize : Nat := 8192
/-- `sizeof(info->input_buffer)`. -/
def inputBufferSize : Nat := 57
def localBufSize : Nat := 256

section Functions
variable {σ : Type}

def encodingFuncOf (transferEncoding : List UInt8) : EncodingFunc :=
  match transferEncoding with
  | [] => .eflush
  | c :: _ =>
    if c = byte 'q' ∨ c = byte 'Q' then .quotedPrintable
    else if c = byte 'b' ∨ c = byte 'B' then .base64
    else .eflush

def libmailEncodeStart (transferEncoding : List UInt8) (callbackFunc : Callback σ)
    (callbackArg : σ) : EncodeInfo σ where
  outputBuffer := []
  inputBuffer := []
  prevSpace := false
  inputBufCnt := 0
  encodingFunc := encodingFuncOf transferEncoding
  callbackFunc := callbackFunc
  callbackArg := callbackArg

def callOut (info : EncodeInfo σ) : Int × EncodeInfo σ :=
  let r := info.callbackFunc info.outputBuffer info.callbackArg
  (r.1, { info with outputBuffer := [], callbackArg := r.2 })

def eflush : List UInt8 → EncodeInfo σ → Int × EncodeInfo σ
  | [], info => (0, info)
  | c :: ptr, info =>
    if info.outputBuffer.length = outputBufferSize then
      andThen (callOut info) fun info =>
        eflush ptr { info with outputBuffer := info.outputBuffer ++ [c] }
    else eflush ptr { info with outputBuffer := info.outputBuffer ++ [c] }

/-! ## base64 -/

def base64tab : List UInt8 :=
  ['A', 'B', 'C', 'D', 'E', 'F', 'G', 'H', 'I', 'J', 'K', 'L', 'M', 'N', 'O', 'P', 'Q', 'R', 'S',
    'T', 'U', 'V', 'W', 'X', 'Y', 'Z', 'a', 'b', 'c', 'd', 'e', 'f', 'g', 'h', 'i', 'j', 'k', 'l',
    'm', 'n', 'o', 'p', 'q', 'r', 's', 't', 'u', 'v', 'w', 'x', 'y', 'z', '0', '1', '2', '3', '4',
    '5', '6', '7', '8', '9', '+', '/'].map byte

def base64char (n : Nat) : UInt8 := base64tab.getD n 0

/-- The loop of `base64_flush` over `input_buffer`, three bytes at a time. -/
def base64Quads : List UInt8 → List UInt8
  | [] => []
  | [a] =>
    [base64char (sextet0 a.toNat), base64char (sextet1 a.toNat 0), byte '=', byte '=']
  | [a, b] =>
    [base64char (sextet0 a.toNat), base64char (sextet1 a.toNat b.toNat),
      base64char (sextet2 b.toNat 0), byte '=']
  | a :: b :: c :: rest =>
    base64char (sextet0 a.toNat) :: base64char (sextet1 a.toNat b.toNat) ::
      base64char (sextet2 b.toNat c.toNat) :: base64char (sextet3 c.toNat) :: base64Quads rest

def base64Flush (info : EncodeInfo σ) : Int × EncodeInfo σ :=
  eflush (base64Quads info.inputBuffer ++ [NL]) { info with inputBuffer := [] }

def base64 : List UInt8 → EncodeInfo σ → Int × EncodeInfo σ
  | [], info => (0, info)
  | c :: buf, info =>
    if info.inputBuffer.length = inputBufferSize then
      andThen (base64Flush info) fun info =>
        base64 buf { info with inputBuffer := info.inputBuffer ++ [c] }
    else base64 buf { info with inputBuffer := info.inputBuffer ++ [c] }

def base64End (info : EncodeInfo σ) : Int × EncodeInfo σ :=
  if info.inputBuffer = [] then (0, info) else base64Flush info

/-! ## quoted-printable -/

structure QpState (σ : Type) where
  localBuf : List UInt8
  info : EncodeInfo σ

def qput (c : UInt8) (s : QpState σ) : Int × QpState σ :=
  if s.localBuf.length = localBufSize then
    let r := eflush s.localBuf s.info
    andThen (r.1, ⟨[], r.2⟩) fun s => (0, { s with localBuf := s.localBuf ++ [c] })
  else (0, { s with localBuf := s.localBuf ++ [c] })

def qputs : List UInt8 → QpState σ → Int × QpState σ
  | [], s => (0, s)
  | c :: cs, s => andThen (qput c s) (qputs cs)

def QpState.setColumn (s : QpState σ) (n : Nat) : QpState σ :=
  { s with info := { s.info with inputBufCnt := n } }

def QpState.setSpace (s : QpState σ) (flag : Bool) : QpState σ :=
  { s with info := { s.info with prevSpace := flag } }

def hexEscape (c : UInt8) : List UInt8 :=
  [byte '=', xdigit.getD (c.toNat / 16) 0, xdigit.getD (c.toNat % 16) 0]

def putPendingSpace (p : UInt8) (s : QpState σ) : Int × QpState σ :=
  if s.info.prevSpace then
    andThen (if p = NL then qputs (hexEscape SP) s else qput SP s) fun s =>
      (0, s.setColumn (s.info.inputBufCnt + 1))
  else (0, s)

def putSoftBreak (p : UInt8) (s : QpState σ) : Int × QpState σ :=
  if s.info.inputBufCnt > 72 ∧ p ≠ NL then
    andThen (qputs [byte '=', NL] s) fun s => (0, s.setColumn 0)
  else (0, s)

def needsEscape (p : UInt8) : Bool := p < SP || p = byte '=' || p ≥ 0x7F

def putCharacter (p : UInt8) (s : QpState σ) : Int × QpState σ :=
  if p = NL then qput p (s.setColumn 0)
  else if needsEscape p then
    andThen (qputs (hexEscape p) s) fun s => (0, s.setColumn (s.info.inputBufCnt + 3))
  else qput p (s.setColumn (s.info.inputBufCnt + 1))

def quotedPrintableLoop : List UInt8 → QpState σ → Int × QpState σ
  | [], s => (0, s)
  | p :: ptr, s =>
    andThen (putPendingSpace p s) fun s =>
      let s := s.setSpace false
      if p = SP then quotedPrintableLoop ptr (s.setSpace true)
      else
        andThen (putSoftBreak p s) fun s =>
          andThen (putCharacter p s) (quotedPrintableLoop ptr)

def quotedPrintable (ptr : List UInt8) (info : EncodeInfo σ) : Int × EncodeInfo σ :=
  let r := quotedPrintableLoop ptr ⟨[], info⟩
  if r.1 ≠ 0 then (r.1, r.2.info) else eflush r.2.localBuf r.2.info

/-! ## The entry points -/

def libmailEncode (info : EncodeInfo σ) (ptr : List UInt8) : Int × EncodeInfo σ :=
  match info.encodingFunc with
  | .quotedPrintable => quotedPrintable ptr info
  | .base64 => base64 ptr info
  | .eflush => eflush ptr info

/-- `(*info->encoding_func)(info, NULL, 0)`: `quoted_printable` returns at once. -/
def encodingFuncEnd (info : EncodeInfo σ) : Int × EncodeInfo σ :=
  match info.encodingFunc with
  | .quotedPrintable => (0, info)
  | .base64 => base64End info
  | .eflush => (0, info)

def libmailEncodeEnd (info : EncodeInfo σ) : Int × EncodeInfo σ :=
  andThen (encodingFuncEnd info) fun info =>
    if info.outputBuffer = [] then (0, info) else callOut info

end Functions

end Cone.Encode
