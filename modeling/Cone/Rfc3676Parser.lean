import Cone.Lib.PushParser

/-! # The flowed text parser (`rfc2045/rfc3676parser.c`)

The push parser behind `rfc3676parser_init`, `rfc3676parser` and `rfc3676parser_deinit`, from
the converted text down to the calls of "the following API": a logical line begins, its
contents, it flows onto the next physical line, it ends.  For flowed text these are the
client's callbacks.

A handler gets the rest of the piece, or `none` at the end of the text, where the source
passes `NULL`.  The callbacks return zero here, so `errflag` stays zero and is not kept. -/
set_option autoImplicit false
namespace Cone.Rfc3676Parser

open Cone.Lib.PushParser

/-- The callbacks of `struct rfc3676_parser_info`, with their arguments. -/
inductive Call where
  | lineBegin (quoteLevel : Nat)
  | lineContents (uc : List Char)
  | lineFlowedNotify
  | lineEnd
  deriving DecidableEq, Repr

inductive LineHandler where
  | scanCrlf
  | scanCrlfSeenCr
  deriving DecidableEq, Repr

/-- `seen_notsig_block` is only ever called, never installed. -/
inductive ContentHandler where
  | startOfLine
  | countQuoteLevel
  | countedQuoteLevel
  | startContentLine
  | checkSignatureBlock
  | seenSigBlock
  | scanContentLine
  | seenContentSp
  deriving DecidableEq, Repr

structure Content where
  isflowed : Bool
  isdelsp : Bool
  contentHandler : ContentHandler
  quoteLevel : Nat
  sigBlockIndex : Nat
  hasPreviousQuoteLevel : Bool
  previousQuoteLevel : Nat
  wasPreviousQuoteLevel : Bool
  deriving DecidableEq, Repr

structure Parser extends Content where
  lineHandler : LineHandler
  deriving DecidableEq, Repr

/-- `*ptr`, when `ptr` is not `NULL`. -/
def deref (ptr : Option (List Char)) : Option Char := ptr.bind List.head?

/-- `ptr ? 1:0` -/
def oneIf (ptr : Option (List Char)) : Nat := if ptr.isSome then 1 else 0

section ContentHandlers

def scanContentLine (h : Content) (ptr : Option (List Char)) : Handled Content Call :=
  let text := (ptr.getD []).takeWhile fun c => c ≠ '\n' && (c ≠ ' ' || !h.isflowed)
  if text ≠ [] then
    some (text.length, h, [.lineContents text])
  else if deref ptr = some ' ' then
    some (1, { h with contentHandler := .seenContentSp }, [])
  else
    some (oneIf ptr, { h with contentHandler := .startOfLine }, [.lineEnd])

def seenContentSp (h : Content) (ptr : Option (List Char)) : Handled Content Call :=
  if deref ptr ≠ some '\n' then
    before [.lineContents [' ']] (scanContentLine { h with contentHandler := .scanContentLine } ptr)
  else
    some (oneIf ptr,
      { h with
        hasPreviousQuoteLevel := true
        previousQuoteLevel := h.quoteLevel
        contentHandler := .startOfLine },
      if h.isdelsp then [] else [.lineContents [' ']])

def sigBlock : List Char := ['-', '-', ' ']

/-- `content_handler` where `seen_notsig_block` calls it: it has just installed
`scan_content_line`, and the withheld text has no newline to lead further. -/
def scanning (h : Content) (ptr : Option (List Char)) : Handled Content Call :=
  match h.contentHandler with
  | .seenContentSp => seenContentSp h ptr
  | _ => scanContentLine h ptr

def seenNotsigBlock (h : Content) (newptr : Option (List Char)) : Handled Content Call :=
  let wrap := if h.wasPreviousQuoteLevel then [Call.lineFlowedNotify] else []
  let withheld := sigBlock.take h.sigBlockIndex
  match feed (fun h cs => scanning h (some cs)) withheld.length
      { h with contentHandler := .scanContentLine } withheld with
  | none => none
  | some (h, calls) => before (wrap ++ calls) (scanning h newptr)

def seenSigBlock (h : Content) (ptr : Option (List Char)) : Handled Content Call :=
  if ptr = none ∨ deref ptr = some '\n' then
    let unflow := if h.wasPreviousQuoteLevel then [.lineEnd, .lineBegin h.quoteLevel] else []
    some (oneIf ptr,
      { h with wasPreviousQuoteLevel := false, contentHandler := .startOfLine },
      unflow ++ [.lineContents sigBlock, .lineEnd])
  else
    seenNotsigBlock h ptr

def checkSignatureBlock (h : Content) (ptr : Option (List Char)) : Handled Content Call :=
  if ptr ≠ none ∧ deref ptr = sigBlock[h.sigBlockIndex]? then
    some (1,
      { h with
        sigBlockIndex := h.sigBlockIndex + 1
        contentHandler :=
          if h.sigBlockIndex + 1 = sigBlock.length then .seenSigBlock else h.contentHandler },
      [])
  else
    seenNotsigBlock h ptr

def startContentLine (h : Content) (ptr : Option (List Char)) : Handled Content Call :=
  let h := { h with contentHandler := .checkSignatureBlock, sigBlockIndex := 0 }
  if deref ptr = some '\n' ∧ h.wasPreviousQuoteLevel then
    before [.lineEnd, .lineBegin h.quoteLevel]
      (checkSignatureBlock { h with wasPreviousQuoteLevel := false } ptr)
  else
    checkSignatureBlock h ptr

def countedQuoteLevel (h : Content) (ptr : Option (List Char)) : Handled Content Call :=
  let joins := h.hasPreviousQuoteLevel && h.quoteLevel == h.previousQuoteLevel
  let calls :=
    if joins then []
    else (if h.hasPreviousQuoteLevel then [.lineEnd] else []) ++ [.lineBegin h.quoteLevel]
  let h := { h with wasPreviousQuoteLevel := joins, hasPreviousQuoteLevel := false }
  if !h.isflowed then
    before calls (scanContentLine { h with contentHandler := .scanContentLine } ptr)
  else if deref ptr = some ' ' then
    some (1, { h with contentHandler := .startContentLine }, calls)
  else
    before calls (startContentLine { h with contentHandler := .startContentLine } ptr)

def countQuoteLevel (h : Content) (ptr : Option (List Char)) : Handled Content Call :=
  match ptr with
  | none => countedQuoteLevel { h with contentHandler := .countedQuoteLevel } none
  | some cs =>
    let i := (cs.takeWhile fun c => c = '>' && h.isflowed).length
    let h := { h with quoteLevel := h.quoteLevel + i }
    if i = cs.length then
      some (i, h, [])
    else if i = 0 then
      countedQuoteLevel { h with contentHandler := .countedQuoteLevel } ptr
    else
      some (i, { h with contentHandler := .countedQuoteLevel }, [])

def startOfLine (h : Content) (ptr : Option (List Char)) : Handled Content Call :=
  match ptr with
  | none => some (0, h, if h.hasPreviousQuoteLevel then [.lineEnd] else [])
  | some _ => countQuoteLevel { h with contentHandler := .countQuoteLevel, quoteLevel := 0 } ptr

def content (h : Content) (ptr : Option (List Char)) : Handled Content Call :=
  match h.contentHandler with
  | .startOfLine => startOfLine h ptr
  | .countQuoteLevel => countQuoteLevel h ptr
  | .countedQuoteLevel => countedQuoteLevel h ptr
  | .startContentLine => startContentLine h ptr
  | .checkSignatureBlock => checkSignatureBlock h ptr
  | .seenSigBlock => seenSigBlock h ptr
  | .scanContentLine => scanContentLine h ptr
  | .seenContentSp => seenContentSp h ptr

end ContentHandlers

section LineHandlers

def contents (h : Parser) (cs : List Char) : Option (Parser × List Call) :=
  (feed (fun h cs => content h (some cs)) cs.length h.toContent cs).map fun r =>
    ({ h with toContent := r.1 }, r.2)

def scanCrlf (h : Parser) (ptr : Option (List Char)) : Handled Parser Call :=
  match ptr with
  | none => (content h.toContent none).map fun r => (0, { h with toContent := r.2.1 }, r.2.2)
  | some cs =>
    let text := cs.takeWhile (· ≠ '\r')
    if text ≠ [] then
      (contents h text).map fun r => (text.length, r.1, r.2)
    else
      some (1, { h with lineHandler := .scanCrlfSeenCr }, [])

def scanCrlfSeenCr (h : Parser) (ptr : Option (List Char)) : Handled Parser Call :=
  let h := { h with lineHandler := .scanCrlf }
  if deref ptr ≠ some '\n' then
    match contents h ['\r'] with
    | none => none
    | some (h, calls) => before calls (scanCrlf h ptr)
  else
    scanCrlf h ptr

def line (h : Parser) (ptr : Option (List Char)) : Handled Parser Call :=
  match h.lineHandler with
  | .scanCrlf => scanCrlf h ptr
  | .scanCrlfSeenCr => scanCrlfSeenCr h ptr

end LineHandlers

section Api

def ucs4buf : Nat := 128

def parseUnicode : Nat → Parser → List Char → Option (Parser × List Call)
  | _, h, [] => some (h, [])
  | 0, _, _ :: _ => none
  | fuel + 1, h, ucs4 =>
    let piece := ucs4.take ucs4buf
    match feed (fun h cs => line h (some cs)) piece.length h piece with
    | none => none
    | some (h, calls) =>
      (parseUnicode fuel h (ucs4.drop ucs4buf)).map fun r => (r.1, calls ++ r.2)

def rfc3676parserInit (isflowed isdelsp : Bool) : Parser where
  isflowed := isflowed
  isdelsp := isflowed && isdelsp
  contentHandler := .startOfLine
  quoteLevel := 0
  sigBlockIndex := 0
  hasPreviousQuoteLevel := false
  previousQuoteLevel := 0
  wasPreviousQuoteLevel := false
  lineHandler := .scanCrlf

/-- The converted text comes in pieces, `libmail_u_convert`'s calls of `parse_unicode`. -/
def rfc3676parser : Parser → List (List Char) → Option (Parser × List Call)
  | h, [] => some (h, [])
  | h, ucs4 :: pieces =>
    match parseUnicode ucs4.length h ucs4 with
    | none => none
    | some (h, calls) => (rfc3676parser h pieces).map fun r => (r.1, calls ++ r.2)

def rfc3676parserDeinit (h : Parser) : Option (List Call) := (line h none).map fun r => r.2.2

def parse (isflowed isdelsp : Bool) (pieces : List (List Char)) : Option (List Call) :=
  match rfc3676parser (rfc3676parserInit isflowed isdelsp) pieces with
  | none => none
  | some (h, calls) => (rfc3676parserDeinit h).map fun last => calls ++ last

end Api

end Cone.Rfc3676Parser
