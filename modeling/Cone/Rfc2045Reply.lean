import Cone.Lib.Trim
import Cone.Rfc3676Parser

/-! # Quoting a text in a reply (`rfc2045/rfc2045reply.c`)

The callbacks that `reformat` gives to the flowed text parser, and what they write.  The
conversion from unicode to the charset of the reply is exact, so what is written is kept as
characters. -/
set_option autoImplicit false
namespace Cone.Rfc2045Reply

open Cone.Lib.Trim Cone.Rfc3676Parser

/-- The fields of `struct replyinfostruct` behind the callbacks, and what went to `write_func`. -/
structure ReplyInfo where
  quoteLevel : Nat
  quoteLevelAdjust : Nat
  isflowed : Bool
  startLine : Bool
  trailingSpaces : Nat
  written : List Char
  deriving DecidableEq, Repr

def convertUc (uc : List Char) (s : ReplyInfo) : ReplyInfo := { s with written := s.written ++ uc }

def replyBegin (quoteLevel : Nat) (s : ReplyInfo) : ReplyInfo :=
  let s := { s with
    quoteLevel := quoteLevel + s.quoteLevelAdjust
    startLine := true
    trailingSpaces := 0 }
  convertUc (List.replicate s.quoteLevel '>') s

/-- `while (s->trailing_spaces)` -/
def flushSpaces (s : ReplyInfo) : ReplyInfo :=
  { convertUc (List.replicate s.trailingSpaces ' ') s with trailingSpaces := 0 }

/-- Whether the first character of a line is stuffed.  For a source that is not flowed, its
own quote marks are still part of the text. -/
def stuffs (s : ReplyInfo) (c : Char) : Bool :=
  if !s.isflowed then (0 < s.quoteLevel && c ≠ '>') || c = ' '
  else 0 < s.quoteLevel || c = ' ' || c = '>'

def replyContents : List Char → ReplyInfo → ReplyInfo
  | [], s => s
  | c :: txt, s =>
    let s :=
      if s.startLine then { (if stuffs s c then convertUc [' '] s else s) with startLine := false }
      else s
    let nonspc := trim ' ' (c :: txt)
    let s := if nonspc ≠ [] then convertUc nonspc (flushSpaces s) else s
    { s with trailingSpaces := s.trailingSpaces + ((c :: txt).length - nonspc.length) }

def replyEnd (s : ReplyInfo) : ReplyInfo := convertUc ['\n'] s

def replyWrap (s : ReplyInfo) : ReplyInfo :=
  let s := replyEnd (convertUc [' '] (flushSpaces s))
  replyBegin (s.quoteLevel - s.quoteLevelAdjust) s

def callback : Call → ReplyInfo → ReplyInfo
  | .lineBegin quoteLevel => replyBegin quoteLevel
  | .lineContents uc => replyContents uc
  | .lineFlowedNotify => replyWrap
  | .lineEnd => replyEnd

def reformat (isflowed isdelsp : Bool) (adjustLevel : Nat) (pieces : List (List Char)) :
    Option (List Char) :=
  (parse isflowed isdelsp pieces).map fun calls =>
    (calls.foldl (fun s call => callback call s)
      { quoteLevel := 0
        quoteLevelAdjust := adjustLevel
        isflowed := isflowed
        startLine := false
        trailingSpaces := 0
        written := [] }).written

end Cone.Rfc2045Reply
