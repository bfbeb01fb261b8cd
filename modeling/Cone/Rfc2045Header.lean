import Cone.Rfc822Tokenize

/-! # The header fields of a part (`rfc2045/rfc2045.c`)

`do_header` and what it calls: one complete header, continuation lines pasted, is tokenized and
its value kept in the part.  The address of a Content-ID comes from `rfc822_getaddr`, which is
the parameter `getaddr` here. -/
set_option autoImplicit false
namespace Cone.Rfc2045Header

open Cone.Ctype Cone.Rfc822Tokenize

/-- `struct rfc2045attr`, one entry of the list. -/
structure Attr where
  name : List UInt8
  value : List UInt8
  deriving DecidableEq, Repr

/-- The fields of `struct rfc2045` that are read from the headers of the part. -/
structure Headers where
  mimeVersion : Option (List UInt8)
  contentType : Option (List UInt8)
  contentTypeAttr : List Attr
  contentDisposition : Option (List UInt8)
  contentDispositionAttr : List Attr
  boundary : Option (List UInt8)
  contentTransferEncoding : Option (List UInt8)
  content8bit : Bool
  contentId : Option (List UInt8)
  contentDescription : Option (List UInt8)
  contentLanguage : Option (List UInt8)
  contentMd5 : Option (List UInt8)
  contentBase : Option (List UInt8)
  contentLocation : Option (List UInt8)
  deriving DecidableEq, Repr

/-- The `memset` of `rfc2045_alloc`. -/
def Headers.empty : Headers :=
  ⟨none, none, [], none, [], none, none, false, none, none, none, none, none, none⟩

def attrset (attrs : List Attr) (name : List UInt8) (val : Option (List UInt8)) : List Attr :=
  match attrs, val with
  | [], none => []
  | [], some v => [⟨name, v⟩]
  | a :: rest, none => if a.name = name then rest else a :: attrset rest name none
  | a :: rest, some v =>
    if a.name = name then { a with value := v } :: rest else a :: attrset rest name (some v)

def tolower (c : UInt8) : UInt8 := if byte 'A' ≤ c ∧ c ≤ byte 'Z' then c + 32 else c

def isAtom (token : UInt8) : Bool := token = 0 || token = byte '"' || token = byte '('

def pasteWord (w : UInt8 × List UInt8) : List UInt8 :=
  if w.1 = byte '(' then [] else if isAtom w.1 then w.2 else [w.1]

def pasteTokens (h : List Token) : List UInt8 := h.flatMap fun t => pasteWord t.word

def lowerPasteTokens (h : List Token) : List UInt8 := (pasteTokens h).map tolower

/-! ## Content headers with parameters -/

def parameterAt (inReformime : Bool) (start : List Token) :
    Option (List UInt8 × List Token) × List Token :=
  let upto := start.takeWhile fun t => t.token ≠ byte ';'
  let rest := start.dropWhile fun t => t.token ≠ byte ';'
  match upto with
  | [] => (none, rest)
  | name :: j =>
    match j.dropWhile fun t => t.token = byte '(' with
    | [] => (none, rest)
    | equals :: j =>
      if equals.token = byte '=' then
        match j with
        | [] => (some (lowerPasteTokens [name], []), rest)
        | value :: more =>
          if inReformime ∧ value.token = byte '"' then
            (some (lowerPasteTokens [name], [value]), more ++ rest)
          else (some (lowerPasteTokens [name], value :: more), rest)
      else (none, rest)

/-- The calls of `init_parameter`: the name and the tokens of the value. -/
def parameters (inReformime : Bool) : Nat → List Token → List (List UInt8 × List Token)
  | 0, _ => []
  | _ + 1, [] => []
  | fuel + 1, t :: start =>
    let r := parameterAt inReformime (t :: start)
    r.1.toList ++ parameters inReformime fuel (r.2.drop 1)

/-- `parse_content_header`: the argument of `init_token`, and those of `init_parameter`. -/
structure ContentHeader where
  token : List UInt8
  parameters : List (List UInt8 × List Token)
  deriving DecidableEq, Repr

def parseContentHeader (inReformime : Bool) (initStart : List Token) : ContentHeader where
  token := lowerPasteTokens (initStart.takeWhile fun t => t.token ≠ byte ';')
  parameters :=
    let start := (initStart.dropWhile fun t => t.token ≠ byte ';').drop 1
    parameters inReformime start.length start

/-! ## The headers -/

/-- Whether one of two boundaries begins with the other. -/
def ambiguous (a b : List UInt8) : Bool := a.isPrefixOf b || b.isPrefixOf a

/-- What `do_header` leaves: the fields, and whether it found `RFC2045_ERRBADBOUNDARY`. -/
structure Outcome where
  headers : Headers
  errBadBoundary : Bool
  deriving DecidableEq, Repr

section Fields
variable (inReformime : Bool) (getaddr : List Token → Option (List UInt8))
variable (outer : List (Option (List UInt8)))

def saveContentTypeParameter (o : Outcome) (param : List UInt8 × List Token) : Outcome :=
  let name := param.1
  let value := if name = "charset".toList.map byte then lowerPasteTokens param.2
    else pasteTokens param.2
  let h := { o.headers with
    contentTypeAttr := attrset o.headers.contentTypeAttr name (some value) }
  if name = "boundary".toList.map byte then
    let p := lowerPasteTokens param.2
    { headers := { h with boundary := some p }
      errBadBoundary := o.errBadBoundary || outer.any fun q => q.any fun a => ambiguous a p }
  else { o with headers := h }

def contentType (h : Headers) (header : List Token) : Outcome :=
  let c := parseContentHeader inReformime (header.drop 2)
  c.parameters.foldl (saveContentTypeParameter outer)
    ⟨{ h with contentType := some c.token }, false⟩

def saveContentDispositionParameter (h : Headers) (param : List UInt8 × List Token) : Headers :=
  { h with
    contentDispositionAttr :=
      attrset h.contentDispositionAttr param.1 (some (pasteTokens param.2)) }

def contentDisposition (h : Headers) (header : List Token) : Headers :=
  let c := parseContentHeader inReformime (header.drop 2)
  c.parameters.foldl saveContentDispositionParameter { h with contentDisposition := some c.token }

def mimeVersion (h : Headers) (header : List Token) : Headers :=
  { h with mimeVersion := some (pasteTokens (header.drop 2)) }

def contentTransferEncoding (h : Headers) (header : List Token) : Headers :=
  let p := lowerPasteTokens (header.drop 2)
  { h with
    contentTransferEncoding := some p
    content8bit := h.content8bit || p = "8bit".toList.map byte }

def textValue (header : List UInt8) : List UInt8 :=
  ((header.dropWhile (· ≠ byte ':')).drop 1).dropWhile isspace

/-- `if (s && *s) set_string(...)` -/
def setText (old : Option (List UInt8)) (s : List UInt8) : Option (List UInt8) :=
  if s = [] then old else some s

def locationValue (header : List Token) : List UInt8 :=
  pasteTokens <| (header.map fun t => if t.token = byte '"' then { t with token := 0 } else t).drop 2

def doHeader (h : Headers) (line : List UInt8) : Outcome :=
  let text := line.takeWhile (· ≠ NUL)
  let header := (tokenize text).tokens
  let keep (h : Headers) : Outcome := ⟨h, false⟩
  match header with
  | name :: colon :: _ =>
    if name.token ≠ 0 ∨ colon.token ≠ byte ':' then keep h
    else
      let t := lowerPasteTokens [name]
      if t = "mime-version".toList.map byte then keep (mimeVersion h header)
      else if t = "content-type".toList.map byte then contentType inReformime outer h header
      else if t = "content-transfer-encoding".toList.map byte then
        keep (contentTransferEncoding h header)
      else if t = "content-disposition".toList.map byte then
        keep (contentDisposition inReformime h header)
      else if t = "content-id".toList.map byte then
        keep (match getaddr header with
          | none => h
          | some s => { h with contentId := some s })
      else if t = "content-description".toList.map byte then
        keep { h with contentDescription := setText h.contentDescription (textValue text) }
      else if t = "content-language".toList.map byte then
        keep { h with contentLanguage := setText h.contentLanguage (textValue text) }
      else if t = "content-base".toList.map byte then
        keep { h with contentBase := some (locationValue header) }
      else if t = "content-location".toList.map byte then
        keep { h with contentLocation := some (locationValue header) }
      else if t = "content-md5".toList.map byte then
        keep { h with contentMd5 := setText h.contentMd5 (textValue text) }
      else keep h
  | _ => keep h

end Fields

end Cone.Rfc2045Header
