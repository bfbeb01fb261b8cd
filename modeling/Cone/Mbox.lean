import Cone.Lib.Decimal

/-! # Messages of a folder file (`mboxadd.C`, `mboxread.C`, `mboxgetmessage.C`, `file.C`)

A message begins with a From_ line, which the line with its UID and flags follows.  Files can be
read and written, and an account is not destroyed on the way. -/
set_option autoImplicit false
namespace Cone.Mbox
open Cone.Ctype
open Cone.Lib.Decimal

/-! ## Lines of a file (`file.C`) -/

section Getline

/-- The inner loop of `getline`, with room for so many bytes: the bytes up to the end of a line,
the rest of the file, and `feof`. -/
def fill : Nat → List UInt8 → List UInt8 × List UInt8 × Bool
  | 0, fp => ([], fp, false)
  | _ + 1, [] => ([], [], true)
  | n + 1, c :: fp =>
    if c = NL then ([c], fp, false)
    else
      let r := fill n fp
      (c :: r.1, r.2)

theorem fill_length (n : Nat) (fp : List UInt8) :
    (fill n fp).1.length + (fill n fp).2.1.length = fp.length := by
  induction n generalizing fp with
  | zero => simp [fill]
  | succ n ih =>
      cases fp with
      | nil => rfl
      | cons c fp =>
          rw [fill]
          by_cases newline : c = NL
          · rw [if_pos newline]
            simp only [List.length_cons, List.length_nil]
            omega
          · have := ih fp
            rw [if_neg newline]
            simp only [List.length_cons]
            omega

theorem fill_eof {n : Nat} {fp : List UInt8} (nothing : (fill (n + 1) fp).1 = []) :
    (fill (n + 1) fp).2.2 = true := by
  cases fp with
  | nil => rfl
  | cons c fp =>
      rw [fill] at nothing
      by_cases newline : c = NL
      · rw [if_pos newline] at nothing
        exact absurd nothing (by simp)
      · rw [if_neg newline] at nothing
        exact absurd nothing (by simp)

/-- The buffer of 1000 bytes, as often as it takes. -/
def getlineLoop (l fp : List UInt8) : List UInt8 × List UInt8 × Bool :=
  if _h : (fill 1000 fp).1 = [] then (l, (fill 1000 fp).2)
  else if (fill 1000 fp).1.getLast? ≠ some NL then
    getlineLoop (l ++ (fill 1000 fp).1) (fill 1000 fp).2.1
  else (l ++ (fill 1000 fp).1.dropLast, (fill 1000 fp).2)
  termination_by fp.length
  decreasing_by
    have := fill_length 1000 fp
    have := List.length_pos_iff.mpr _h
    omega

def stripCR (l : List UInt8) : List UInt8 := if l.getLast? = some CR then l.dropLast else l

/-- `mail::file::getline`: the line, the rest of the file, and `feof`. -/
def getline (fp : List UInt8) : List UInt8 × List UInt8 × Bool :=
  let r := getlineLoop [] fp
  (stripCR r.1, r.2)

theorem getlineLoop_length (l fp : List UInt8) (more : (getlineLoop l fp).2.2 = false) :
    (getlineLoop l fp).2.1.length < fp.length := by
  induction l, fp using getlineLoop.induct with
  | case1 l fp nothing =>
      rw [getlineLoop, dif_pos nothing] at more
      rw [fill_eof nothing] at more
      exact absurd more (by simp)
  | case2 l fp some long ih =>
      have len := fill_length 1000 fp
      rw [getlineLoop, dif_neg some, if_pos long] at more ⊢
      have := ih more
      omega
  | case3 l fp some short =>
      have len := fill_length 1000 fp
      have pos := List.length_pos_iff.mpr some
      rw [getlineLoop, dif_neg some, if_neg short]
      show (fill 1000 fp).2.1.length < fp.length
      omega

theorem getline_length (fp : List UInt8) (more : (getline fp).2.2 = false) :
    (getline fp).2.1.length < fp.length := getlineLoop_length [] fp more

end Getline

/-! ## The line with the UID (`mboxmagictag.C`) -/

section MagicTag

def magicTag : List UInt8 := str "X-MailPP-UID: "

structure MessageInfo where
  unread : Bool
  recent : Bool
  marked : Bool
  replied : Bool
  deleted : Bool
  draft : Bool

def tagOfHeader (header : List UInt8) : List UInt8 :=
  if magicTag.isPrefixOf header then
    let header := header.drop magicTag.length
    let flags := header.takeWhile (· ≠ byte ':')
    let uid := header.drop (flags.length + 1)
    if flags.length < header.length then
      if (byte ':') ∈ uid then flags ++ byte ':' :: uid.takeWhile (· ≠ byte ':') else header
    else header
  else []

/-- `mail::mboxMagicTag(line, keywordHashtable).good()` -/
def tagGood (line : List UInt8) : Bool := tagOfHeader line ≠ []

/-- The UID of `mail::mboxMagicTag()`. -/
def newUid (time pid counter : Nat) (hostname : List UInt8) : List UInt8 :=
  (decimal time ++ byte '-' :: decimal pid ++ byte '-' :: decimal counter ++
    byte '-' :: hostname).filter (· ≠ byte ':')

/-- `mail::mboxMagicTag(uid, flags, keywords).toString()` without keywords -/
def tagToString (uid : List UInt8) (flags : MessageInfo) : List UInt8 :=
  magicTag ++ ((if flags.unread then [] else str "R") ++ (if flags.recent then [] else str "O") ++
    (if flags.marked then str "F" else []) ++ (if flags.replied then str "A" else []) ++
    (if flags.deleted then str "D" else []) ++ (if flags.draft then str "d" else []) ++
    byte ':' :: uid)

end MagicTag

/-! ## Adding a message (`mboxadd.C`) -/

section Add

def fromSpace : List UInt8 := str "From "

/-- Any number of `>`, and then `From `. -/
def fromLine (l : List UInt8) : Bool := fromSpace.isPrefixOf (l.dropWhile (· = byte '>'))

def quote (l : List UInt8) : List UInt8 := if fromLine l then byte '>' :: l else l

def copyLoop (f : List UInt8) : List UInt8 :=
  let r := getline f
  if r.1 = [] && r.2.2 then []
  else quote r.1 ++ [NL] ++ (if _h : r.2.2 = false then copyLoop r.2.1 else [])
  termination_by f.length
  decreasing_by exact getline_length f _h

/-- What the system has to say of the user, the date and a new UID. -/
structure Environment where
  pwName : Option (List UInt8)
  ctime : List UInt8
  time : Nat
  pid : Nat
  counter : Nat
  hostname : List UInt8

def entryHeader (env : Environment) (messageInfo : MessageInfo) : List UInt8 :=
  fromSpace ++ env.pwName.getD (str "nobody") ++ [SP] ++ env.ctime ++
    tagToString (newUid env.time env.pid env.counter env.hostname) messageInfo ++ [NL]

/-- `mail::mbox::folder::add::copyTo`: the folder file with the message at its end. -/
def copyTo (env : Environment) (messageInfo : MessageInfo) (file content : List UInt8) :
    List UInt8 :=
  let ch := file.getLast?.getD NL
  file ++ (if ch ≠ NL then [NL] else []) ++ entryHeader env messageInfo ++ copyLoop content

end Add

/-! ## The two readers -/

section GetMessage

def dequote (line : List UInt8) : List UInt8 :=
  if line.head? = some (byte '>') then if fromLine line then line.tail else line else line

/-- The loop of `mail::mbox::GenericGetMessageTask::locked`: the lines written to the temporary
file. -/
def getMessageLoop (firstLine : Bool) (file : List UInt8) : List (List UInt8) :=
  let r := getline file
  if r.1 = [] && r.2.2 then []
  else if fromSpace.isPrefixOf r.1 then
    if firstLine then if _h : r.2.2 = false then getMessageLoop firstLine r.2.1 else [] else []
  else if firstLine && tagGood r.1 then
    if _h : r.2.2 = false then getMessageLoop false r.2.1 else []
  else (dequote r.1 ++ [NL]) :: (if _h : r.2.2 = false then getMessageLoop false r.2.1 else [])
  termination_by file.length
  decreasing_by all_goals exact getline_length file _h

def getMessage (startingPos : Nat) (file : List UInt8) : List (List UInt8) :=
  getMessageLoop true (file.drop startingPos)

end GetMessage

section Read

inductive ReadMode where
  | readHeadersFolded
  | readHeaders
  | readContents
  | readBoth
  deriving DecidableEq, Repr

variable (unicodeIsspace : UInt8 → Bool) (readType : ReadMode)

def leftover (header : List UInt8) : List (List UInt8) :=
  if header ≠ [] then [header ++ [NL]] else []

/-- The loop of `mail::mbox::GenericReadTask::locked`: the texts that the callback is given. -/
def readLoop (firstLine inHeaders : Bool) (header file : List UInt8) : List (List UInt8) :=
  let r := getline file
  if r.1 = [] && r.2.2 then leftover header
  else if fromSpace.isPrefixOf r.1 then
    if firstLine then
      if _h : r.2.2 = false then readLoop firstLine inHeaders header r.2.1 else leftover header
    else leftover header
  else if firstLine && tagGood r.1 then
    if _h : r.2.2 = false then readLoop false inHeaders header r.2.1 else leftover header
  else if inHeaders then
    let inHeaders := decide (r.1 ≠ [])
    if readType = .readHeadersFolded then
      if r.1 ≠ [] && unicodeIsspace (r.1.headD 0) then
        let header := header ++ [SP] ++ r.1.dropWhile unicodeIsspace
        if _h : r.2.2 = false then readLoop false inHeaders header r.2.1 else leftover header
      else
        leftover header ++
          (if _h : r.2.2 = false then readLoop false inHeaders r.1 r.2.1 else leftover r.1)
    else
      (r.1 ++ [NL]) ::
        (if _h : r.2.2 = false then readLoop false inHeaders header r.2.1 else leftover header)
  else if readType ≠ .readBoth && readType ≠ .readContents then []
  else
    dequote (r.1 ++ [NL]) ::
      (if _h : r.2.2 = false then readLoop false inHeaders header r.2.1 else leftover header)
  termination_by file.length
  decreasing_by all_goals exact getline_length file _h

def readTask (startingPos : Nat) (file : List UInt8) : List (List UInt8) :=
  readLoop unicodeIsspace readType true true [] (file.drop startingPos)

end Read

end Cone.Mbox
