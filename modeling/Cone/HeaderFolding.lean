import Mathlib.Data.List.TakeWhile
import Cone.ImapSearch

/-! # Folded headers

The readings of a message's headers with their lines folded: `imapFolderHeadersCallback` of imap.C,
`CopyMimePart::copy` of generic.C, `genericMessageRead` of file.C and `GenericReadTask::locked` of
mboxread.C.  That the account goes away in the middle is left out. -/
set_option autoImplicit false
namespace Cone.HeaderFolding

open Cone.Ctype
open Cone.ImapSearch (unicode_isspace)

abbrev Text := List UInt8

inductive ReadMode where
  | readHeaders
  | readContents
  | readBoth
  | readHeadersFolded
  deriving DecidableEq, Repr

section Filter

/-- The flags of `imapFolderHeadersCallback` inside of a call, with what it has in `cpy` and the
slice from `c` up to `b`. -/
structure Scan where
  cpy : Text
  slice : Text
  prevWasNewline : Bool
  prevFoldingSpace : Bool
  deriving DecidableEq, Repr

variable (doFolding : Bool)

/-- One round of the loop. -/
def scanChar (s : Scan) (b : UInt8) : Scan :=
  if s.prevWasNewline then
    let s := { s with prevWasNewline := false }
    if b = NL then { s with cpy := s.cpy ++ [NL], slice := [] }
    else if doFolding && unicode_isspace b then
      { s with cpy := s.cpy ++ [SP], slice := s.slice ++ [b], prevFoldingSpace := true }
    else { s with cpy := s.cpy ++ [NL], slice := [b] }
  else if s.prevFoldingSpace && (b ≠ NL && unicode_isspace b) then
    { s with slice := s.slice ++ [b] }
  else
    let s := if s.prevFoldingSpace then { s with prevFoldingSpace := false, slice := [] } else s
    if b = NL then
      { s with cpy := s.cpy ++ s.slice, slice := s.slice ++ [b], prevWasNewline := true }
    else { s with slice := s.slice ++ [b] }

def messageTextCallback (prevWasNewline prevFoldingSpace : Bool) (text : Text) :
    Text × Bool × Bool :=
  let s := text.foldl (scanChar doFolding) ⟨[], [], prevWasNewline, prevFoldingSpace⟩
  (if !s.prevWasNewline && !s.prevFoldingSpace then s.cpy ++ s.slice else s.cpy,
    s.prevWasNewline, s.prevFoldingSpace)

def messageTexts : Bool → Bool → List Text → Text
  | _, _, [] => []
  | prevWasNewline, prevFoldingSpace, text :: texts =>
    let r := messageTextCallback doFolding prevWasNewline prevFoldingSpace text
    r.1 ++ messageTexts r.2.1 r.2.2 texts

end Filter

section Copy

/-- The variables of `CopyMimePart::copy`, with what `copyto` was given. -/
structure Copy where
  copied : Text
  output_buffer : Text
  lastCh : UInt8
  inHeaders : Bool
  foldingHeader : Bool
  deriving DecidableEq, Repr

def copyOut (size : Nat) (readType : ReadMode) (endingHeaders : Bool) (s : Copy) (c : UInt8) :
    Copy :=
  let s :=
    if s.inHeaders && readType = .readHeadersFolded && s.output_buffer.getLast? = some NL &&
        c ≠ NL && unicode_isspace c then
      { s with output_buffer := s.output_buffer.dropLast ++ [SP], foldingHeader := true }
    else s
  let s :=
    if s.foldingHeader && (c = NL || !unicode_isspace c) then { s with foldingHeader := false }
    else s
  if !s.foldingHeader then
    let s :=
      if size ≤ s.output_buffer.length || endingHeaders then
        { s with copied := s.copied ++ s.output_buffer, output_buffer := [] }
      else s
    { s with output_buffer := s.output_buffer ++ [c] }
  else s

/-- One round of the loop over the input. -/
def copyChar (size : Nat) (readType : ReadMode) (s : Copy) (c : UInt8) : Copy :=
  if c = CR then s
  else
    let endingHeaders := s.inHeaders && c = NL && s.lastCh = NL
    let wanted :=
      if s.inHeaders then readType ≠ .readContents
      else readType = .readContents ∨ readType = .readBoth
    let s := if wanted then copyOut size readType endingHeaders s c else s
    { s with inHeaders := s.inHeaders && !endingHeaders, lastCh := c }

/-- `CopyMimePart::copy` with what the calls of `read` give: all that `copyto` gets. -/
def copy (size : Nat) (readType : ReadMode) (reads : List Text) : Text :=
  let s := reads.foldl (fun s input => input.foldl (copyChar size readType) s)
    ⟨[], [], NL, true, false⟩
  if s.output_buffer ≠ [] then
    s.copied ++ s.output_buffer ++ if s.foldingHeader then [NL] else []
  else s.copied

end Copy

section Lines

/-- What is left of a file, and `feof`. -/
structure File where
  rest : Text
  eof : Bool
  deriving DecidableEq, Repr

/-- Up to so many characters of a line, what is left, and whether the end of the file was met. -/
def fillLine : Nat → Text → Text × Text × Bool
  | 0, p => ([], p, false)
  | _ + 1, [] => ([], [], true)
  | n + 1, c :: p =>
    if c = NL then ([c], p, false)
    else
      let r := fillLine n p
      (c :: r.1, r.2)

def getlineLoop (bufsiz : Nat) : Nat → Text → File → Text × File
  | 0, l, file => (l, file)
  | fuel + 1, l, file =>
    let (b, rest, eof) := fillLine bufsiz file.rest
    let file := ⟨rest, file.eof || eof⟩
    if b = [] then (l, file)
    else if b.getLast? ≠ some NL then getlineLoop bufsiz fuel (l ++ b) file
    else (l ++ b.dropLast, file)

/-- `mail::file::getline` with a buffer of this size. -/
def getline (bufsiz : Nat) (file : File) : Text × File :=
  let (l, file) := getlineLoop bufsiz (file.rest.length + 1) [] file
  (if l.getLast? = some CR then l.dropLast else l, file)

def cstr (p : Text) : Text := p.takeWhile (· ≠ NUL)

variable (bufsiz : Nat)

def headerText (hdr : Text) : List Text := if hdr ≠ [] then [hdr ++ [NL]] else []

/-- The loop of `mail::file::genericMessageRead` over the headers: the texts that are handed on. -/
def genericMessageRead (readType : ReadMode) : Nat → Text → File → Option (List Text)
  | 0, _, _ => none
  | fuel + 1, hdr, file =>
    if file.eof then some (headerText hdr)
    else
      let (l, file) := getline bufsiz file
      match l with
      | [] => some (headerText hdr)
      | c :: l =>
        if unicode_isspace c then
          let p := cstr (c :: l)
          let hdr :=
            if readType = .readHeaders then hdr ++ [NL] ++ p
            else hdr ++ [SP] ++ p.dropWhile unicode_isspace
          genericMessageRead readType fuel hdr file
        else (genericMessageRead readType fuel (c :: l) file).map (headerText hdr ++ ·)

end Lines

section Mbox

def magicTag : Text := str "X-MailPP-UID: "

def COLON : UInt8 := byte ':'

/-- Whether `mboxMagicTag` of a header line is `good`. -/
def mboxMagicTag (header : Text) : Bool :=
  if magicTag.isPrefixOf header then
    let header := header.drop magicTag.length
    let tag :=
      match header.dropWhile (· ≠ COLON) with
      | [] => header
      | colon :: behind =>
        if COLON ∈ behind then
          header.takeWhile (· ≠ COLON) ++ colon :: behind.takeWhile (· ≠ COLON)
        else header
    tag ≠ []
  else false

def FROM : Text := str "From "

def dequote (line : Text) : Text :=
  if line.head? = some (byte '>') ∧ FROM.isPrefixOf (line.dropWhile (· = byte '>')) then line.drop 1
  else line

variable (bufsiz : Nat)

/-- The loop of `mail::mbox::GenericReadTask::locked`, from the start of the message on. -/
def mboxRead (readType : ReadMode) : Nat → Bool → Bool → Text → File → Option (List Text)
  | 0, _, _, _, _ => none
  | fuel + 1, firstLine, inHeaders, header, file =>
    if file.eof then some (headerText header)
    else
      let (line, file) := getline bufsiz file
      if line = [] ∧ file.eof then some (headerText header)
      else if FROM.isPrefixOf line then
        if firstLine then mboxRead readType fuel firstLine inHeaders header file
        else some (headerText header)
      else if firstLine ∧ mboxMagicTag line then
        mboxRead readType fuel false inHeaders header file
      else if inHeaders then
        let inHeaders := decide (line ≠ [])
        if readType = .readHeadersFolded then
          let p := cstr line
          if line ≠ [] ∧ p.head?.any unicode_isspace then
            mboxRead readType fuel false inHeaders (header ++ [SP] ++ p.dropWhile unicode_isspace)
              file
          else
            (mboxRead readType fuel false inHeaders line file).map (headerText header ++ ·)
        else
          (mboxRead readType fuel false inHeaders header file).map ((line ++ [NL]) :: ·)
      else if readType ≠ .readBoth ∧ readType ≠ .readContents then some []
      else
        (mboxRead readType fuel false inHeaders header file).map (dequote (line ++ [NL]) :: ·)

end Mbox

section Folding

/-- White space inside of a line. -/
def blank (c : UInt8) : Bool := c ≠ NL && unicode_isspace c

/-- Each newline with white space behind it becomes one space, with all of that white space. -/
def folded (skip : Bool) : Text → Text
  | [] => []
  | c :: p =>
    if skip && blank c then folded true p
    else if c = NL ∧ p.head?.any blank then SP :: folded true p
    else c :: folded false p

variable {c : UInt8} {p line : Text}

theorem folded_cons_of_ne (hc : c ≠ NL) (p : Text) :
    folded false (c :: p) = c :: folded false p := by
  rw [folded, if_neg (by simp), if_neg fun h => hc h.1]

theorem folded_skip (hc : blank c = true) (p : Text) : folded true (c :: p) = folded true p := by
  rw [folded, if_pos (by simpa using hc)]

theorem folded_stop (hc : blank c = false) (p : Text) :
    folded true (c :: p) = folded false (c :: p) := by
  simp [folded, hc]

theorem folded_newline_blank (hc : blank c = true) (p : Text) :
    folded false (NL :: c :: p) = SP :: folded true p := by
  rw [folded, if_neg (by simp), if_pos ⟨rfl, by simpa using hc⟩, folded_skip hc]

theorem folded_newline (hc : blank c = false) (p : Text) :
    folded false (NL :: c :: p) = NL :: folded false (c :: p) := by
  rw [@folded.eq_2, if_neg (by simp), if_neg (by simp [hc])]

theorem folded_line (hline : NL ∉ line) (p : Text) :
    folded false (line ++ p) = line ++ folded false p := by
  induction line with
  | nil => rfl
  | cons c line ih =>
      obtain ⟨hc, hline⟩ := not_or.1 (mt List.mem_cons.2 hline)
      rw [List.cons_append, folded_cons_of_ne (Ne.symm hc), ih hline, List.cons_append]

theorem folded_dropWhile (hline : NL ∉ line) (p : Text) :
    folded true (line ++ NL :: p) = line.dropWhile unicode_isspace ++ folded false (NL :: p) := by
  induction line with
  | nil => exact folded_stop (by decide) p
  | cons c line ih =>
      obtain ⟨hc, hrest⟩ := not_or.1 (mt List.mem_cons.2 hline)
      rw [List.cons_append]
      cases hspace : unicode_isspace c with
      | true =>
          have hblank : blank c = true := by simp [blank, hspace, Ne.symm hc]
          rw [folded_skip hblank, ih hrest, List.dropWhile_cons_of_pos hspace]
      | false =>
          have hblank : blank c = false := by simp [blank, hspace]
          rw [folded_stop hblank, List.dropWhile_cons_of_neg (by simp [hspace]), ← List.cons_append,
            folded_line hline]

end Folding

section FilterSpec
variable {p : Text}

def filtered : Bool → Bool → Text → Text
  | _, _, [] => []
  | true, _, c :: p =>
    if c = NL then NL :: filtered false false p
    else if unicode_isspace c then SP :: filtered false true p
    else NL :: c :: filtered false false p
  | false, skip, c :: p =>
    if skip && blank c then filtered false true p
    else if c = NL then filtered true false p
    else c :: filtered false false p

def Scan.text (s : Scan) : Text :=
  if !s.prevWasNewline && !s.prevFoldingSpace then s.cpy ++ s.slice else s.cpy

theorem scanChar_text (s : Scan) (hs : s.prevWasNewline = true → s.prevFoldingSpace = false)
    (c : UInt8) (p : Text) :
    s.text ++ filtered s.prevWasNewline s.prevFoldingSpace (c :: p) =
        (scanChar true s c).text ++
          filtered (scanChar true s c).prevWasNewline (scanChar true s c).prevFoldingSpace p ∧
      ((scanChar true s c).prevWasNewline = true →
        (scanChar true s c).prevFoldingSpace = false) := by
  obtain ⟨cpy, slice, newline, space⟩ := s
  cases newline with
  | true =>
      obtain rfl : space = false := hs rfl
      by_cases hc : c = NL
      · simp [scanChar, filtered, Scan.text, hc]
      · by_cases hspace : unicode_isspace c
        · simp [scanChar, filtered, Scan.text, hc, hspace]
        · simp [scanChar, filtered, Scan.text, hc, hspace]
  | false =>
      cases space with
      | true =>
          by_cases hc : c = NL
          · simp [scanChar, filtered, Scan.text, blank, hc]
          · by_cases hspace : unicode_isspace c
            · simp [scanChar, filtered, Scan.text, blank, hc, hspace]
            · simp [scanChar, filtered, Scan.text, blank, hc, hspace]
      | false =>
          by_cases hc : c = NL
          · simp [scanChar, filtered, Scan.text, hc]
          · simp [scanChar, filtered, Scan.text, hc]

theorem foldl_scanChar (text : Text) (s : Scan)
    (hs : s.prevWasNewline = true → s.prevFoldingSpace = false) (p : Text) :
    s.text ++ filtered s.prevWasNewline s.prevFoldingSpace (text ++ p) =
        (text.foldl (scanChar true) s).text ++
          filtered (text.foldl (scanChar true) s).prevWasNewline
            (text.foldl (scanChar true) s).prevFoldingSpace p ∧
      ((text.foldl (scanChar true) s).prevWasNewline = true →
        (text.foldl (scanChar true) s).prevFoldingSpace = false) := by
  induction text generalizing s with
  | nil => exact ⟨rfl, hs⟩
  | cons c text ih =>
      obtain ⟨hstep, hs'⟩ := scanChar_text s hs c (text ++ p)
      obtain ⟨hrest, hs''⟩ := ih (scanChar true s c) hs'
      exact ⟨hstep.trans hrest, hs''⟩

theorem messageTexts_flatten (texts : List Text) (newline space : Bool)
    (hs : newline = true → space = false) :
    messageTexts true newline space texts = filtered newline space texts.flatten := by
  induction texts generalizing newline space with
  | nil => cases newline <;> rfl
  | cons text texts ih =>
      obtain ⟨hcall, hs'⟩ := foldl_scanChar text ⟨[], [], newline, space⟩ hs texts.flatten
      have hstart : (⟨[], [], newline, space⟩ : Scan).text = [] := by
        cases newline <;> cases space <;> rfl
      rw [hstart] at hcall
      rw [messageTexts, List.flatten_cons]
      exact (congrArg (_ ++ ·) (ih _ _ hs')).trans hcall.symm

/-- Lines without an empty one. -/
def Unbroken : Bool → Text → Prop
  | _, [] => True
  | start, c :: p => (c = NL → start = false) ∧ Unbroken (c = NL) p

theorem unbroken_line {line p : Text} (hline : NL ∉ line) (hp : Unbroken true p) {start : Bool}
    (hne : line ≠ [] ∨ start = false) : Unbroken start (line ++ NL :: p) := by
  induction line generalizing start with
  | nil => exact ⟨fun _ => hne.resolve_left fun h => h rfl, hp⟩
  | cons c line ih =>
      obtain ⟨hc, hline⟩ := not_or.1 (mt List.mem_cons.2 hline)
      exact ⟨fun h => absurd h.symm hc, ih hline (Or.inr (decide_eq_false (Ne.symm hc)))⟩

theorem filtered_header (p : Text) :
    (Unbroken true p → filtered true false (p ++ [NL]) = folded false (NL :: p)) ∧
      ∀ start skip, Unbroken start p → filtered false skip (p ++ [NL]) = folded skip p := by
  induction p with
  | nil =>
      refine ⟨fun _ => by decide, fun start skip _ => ?_⟩
      cases skip <;> decide
  | cons c p ih =>
      obtain ⟨hstart, hinside⟩ := ih
      constructor
      · rintro ⟨hc, hp⟩
        have hc : c ≠ NL := fun h => Bool.true_eq_false_eq_False (hc h)
        rw [List.cons_append, filtered, if_neg hc]
        cases hspace : unicode_isspace c with
        | true =>
            have hblank : blank c = true := by simp [blank, hspace, hc]
            rw [if_pos rfl, folded_newline_blank hblank, hinside _ true hp]
        | false =>
            have hblank : blank c = false := by simp [blank, hspace]
            rw [if_neg Bool.false_ne_true, folded_newline hblank, folded_cons_of_ne hc,
              hinside _ false hp]
      · rintro start skip ⟨-, hp⟩
        rw [List.cons_append, filtered]
        by_cases hskip : (skip && blank c) = true
        · rw [if_pos hskip, folded, if_pos hskip, hinside _ true hp]
        · rw [if_neg hskip]
          by_cases hc : c = NL
          · subst hc
            have hstop : folded skip (NL :: p) = folded false (NL :: p) := by
              cases skip with
              | true => exact folded_stop (by decide) p
              | false => rfl
            rw [if_pos rfl, hstop, hstart hp]
          · rw [if_neg hc, folded, if_neg hskip, if_neg fun h => hc h.1, hinside _ false hp]

end FilterSpec

section CopySpec
variable (size : Nat) {c : UInt8} {p : Text}

def Copy.whole (s : Copy) (p : Text) : Text :=
  s.copied ++
    if s.output_buffer.getLast? = some NL then s.output_buffer.dropLast ++ folded false (NL :: p)
    else s.output_buffer ++ folded s.foldingHeader p

structure Copying (s : Copy) : Prop where
  inHeaders : s.inHeaders = true
  newline : s.output_buffer.getLast? = some NL → s.foldingHeader = false

theorem getLast_dropLast {b : Text} (h : b.getLast? = some c) : b.dropLast ++ [c] = b := by
  obtain ⟨front, rfl⟩ := List.getLast?_eq_some_iff.1 h
  rw [List.dropLast_concat]

/-- A character that is no folding white space goes behind the others. -/
theorem whole_concat (copied buffer : Text) (c : UInt8) (lastCh : UInt8) (p : Text) :
    Copy.whole ⟨copied, buffer ++ [c], lastCh, true, false⟩ p =
      copied ++ buffer ++ folded false (c :: p) := by
  rw [Copy.whole]
  simp only [List.getLast?_concat, List.dropLast_concat, Option.some.injEq]
  by_cases hc : c = NL
  · rw [if_pos hc, hc, List.append_assoc]
  · rw [if_neg hc, folded_cons_of_ne hc, List.append_assoc, List.append_assoc]
    rfl

def Copy.add (s : Copy) (c : UInt8) : Copy :=
  let s :=
    if size ≤ s.output_buffer.length then
      { s with copied := s.copied ++ s.output_buffer, output_buffer := [] }
    else s
  { s with output_buffer := s.output_buffer ++ [c] }

theorem whole_add (copied buffer : Text) (lastCh c : UInt8) (p : Text) :
    (Copy.add size ⟨copied, buffer, lastCh, true, false⟩ c).whole p =
        copied ++ buffer ++ folded false (c :: p) ∧
      Copying (Copy.add size ⟨copied, buffer, lastCh, true, false⟩ c) := by
  rw [Copy.add]
  dsimp only
  split
  · refine ⟨?_, rfl, fun _ => rfl⟩
    have hconcat := whole_concat (copied ++ buffer) [] c lastCh p
    rwa [List.append_nil] at hconcat
  · exact ⟨whole_concat copied buffer c lastCh p, rfl, fun _ => rfl⟩

theorem copyOut_add {copied buffer : Text} {lastCh : UInt8} {folding : Bool}
    (hnewline : buffer.getLast? = some NL → blank c = false)
    (hfolding : folding = true → blank c = false) :
    copyOut size .readHeadersFolded false ⟨copied, buffer, lastCh, true, folding⟩ c =
      Copy.add size ⟨copied, buffer, lastCh, true, false⟩ c := by
  cases hblank : blank c with
  | true =>
      have hlast : buffer.getLast? ≠ some NL := fun h => by simp [hnewline h] at hblank
      obtain rfl : folding = false := by
        cases folding with
        | false => rfl
        | true => exact absurd (hfolding rfl) (by simp [hblank])
      simp [copyOut, Copy.add, hlast]
  | false =>
      by_cases hc : c = NL
      · cases folding <;> simp [copyOut, Copy.add, hc]
      · have hspace : unicode_isspace c = false := by simpa [blank, hc] using hblank
        cases folding <;> simp [copyOut, Copy.add, hspace]

theorem copyOut_whole {s : Copy} (hs : Copying s) (c : UInt8) (p : Text) :
    (copyOut size .readHeadersFolded false s c).whole p = s.whole (c :: p) ∧
      Copying (copyOut size .readHeadersFolded false s c) := by
  obtain ⟨copied, buffer, lastCh, headers, folding⟩ := s
  obtain ⟨hheaders, hnewline⟩ := hs
  simp only at hheaders hnewline
  subst hheaders
  have hadd := whole_add size copied buffer lastCh c p
  by_cases hlast : buffer.getLast? = some NL
  · obtain rfl := hnewline hlast
    cases hblank : blank c with
    | true =>
        -- the newline at the end of the buffer becomes a space
        have hc : c ≠ NL ∧ unicode_isspace c = true := by simpa [blank] using hblank
        have hout : copyOut size .readHeadersFolded false ⟨copied, buffer, lastCh, true, false⟩ c =
            ⟨copied, buffer.dropLast ++ [SP], lastCh, true, true⟩ := by
          simp [copyOut, hlast, hc]
        rw [hout]
        refine ⟨?_, rfl, fun h => ?_⟩
        · simp only [Copy.whole, hlast, if_true, folded_newline_blank hblank, List.getLast?_concat]
          rw [if_neg (by decide), List.append_assoc]
          rfl
        · simp only [List.getLast?_concat] at h
          exact absurd (Option.some.inj h) (by decide)
    | false =>
        rw [copyOut_add size (fun _ => hblank) fun h => absurd h Bool.false_ne_true]
        refine ⟨hadd.1.trans ?_, hadd.2⟩
        simp only [Copy.whole, hlast, if_true, folded_newline hblank]
        have hbuffer := getLast_dropLast hlast
        generalize buffer.dropLast = front at hbuffer
        rw [← hbuffer]
        simp only [List.append_assoc, List.singleton_append]
  · have hwhole : Copy.whole ⟨copied, buffer, lastCh, true, folding⟩ (c :: p) =
        copied ++ buffer ++ folded folding (c :: p) := by
      rw [Copy.whole, if_neg hlast, List.append_assoc]
    rw [hwhole]
    by_cases hskip : folding = true ∧ blank c = true
    · obtain ⟨rfl, hblank⟩ := hskip
      have hc : c ≠ NL ∧ unicode_isspace c = true := by simpa [blank] using hblank
      have hout : copyOut size .readHeadersFolded false ⟨copied, buffer, lastCh, true, true⟩ c =
          ⟨copied, buffer, lastCh, true, true⟩ := by
        simp [copyOut, hlast, hc]
      rw [hout, folded_skip hblank]
      refine ⟨?_, rfl, fun h => absurd h hlast⟩
      rw [Copy.whole, if_neg hlast, List.append_assoc]
    · have hfolding : folding = true → blank c = false := by
        intro h
        simpa [h] using hskip
      rw [copyOut_add size (fun h => absurd h hlast) hfolding]
      refine ⟨hadd.1.trans ?_, hadd.2⟩
      cases folding with
      | true => rw [folded_stop (hfolding rfl)]
      | false => rfl

theorem copyChar_whole {s : Copy} (hs : Copying s) (hcr : c ≠ CR)
    (hends : c = NL → decide (s.lastCh = NL) = false) (p : Text) :
    (copyChar size .readHeadersFolded s c).whole p = s.whole (c :: p) ∧
      Copying (copyChar size .readHeadersFolded s c) ∧
      (copyChar size .readHeadersFolded s c).lastCh = c := by
  have hending : (s.inHeaders && decide (c = NL) && decide (s.lastCh = NL)) = false := by
    by_cases hc : c = NL
    · rw [hends hc, Bool.and_false]
    · rw [decide_eq_false hc, Bool.and_false, Bool.false_and]
  obtain ⟨hwhole, hcopying⟩ := copyOut_whole size hs c p
  rw [hs.inHeaders] at hending
  rw [copyChar, if_neg hcr]
  simp only [hs.inHeaders, hending, if_true, ne_eq, reduceCtorEq, not_false_eq_true,
    Bool.not_false, Bool.and_true]
  exact ⟨hwhole, ⟨hcopying.inHeaders, hcopying.newline⟩, trivial⟩

theorem foldl_copyChar (text : Text) {s : Copy} (hs : Copying s) (hcr : CR ∉ text)
    (hends : Unbroken (s.lastCh = NL) text) (p : Text) :
    (text.foldl (copyChar size .readHeadersFolded) s).whole p = s.whole (text ++ p) ∧
      Copying (text.foldl (copyChar size .readHeadersFolded) s) ∧
      (text.foldl (copyChar size .readHeadersFolded) s).lastCh = text.getLast?.getD s.lastCh := by
  induction text generalizing s with
  | nil => exact ⟨rfl, hs, rfl⟩
  | cons c text ih =>
      obtain ⟨hc, hcr⟩ := not_or.1 (mt List.mem_cons.2 hcr)
      obtain ⟨hfirst, hrest⟩ := hends
      obtain ⟨hwhole, hcopying, hlast⟩ := copyChar_whole size hs (Ne.symm hc) hfirst
        (text ++ p)
      obtain ⟨hwhole', hcopying', hlast'⟩ := ih hcopying hcr (by rwa [hlast])
      refine ⟨hwhole'.trans hwhole, hcopying', hlast'.trans ?_⟩
      rw [hlast]
      cases text with
      | nil => rfl
      | cons d text => rw [List.getLast?_cons_cons, List.getLast?_cons, Option.getD_some,
          Option.getD_some]

theorem foldl_copyChar_body (body : Text) {s : Copy} (hs : s.inHeaders = false) :
    ∃ lastCh, body.foldl (copyChar size .readHeadersFolded) s = { s with lastCh } := by
  induction body generalizing s with
  | nil => exact ⟨s.lastCh, rfl⟩
  | cons c body ih =>
      have hstep : ∃ lastCh, copyChar size .readHeadersFolded s c = { s with lastCh } := by
        rw [copyChar]
        split
        · exact ⟨s.lastCh, rfl⟩
        · exact ⟨c, by simp [hs]⟩
      obtain ⟨lastCh, hstep⟩ := hstep
      rw [List.foldl_cons, hstep]
      exact @ih { s with lastCh } hs

theorem copy_header {header body : Text} (hcr : CR ∉ header) (hlines : Unbroken true header)
    (hlast : header.getLast?.getD NL = NL) (reads : List Text)
    (hreads : reads.flatten = header ++ NL :: body) :
    copy size .readHeadersFolded reads = folded false header ++ [NL] := by
  have hstart : Copying ⟨[], [], NL, true, false⟩ := ⟨rfl, nofun⟩
  obtain ⟨hwhole, hcopying, hlastCh⟩ := foldl_copyChar size header hstart hcr hlines []
  rw [copy, ← List.foldl_flatten, hreads, List.foldl_append]
  generalize header.foldl (copyChar size .readHeadersFolded) ⟨[], [], NL, true, false⟩ = s at *
  obtain ⟨copied, buffer, lastCh, headers, folding⟩ := s
  obtain ⟨hheaders, hnewline⟩ := hcopying
  simp only at hheaders hnewline hlastCh
  subst hheaders
  obtain rfl : lastCh = NL := hlastCh.trans hlast
  -- the newline of the empty line empties the buffer
  have hbuffer : copied ++ buffer = folded false header := by
    rw [List.append_nil] at hwhole
    refine Eq.trans ?_ hwhole
    rw [Copy.whole]
    split
    · rename_i hnl
      exact congrArg (copied ++ ·) (getLast_dropLast hnl).symm
    · exact congrArg (copied ++ ·) (List.append_nil buffer).symm
  have hend : copyChar size .readHeadersFolded ⟨copied, buffer, NL, true, folding⟩ NL =
      ⟨copied ++ buffer, [NL], NL, false, false⟩ := by
    have hcr : NL ≠ CR := by decide
    cases folding <;> simp [copyChar, copyOut, hcr]
  obtain ⟨lastCh, hbody⟩ :=
    foldl_copyChar_body size body (s := ⟨copied ++ buffer, [NL], NL, false, false⟩) rfl
  rw [List.foldl_cons, hend, hbody, ← hbuffer]
  exact List.append_nil _

end CopySpec

section LinesSpec
variable {bufsiz : Nat} {line p : Text}

theorem fillLine_long (n : Nat) (hline : NL ∉ line) (hlong : n ≤ line.length) :
    fillLine n (line ++ p) = (line.take n, line.drop n ++ p, false) := by
  induction n generalizing line with
  | zero => rfl
  | succ n ih =>
      cases line with
      | nil => exact absurd hlong (Nat.not_succ_le_zero n)
      | cons c line =>
          obtain ⟨hc, hline⟩ := not_or.1 (mt List.mem_cons.2 hline)
          rw [List.cons_append, fillLine, if_neg (Ne.symm hc),
            ih hline (Nat.le_of_succ_le_succ hlong)]
          rfl

theorem fillLine_short (n : Nat) (hline : NL ∉ line) (hshort : line.length < n) :
    fillLine n (line ++ NL :: p) = (line ++ [NL], p, false) := by
  induction n generalizing line with
  | zero => exact absurd hshort (Nat.not_lt_zero _)
  | succ n ih =>
      cases line with
      | nil => rfl
      | cons c line =>
          obtain ⟨hc, hline⟩ := not_or.1 (mt List.mem_cons.2 hline)
          rw [List.cons_append, fillLine, if_neg (Ne.symm hc),
            ih hline (Nat.lt_of_succ_lt_succ hshort)]
          rfl

theorem getlineLoop_line (hsiz : 0 < bufsiz) (fuel : Nat) (hline : NL ∉ line)
    (hfuel : line.length < fuel) (l : Text) :
    getlineLoop bufsiz fuel l ⟨line ++ NL :: p, false⟩ = (l ++ line, ⟨p, false⟩) := by
  induction fuel generalizing line l with
  | zero => exact absurd hfuel (Nat.not_lt_zero _)
  | succ fuel ih =>
      rw [getlineLoop]
      rcases Nat.lt_or_ge line.length bufsiz with hshort | hlong
      · simp only [fillLine_short bufsiz hline hshort, Bool.or_false]
        rw [if_neg (by simp), if_neg (by simp), List.dropLast_concat]
      · have hlen : (line.take bufsiz).length = bufsiz := List.length_take_of_le hlong
        have hne : line.take bufsiz ≠ [] := fun h => by
          rw [h] at hlen
          exact Nat.ne_of_lt hsiz hlen
        have hlast : (line.take bufsiz).getLast? ≠ some NL := fun h =>
          hline (List.mem_of_mem_take (List.mem_of_getLast? h))
        simp only [fillLine_long bufsiz hline hlong, Bool.or_false]
        rw [if_neg hne, if_pos hlast, ih (fun mem => hline (List.mem_of_mem_drop mem)),
          List.append_assoc, List.take_append_drop]
        rw [List.length_drop]
        omega

theorem getline_line (hsiz : 0 < bufsiz) (hline : NL ∉ line) (hcr : CR ∉ line) :
    getline bufsiz ⟨line ++ NL :: p, false⟩ = (line, ⟨p, false⟩) := by
  have hlast : line.getLast? ≠ some CR := fun h => hcr (List.mem_of_getLast? h)
  rw [getline, getlineLoop_line hsiz _ hline (by rw [List.length_append, List.length_cons]; omega)]
  simp only [List.nil_append, if_neg hlast]

structure HeaderLine (line : Text) : Prop where
  nonempty : line ≠ []
  newline : NL ∉ line
  return_ : CR ∉ line
  nul : NUL ∉ line

def headerOf (lines : List Text) : Text := lines.flatMap (· ++ [NL])

theorem headerOf_cons (line : Text) (lines : List Text) (p : Text) :
    headerOf (line :: lines) ++ p = line ++ NL :: (headerOf lines ++ p) := by
  rw [headerOf, List.flatMap_cons, List.append_assoc, List.append_assoc]
  rfl

theorem folded_continuation (hspace : line.head?.any unicode_isspace = true) (hline : NL ∉ line)
    (p : Text) :
    folded false (NL :: (line ++ NL :: p)) =
      SP :: line.dropWhile unicode_isspace ++ folded false (NL :: p) := by
  cases line with
  | nil => cases hspace
  | cons c line =>
      have hblank : blank c = true := by
        simpa [blank, Ne.symm (List.ne_of_not_mem_cons hline)] using hspace
      rw [List.cons_append, folded_newline_blank hblank, ← folded_skip hblank, ← List.cons_append,
        folded_dropWhile hline, List.cons_append]

theorem folded_field (hspace : line.head?.any unicode_isspace = false) (hne : line ≠ [])
    (hline : NL ∉ line) (p : Text) :
    folded false (NL :: (line ++ NL :: p)) = NL :: line ++ folded false (NL :: p) := by
  cases line with
  | nil => exact absurd rfl hne
  | cons c line =>
      have hblank : blank c = false := by
        simp only [List.head?_cons, Option.any_some] at hspace
        simp [blank, hspace]
      rw [List.cons_append, folded_newline hblank, ← List.cons_append, folded_line hline]
      rfl

theorem cstr_eq (h : NUL ∉ line) : cstr line = line :=
  List.takeWhile_eq_self_iff.2 fun _ mem => decide_eq_true fun heq => h (heq ▸ mem)

variable {lines : List Text}

theorem genericMessageRead_end (hsiz : 0 < bufsiz) (body : Text) (fuel : Nat) (hdr : Text) :
    genericMessageRead bufsiz .readHeadersFolded (fuel + 1) hdr ⟨NL :: body, false⟩ =
      some (headerText hdr) := by
  have hget : getline bufsiz ⟨NL :: body, false⟩ = ([], ⟨body, false⟩) :=
    @getline_line bufsiz [] body hsiz nofun nofun
  rw [genericMessageRead, if_neg Bool.false_ne_true, hget]

theorem genericMessageRead_line (hsiz : 0 < bufsiz) (hline : HeaderLine line) (fuel : Nat)
    (hdr p : Text) :
    genericMessageRead bufsiz .readHeadersFolded (fuel + 1) hdr ⟨line ++ NL :: p, false⟩ =
      if line.head?.any unicode_isspace then
        genericMessageRead bufsiz .readHeadersFolded fuel
          (hdr ++ [SP] ++ line.dropWhile unicode_isspace) ⟨p, false⟩
      else
        (genericMessageRead bufsiz .readHeadersFolded fuel line ⟨p, false⟩).map
          (headerText hdr ++ ·) := by
  have hget := getline_line (p := p) hsiz hline.newline hline.return_
  rw [genericMessageRead, if_neg Bool.false_ne_true, hget]
  cases line with
  | nil => exact absurd rfl hline.nonempty
  | cons c line =>
      simp only [cstr_eq hline.nul, reduceCtorEq, if_false, List.head?_cons, Option.any_some]
      rfl

structure ReadsLines (read : Nat → Text → Text → Option (List Text)) (lines : List Text)
    (body : Text) (more : Nat) : Prop where
  line : ∀ line ∈ lines, ∀ fuel hdr p, read (fuel + 1) hdr (line ++ NL :: p) =
    if line.head?.any unicode_isspace then
      read fuel (hdr ++ [SP] ++ line.dropWhile unicode_isspace) p
    else (read fuel line p).map (headerText hdr ++ ·)
  last : ∀ fuel hdr, read (fuel + more) hdr (NL :: body) = some (headerText hdr)

theorem ReadsLines.folded {read : Nat → Text → Text → Option (List Text)} {body : Text}
    {more : Nat} (h : ReadsLines read lines body more) (hlines : ∀ line ∈ lines, HeaderLine line)
    (fuel : Nat) (hfuel : lines.length + more ≤ fuel) (hdr : Text) (hhdr : hdr ≠ []) :
    ∃ texts, read fuel hdr (headerOf lines ++ NL :: body) = some texts ∧
      texts.flatten = hdr ++ folded false (NL :: headerOf lines) := by
  induction lines generalizing hdr fuel with
  | nil =>
      obtain ⟨fuel, rfl⟩ : ∃ n, fuel = n + more := ⟨fuel - more, by simp at hfuel; omega⟩
      refine ⟨[hdr ++ [NL]], (h.last fuel hdr).trans ?_, ?_⟩
      · rw [headerText, if_pos hhdr]
      · exact List.flatten_singleton
  | cons line lines ih =>
      obtain ⟨fuel, rfl⟩ : ∃ n, fuel = n + 1 := ⟨fuel - 1, by simp at hfuel; omega⟩
      have hline := hlines line List.mem_cons_self
      have hrest := @ih ⟨fun l mem => h.line l (List.mem_cons_of_mem line mem), h.last⟩
        (fun l mem => hlines l (List.mem_cons_of_mem line mem)) fuel
        (by rw [List.length_cons] at hfuel; omega)
      have hheader := headerOf_cons line lines []
      rw [List.append_nil, List.append_nil] at hheader
      rw [headerOf_cons, hheader, h.line line List.mem_cons_self]
      cases hspace : line.head?.any unicode_isspace with
      | true =>
          obtain ⟨texts, hrun, hflat⟩ :=
            hrest (hdr ++ [SP] ++ line.dropWhile unicode_isspace) (by simp)
          refine ⟨texts, hrun, ?_⟩
          rw [hflat, folded_continuation hspace hline.newline, List.append_assoc,
            List.append_assoc]
          rfl
      | false =>
          obtain ⟨texts, hrun, hflat⟩ := hrest line hline.nonempty
          refine ⟨headerText hdr ++ texts, ?_, ?_⟩
          · rw [if_neg Bool.false_ne_true, hrun, Option.map_some]
          · rw [List.flatten_append, hflat, folded_field hspace hline.nonempty hline.newline,
              headerText, if_pos hhdr, List.flatten_singleton, List.append_assoc]
            rfl

theorem ReadsLines.folded_first {read : Nat → Text → Text → Option (List Text)} {body : Text}
    {more : Nat} {first : Text} (h : ReadsLines read lines body more)
    (hlines : ∀ line ∈ lines, HeaderLine line) (hfirst : HeaderLine first)
    (hspace : first.head?.any unicode_isspace = false) (fuel : Nat)
    (hfuel : lines.length + more ≤ fuel) {start : Option (List Text)}
    (hstart : start =
      if first.head?.any unicode_isspace then
        read fuel ([] ++ [SP] ++ first.dropWhile unicode_isspace) (headerOf lines ++ NL :: body)
      else (read fuel first (headerOf lines ++ NL :: body)).map (headerText [] ++ ·)) :
    ∃ texts, start = some texts ∧
      texts.flatten = HeaderFolding.folded false (headerOf (first :: lines)) := by
  obtain ⟨texts, hrun, hflat⟩ := h.folded hlines fuel hfuel first hfirst.nonempty
  refine ⟨texts, ?_, ?_⟩
  · rw [hstart, hspace, if_neg Bool.false_ne_true, hrun]
    rfl
  · have hheader := headerOf_cons first lines []
    rw [List.append_nil, List.append_nil] at hheader
    rw [hflat, hheader, folded_line hfirst.newline]

def StartsField (lines : List Text) : Prop :=
  ∀ line ∈ lines.head?, line.head?.any unicode_isspace = false

theorem genericMessageRead_header (hsiz : 0 < bufsiz) (body : Text)
    (hlines : ∀ line ∈ lines, HeaderLine line) (hfirst : StartsField lines) (fuel : Nat)
    (hfuel : lines.length < fuel) :
    ∃ texts, genericMessageRead bufsiz .readHeadersFolded fuel []
        ⟨headerOf lines ++ NL :: body, false⟩ = some texts ∧
      texts.flatten = folded false (headerOf lines) := by
  obtain ⟨fuel, rfl⟩ : ∃ n, fuel = n + 1 := ⟨fuel - 1, by omega⟩
  cases lines with
  | nil => exact ⟨[], genericMessageRead_end hsiz body fuel [], rfl⟩
  | cons line lines =>
      have hrest : ∀ l ∈ lines, HeaderLine l := fun l mem =>
        hlines l (List.mem_cons_of_mem line mem)
      have hreads : ReadsLines
          (fun fuel hdr p => genericMessageRead bufsiz .readHeadersFolded fuel hdr ⟨p, false⟩) lines
          body 1 :=
        ⟨fun l mem => genericMessageRead_line hsiz (hrest l mem), genericMessageRead_end hsiz body⟩
      have hline := hlines line List.mem_cons_self
      have hstart := genericMessageRead_line hsiz hline fuel [] (headerOf lines ++ NL :: body)
      rw [← headerOf_cons] at hstart
      exact hreads.folded_first hrest hline (hfirst line rfl) fuel (Nat.le_of_lt_succ hfuel) hstart

end LinesSpec

section MboxSpec
variable {bufsiz : Nat} {line p : Text} {lines : List Text}

theorem mboxRead_line (hsiz : 0 < bufsiz) {firstLine : Bool} (hline : HeaderLine line)
    (hfrom : FROM.isPrefixOf line = false) (htag : firstLine = true → mboxMagicTag line = false)
    (fuel : Nat) (header p : Text) :
    mboxRead bufsiz .readHeadersFolded (fuel + 1) firstLine true header
        ⟨line ++ NL :: p, false⟩ =
      if line.head?.any unicode_isspace then
        mboxRead bufsiz .readHeadersFolded fuel false true
          (header ++ [SP] ++ line.dropWhile unicode_isspace) ⟨p, false⟩
      else
        (mboxRead bufsiz .readHeadersFolded fuel false true line ⟨p, false⟩).map
          (headerText header ++ ·) := by
  have hget := getline_line (p := p) hsiz hline.newline hline.return_
  have hmagic : ¬ (firstLine = true ∧ mboxMagicTag line = true) := by
    rintro ⟨h, hgood⟩
    rw [htag h] at hgood
    cases hgood
  rw [mboxRead, if_neg Bool.false_ne_true, hget]
  simp only [hfrom, hmagic, hline.nonempty, cstr_eq hline.nul, Bool.false_eq_true, and_false,
    if_false, if_true, ne_eq, not_false_eq_true, decide_true, true_and]

/-- Behind the empty line there is nothing more for the callback. -/
theorem mboxRead_body (fuel : Nat) (file : File) :
    mboxRead bufsiz .readHeadersFolded (fuel + 1) false false [] file = some [] := by
  rw [mboxRead]
  split
  · rfl
  · rcases getline bufsiz file with ⟨line, file⟩
    simp only [Bool.false_eq_true, false_and, if_false, ne_eq, reduceCtorEq, not_false_eq_true,
      and_self, if_true]
    split
    · rfl
    · split <;> rfl

theorem mboxRead_end (hsiz : 0 < bufsiz) (body : Text) (fuel : Nat) (firstLine : Bool)
    (header : Text) :
    mboxRead bufsiz .readHeadersFolded (fuel + 2) firstLine true header ⟨NL :: body, false⟩ =
      some (headerText header) := by
  have hget : getline bufsiz ⟨NL :: body, false⟩ = ([], ⟨body, false⟩) :=
    @getline_line bufsiz [] body hsiz nofun nofun
  have hfrom : FROM.isPrefixOf [] = false := by decide
  have hmagic : mboxMagicTag [] = false := by decide
  rw [mboxRead, if_neg Bool.false_ne_true, hget]
  simp only [hfrom, hmagic, Bool.false_eq_true, and_false, if_false, if_true, ne_eq,
    not_true_eq_false, false_and, decide_false, mboxRead_body, Option.map_some, List.append_nil]

theorem mboxRead_header (hsiz : 0 < bufsiz) (body : Text) (hlines : ∀ line ∈ lines, HeaderLine line)
    (hfirst : StartsField lines) (hfrom : ∀ line ∈ lines, FROM.isPrefixOf line = false)
    {firstLine : Bool}
    (htag : firstLine = true → ∀ line ∈ lines.head?, mboxMagicTag line = false) (fuel : Nat)
    (hfuel : lines.length + 2 ≤ fuel) :
    ∃ texts, mboxRead bufsiz .readHeadersFolded fuel firstLine true []
        ⟨headerOf lines ++ NL :: body, false⟩ = some texts ∧
      texts.flatten = folded false (headerOf lines) := by
  cases lines with
  | nil =>
      obtain ⟨fuel, rfl⟩ : ∃ n, fuel = n + 2 := ⟨fuel - 2, by simp at hfuel; omega⟩
      exact ⟨[], mboxRead_end hsiz body fuel firstLine [], rfl⟩
  | cons line lines =>
      obtain ⟨fuel, rfl⟩ : ∃ n, fuel = n + 1 := ⟨fuel - 1, by simp at hfuel; omega⟩
      have hrest : ∀ l ∈ lines, HeaderLine l := fun l mem =>
        hlines l (List.mem_cons_of_mem line mem)
      have hreads : ReadsLines
          (fun fuel hdr p => mboxRead bufsiz .readHeadersFolded fuel false true hdr ⟨p, false⟩)
          lines body 2 :=
        ⟨fun l mem => mboxRead_line hsiz (hrest l mem) (hfrom l (List.mem_cons_of_mem line mem))
          nofun, fun fuel hdr => mboxRead_end hsiz body fuel false hdr⟩
      have hline := hlines line List.mem_cons_self
      have hstart := mboxRead_line hsiz hline (hfrom line List.mem_cons_self)
        (fun h => htag h line rfl) fuel [] (headerOf lines ++ NL :: body)
      rw [← headerOf_cons] at hstart
      exact hreads.folded_first hrest hline (hfirst line rfl) fuel
        (by rw [List.length_cons] at hfuel; omega) hstart

structure Envelope (froms : List Text) (tag : Option Text) : Prop where
  froms : ∀ line ∈ froms, FROM.isPrefixOf line = true ∧ NL ∉ line ∧ CR ∉ line
  tag : ∀ line ∈ tag, mboxMagicTag line = true ∧ NL ∉ line ∧ CR ∉ line

theorem mboxRead_envelope (hsiz : 0 < bufsiz) {froms : List Text} {tag : Option Text}
    (h : Envelope froms tag) (fuel : Nat) (p : Text) :
    mboxRead bufsiz .readHeadersFolded (fuel + tag.toList.length + froms.length) true true []
        ⟨headerOf froms ++ (headerOf tag.toList ++ p), false⟩ =
      mboxRead bufsiz .readHeadersFolded fuel tag.isNone true [] ⟨p, false⟩ := by
  obtain ⟨hfroms, htag⟩ := h
  induction froms with
  | nil =>
      cases tag with
      | none => rfl
      | some line =>
          obtain ⟨hmagic, hnl, hcr⟩ := htag line rfl
          have hget := getline_line (p := p) hsiz hnl hcr
          have hne : line ≠ [] := by
            rintro rfl
            revert hmagic
            decide
          have hstarts : FROM.isPrefixOf line = false := by
            have htagged : magicTag.isPrefixOf line = true := by
              by_contra h
              rw [mboxMagicTag, if_neg h] at hmagic
              cases hmagic
            obtain ⟨rest, rfl⟩ := List.isPrefixOf_iff_prefix.1 htagged
            rfl
          have hone : headerOf [line] ++ p = line ++ NL :: p := headerOf_cons line [] p
          rw [Option.toList_some, hone, headerOf, List.flatMap_nil, List.nil_append]
          simp only [List.length_cons, List.length_nil, Nat.zero_add, Nat.add_zero, mboxRead, hget]
          simp only [hne, hstarts, hmagic, Bool.false_eq_true, false_and, and_self, if_false,
            if_true, Option.isNone_some]
  | cons line froms ih =>
      obtain ⟨hstarts, hnl, hcr⟩ := hfroms line List.mem_cons_self
      have hget := getline_line (p := headerOf froms ++ (headerOf tag.toList ++ p)) hsiz hnl hcr
      have hrest := ih fun l mem => hfroms l (List.mem_cons_of_mem line mem)
      have hne : line ≠ [] := by
        rintro rfl
        revert hstarts
        decide
      rw [headerOf_cons, List.length_cons, ← Nat.add_assoc, mboxRead, if_neg Bool.false_ne_true,
        hget]
      simp only [hne, hstarts, false_and, if_false, if_true]
      exact hrest

end MboxSpec

section Readings
variable {lines : List Text}

theorem unbroken_header (hlines : ∀ line ∈ lines, line ≠ [] ∧ NL ∉ line) :
    Unbroken true (headerOf lines) := by
  induction lines with
  | nil => trivial
  | cons line lines ih =>
      obtain ⟨hne, hnl⟩ := hlines line List.mem_cons_self
      have hrest := ih fun l mem => hlines l (List.mem_cons_of_mem line mem)
      have hheader := headerOf_cons line lines []
      rw [List.append_nil, List.append_nil] at hheader
      rw [hheader]
      exact unbroken_line hnl hrest (Or.inl hne)

theorem getLast_headerOf (lines : List Text) : (headerOf lines).getLast?.getD NL = NL := by
  rcases List.eq_nil_or_concat' lines with rfl | ⟨front, last, rfl⟩
  · rfl
  · rw [headerOf, List.flatMap_append, List.flatMap_singleton, List.getLast?_append,
      List.getLast?_append]
    rfl

/-- All four fold the header alike, up to the empty line; the two that read lines where it has no
NUL, and the mailbox where no line is a From line and the first is no magic tag. -/
theorem headers_fold_alike (lines : List Text)
    (hlines : ∀ line ∈ lines, line ≠ [] ∧ NL ∉ line ∧ CR ∉ line) (hfirst : StartsField lines) :
    (∀ texts : List Text, texts.flatten = headerOf lines ++ [NL] →
      messageTexts true false false texts = folded false (headerOf lines)) ∧
    (∀ (size : Nat) (reads : List Text) (body : Text),
      reads.flatten = headerOf lines ++ NL :: body →
      copy size .readHeadersFolded reads = folded false (headerOf lines) ++ [NL]) ∧
    ((∀ line ∈ lines, NUL ∉ line) → ∀ (bufsiz : Nat) (body : Text), 0 < bufsiz →
      (∀ fuel, lines.length < fuel →
        ∃ texts, genericMessageRead bufsiz .readHeadersFolded fuel []
            ⟨headerOf lines ++ NL :: body, false⟩ = some texts ∧
          texts.flatten = folded false (headerOf lines)) ∧
      ((∀ line ∈ lines, FROM.isPrefixOf line = false) →
        ∀ (froms : List Text) (tag : Option Text), Envelope froms tag →
        (tag = none → ∀ line ∈ lines.head?, mboxMagicTag line = false) →
        ∀ fuel, lines.length + 2 ≤ fuel →
          ∃ texts, mboxRead bufsiz .readHeadersFolded
              (fuel + tag.toList.length + froms.length) true true []
              ⟨headerOf froms ++ (headerOf tag.toList ++ (headerOf lines ++ NL :: body)), false⟩ =
                some texts ∧
            texts.flatten = folded false (headerOf lines))) := by
  have hunbroken := unbroken_header fun line mem => ⟨(hlines line mem).1, (hlines line mem).2.1⟩
  refine ⟨?_, ?_, ?_⟩
  · intro texts htexts
    rw [messageTexts_flatten texts false false nofun, htexts]
    exact (filtered_header _).2 true false hunbroken
  · intro size reads body hreads
    have hcr : CR ∉ headerOf lines := by
      intro mem
      obtain ⟨line, hline, mem⟩ := List.mem_flatMap.1 mem
      rcases List.mem_append.1 mem with mem | mem
      · exact (hlines line hline).2.2 mem
      · exact absurd (List.mem_singleton.1 mem) (by decide)
    exact copy_header size hcr hunbroken (getLast_headerOf lines) reads hreads
  · intro hnul bufsiz body hsiz
    have hheader : ∀ line ∈ lines, HeaderLine line := fun line mem =>
      ⟨(hlines line mem).1, (hlines line mem).2.1, (hlines line mem).2.2, hnul line mem⟩
    refine ⟨fun fuel hfuel => genericMessageRead_header hsiz body hheader hfirst fuel hfuel, ?_⟩
    intro hfrom froms tag henvelope htag fuel hfuel
    rw [mboxRead_envelope hsiz henvelope]
    refine mboxRead_header hsiz body hheader hfirst hfrom (fun hnone => htag ?_) fuel hfuel
    exact Option.isNone_iff_eq_none.1 hnone

theorem headers_fold_alike_sample :
    messageTexts true false false [str "A: b\n", str " \x09", str "c\nD: e", str "\n\n"] =
      str "A: b c\nD: e\n" := by
  have h := (headers_fold_alike [str "A: b", str " \x09c", str "D: e"] (by decide)
    (by unfold StartsField; decide)).1 [str "A: b\n", str " \x09", str "c\nD: e", str "\n\n"]
    (by decide)
  rw [h]
  decide

/-- In a mailbox a From line starts the next message. -/
theorem from_line_ends_headers :
    messageTexts true false false [str "A: b\nFrom c\nD: e\n\n"] = str "A: b\nFrom c\nD: e\n" ∧
      mboxRead 1000 .readHeadersFolded 9 true true []
        ⟨str "From me\nA: b\nFrom c\nD: e\n\n", false⟩ = some [str "A: b\n"] := by
  decide +kernel

end Readings
end Cone.HeaderFolding
