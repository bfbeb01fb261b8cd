import Cone.Lib.Istream
import Cone.Rfc2045Header
import Mathlib.Data.List.Pairwise
import Mathlib.Data.List.TakeWhile
import Mathlib.Data.Nat.Find

/-! # The headers of a draft

The loop over the headers of the file `message.txt` in `CursesEdit::init` of cursesedit.C. What a
field is given stands as it is given; the address parser and the decoder come after. -/
set_option autoImplicit false
namespace Cone.CursesEdit

open Cone.Ctype Cone.Lib.Istream
open Cone.Rfc2045Header (tolower)

abbrev Text := List UInt8

def COLON : UInt8 := byte ':'

def unicodeIsspace (c : UInt8) : Bool :=
  c = 0x09 || c = 0x0A || c = 0x0B || c = 0x0C || c = 0x0D || c = 0x20 || c = 0x85

def cstr (s : Text) : Text := s.takeWhile (· ≠ NUL)

def strcasecmp (p q : Text) : Bool := (cstr p).map tolower = (cstr q).map tolower

section Stream

structure Ifstream where
  rest : Text
  eof : Bool
  fail : Bool

def opened (file : Text) : Ifstream := ⟨file, false, false⟩

def getline (i : Ifstream) (line : Text) : Ifstream × Text :=
  if i.eof || i.fail then ({ i with fail := true }, line)
  else
    let line := i.rest.takeWhile (· ≠ NL)
    match i.rest.dropWhile (· ≠ NL) with
    | [] => (⟨[], true, line = []⟩, line)
    | _ :: rest => (⟨rest, false, false⟩, line)

end Stream

section Loop

inductive Field where
  | «from» | to | cc | bcc | replyTo | subject | newsgroups | followupTo
  | xServer | xFcc | xFolder | xUid
  | custom (k : Nat)
  deriving DecidableEq, Repr

def name (s : String) : Text := s.toList.map byte

/-- The headers after which the loop begins again at once. -/
def taken : List (Text × Field) :=
  [(name "from", .«from»), (name "to", .to), (name "cc", .cc), (name "bcc", .bcc),
   (name "reply-to", .replyTo), (name "subject", .subject), (name "newsgroups", .newsgroups),
   (name "followup-to", .followupTo)]

def noted : List (Text × Field) :=
  [(name "x-server", .xServer), (name "x-fcc", .xFcc), (name "x-folder", .xFolder),
   (name "x-uid", .xUid)]

def customField (customHeaders : List Text) (hdrname : Text) : Option Field :=
  (customHeaders.findIdx? (strcasecmp · (hdrname ++ [COLON]))).map .custom

def fieldsOf (customHeaders : List Text) (hdrname : Text) : List Field × Bool :=
  match taken.find? (strcasecmp hdrname ·.1) with
  | some f => ([f.2], true)
  | none =>
    ((noted.filter (strcasecmp hdrname ·.1)).map Prod.snd ++
      (customField customHeaders hdrname).toList, false)

def splitHeader (hdr : Text) : Text × Text :=
  match hdr.dropWhile (· ≠ COLON) with
  | [] => ([], hdr)
  | _ :: text => (hdr.takeWhile (· ≠ COLON), text.dropWhile unicodeIsspace)

/-- What a continuation line adds: its white space but the last is left out. -/
def wrapped (line : Text) : Text := line.drop ((line.takeWhile unicodeIsspace).length - 1)

abbrev Given := List (Field × Text)

variable (customHeaders : List Text)

def given (hdr : Text) : Given :=
  (fieldsOf customHeaders (splitHeader hdr).1).1.map fun f => (f, (splitHeader hdr).2)

/-- `headerLoop fuel i line cur_hdr` -/
def headerLoop : Nat → Ifstream → Text → Text → Given → Option (Ifstream × Given)
  | 0, _, _, _, _ => none
  | fuel + 1, i, line, curHdr, fields =>
    let (i, line) := getline i line
    if i.fail && !i.eof then some (i, fields)
    else if line.head?.any unicodeIsspace then
      headerLoop fuel i line (curHdr ++ wrapped line) fields
    else
      let fields := fields ++ given customHeaders curHdr
      if (fieldsOf customHeaders (splitHeader curHdr).1).2 then headerLoop fuel i line line fields
      else if line = [] then some (i, fields)
      else headerLoop fuel i line line fields

end Loop

/-! ## Drafts -/

section Drafts

structure Header where
  name : Text
  text : Text
  more : List Text
  name_ne : name ≠ []
  name_plain : ∀ c ∈ name, c ≠ COLON ∧ c ≠ NUL ∧ c ≠ NL
  name_start : ∀ c ∈ name.head?, unicodeIsspace c = false
  text_line : NL ∉ text
  more_wrapped : ∀ line ∈ more, NL ∉ line ∧ line.head?.any unicodeIsspace = true

namespace Header

def isName (name : Text) : Bool :=
  !name.isEmpty && name.all (fun c => c ≠ COLON && c ≠ NUL && c ≠ NL) &&
    !name.head?.any unicodeIsspace

def oneLine (name text : Text) (ok : isName name = true) (text_line : NL ∉ text) : Header where
  name := name
  text := text
  more := []
  name_ne := by
    rintro rfl
    cases ok
  name_plain := by
    intro c hc
    have all := List.all_eq_true.mp (Bool.and_eq_true_iff.mp (Bool.and_eq_true_iff.mp ok).1).2 c hc
    simpa [and_assoc] using all
  name_start := by
    have start := (Bool.and_eq_true_iff.mp ok).2
    intro c hc
    rw [Option.mem_def.mp hc] at start
    simpa using start
  text_line := text_line
  more_wrapped line mem := absurd mem List.not_mem_nil

def line (h : Header) : Text := h.name ++ COLON :: h.text

def lines (h : Header) : List Text := h.line :: h.more

def unfolded (h : Header) : Text := h.line ++ h.more.flatMap wrapped

def value (h : Header) : Text := (h.text ++ h.more.flatMap wrapped).dropWhile unicodeIsspace

end Header

/-- A file ends with an empty line and a body, or inside the headers, with a newline or without. -/
inductive Ending where
  | body (text : Text)
  | closed
  | cut

def Ending.text : Ending → Text
  | .body text => text
  | .closed => []
  | .cut => []

def headerText (hs : List Header) : Text := unlines (hs.flatMap Header.lines)

def draft (hs : List Header) : Ending → Text
  | .body text => headerText hs ++ NL :: text
  | .closed => headerText hs
  | .cut => (headerText hs).dropLast

variable (customHeaders : List Text)

def named : Field → Text → Bool
  | .custom k, hdrname => (customHeaders[k]?).any (strcasecmp · (hdrname ++ [COLON]))
  | f, hdrname => (taken ++ noted).any fun e => e.2 = f && strcasecmp hdrname e.1

def isTaken (hdrname : Text) : Bool := taken.any (strcasecmp hdrname ·.1)

def ReadsDraft (hs : List Header) (ending : Ending) : Prop :=
  ∃ fuel i fields, headerLoop customHeaders fuel (opened (draft hs ending)) [] [] [] =
      some (i, fields) ∧ i.rest = ending.text ∧
    ∀ f text, (f, text) ∈ fields ↔ ∃ h ∈ hs, named customHeaders f h.name = true ∧ h.value = text

def EndsWell (hs : List Header) : Ending → Prop
  | .body text => (∃ h ∈ hs.getLast?, isTaken h.name = true) → text = []
  | .closed => True
  | .cut => hs = []

def CustomApart (hs : List Header) : Prop :=
  (∀ k, named customHeaders (.custom k) [] = false) ∧
  ∀ h ∈ hs, ∀ k, named customHeaders (.custom k) h.name = true →
    isTaken h.name = false ∧ ∀ j < k, named customHeaders (.custom j) h.name = false

end Drafts

/-! ## Names -/

section Names
variable {customHeaders : List Text} {hdrname p q r : Text} {f : Field} {k : Nat}

theorem strcasecmp_iff : strcasecmp p q = true ↔ (cstr p).map tolower = (cstr q).map tolower := by
  rw [strcasecmp, decide_eq_true_iff]

theorem strcasecmp_symm (h : strcasecmp p q = true) : strcasecmp q p = true :=
  strcasecmp_iff.mpr (strcasecmp_iff.mp h).symm

theorem strcasecmp_trans (h : strcasecmp p q = true) (h' : strcasecmp q r = true) :
    strcasecmp p r = true :=
  strcasecmp_iff.mpr ((strcasecmp_iff.mp h).trans (strcasecmp_iff.mp h'))

theorem cstr_plain (plain : NUL ∉ p) : cstr p = p :=
  List.takeWhile_eq_self_iff.mpr fun c hc => decide_eq_true fun same => plain (same ▸ hc)

theorem strcasecmp_colon (hp : NUL ∉ p) (hq : NUL ∉ q)
    (h : strcasecmp (p ++ [COLON]) (q ++ [COLON]) = true) : strcasecmp p q = true := by
  have colon : NUL ∉ [COLON] := by decide
  rw [strcasecmp_iff, cstr_plain (List.not_mem_append hp colon),
    cstr_plain (List.not_mem_append hq colon), List.map_append, List.map_append] at h
  rw [strcasecmp_iff, cstr_plain hp, cstr_plain hq]
  exact List.append_cancel_right h

theorem names_apart : ∀ e ∈ taken ++ noted, ∀ e' ∈ taken ++ noted,
    strcasecmp e.1 e'.1 = true → e = e' := by
  decide +kernel

theorem names_not_custom : ∀ e ∈ taken ++ noted, ∀ k, e.2 ≠ .custom k := by
  intro e he k
  have plain : ∀ e ∈ taken ++ noted, (match e.2 with | .custom _ => false | _ => true) = true := by
    decide +kernel
  intro same
  have := plain e he
  rw [same] at this
  cases this

theorem named_iff (other : ∀ k, f ≠ .custom k) : named customHeaders f hdrname = true ↔
    ∃ e ∈ taken ++ noted, e.2 = f ∧ strcasecmp hdrname e.1 = true := by
  have eq : named customHeaders f hdrname =
      (taken ++ noted).any fun e => e.2 = f && strcasecmp hdrname e.1 := by
    cases f with
    | custom k => exact absurd rfl (other k)
    | _ => rfl
  rw [eq, List.any_eq_true]
  simp only [Bool.and_eq_true, decide_eq_true_iff]

theorem named_custom : named customHeaders (.custom k) hdrname = true ↔
    ∃ c, customHeaders[k]? = some c ∧ strcasecmp c (hdrname ++ [COLON]) = true := by
  rw [named, Option.any_eq_true]

theorem customField_iff : customField customHeaders hdrname = some (.custom k) ↔
    named customHeaders (.custom k) hdrname = true ∧
      ∀ j < k, named customHeaders (.custom j) hdrname = false := by
  have named_eq : ∀ j (lt : j < customHeaders.length), named customHeaders (.custom j) hdrname =
      strcasecmp customHeaders[j] (hdrname ++ [COLON]) := by
    intro j lt
    rw [named, List.getElem?_eq_getElem lt, Option.any_some]
  rw [customField, Option.map_eq_some_iff]
  simp only [Field.custom.injEq, exists_eq_right, List.findIdx?_eq_some_iff_getElem]
  constructor
  · rintro ⟨lt, found, before⟩
    refine ⟨(named_eq k lt).trans found, fun j less => ?_⟩
    rw [named_eq j (less.trans lt)]
    exact (Bool.not_eq_true _).mp (before j less)
  · rintro ⟨found, before⟩
    obtain ⟨c, at', -⟩ := named_custom.mp found
    obtain ⟨lt, -⟩ := List.getElem?_eq_some_iff.mp at'
    refine ⟨lt, (named_eq k lt).symm.trans found, fun j less => ?_⟩
    rw [← named_eq j (less.trans lt), before j less]
    exact Bool.false_ne_true

theorem mem_fieldsOf : f ∈ (fieldsOf customHeaders hdrname).1 ↔
    named customHeaders f hdrname = true ∧ ∀ k, f = .custom k → isTaken hdrname = false ∧
      ∀ j < k, named customHeaders (.custom j) hdrname = false := by
  have of_name : ∀ e ∈ taken ++ noted, strcasecmp hdrname e.1 = true →
      ∀ e' ∈ taken ++ noted, strcasecmp hdrname e'.1 = true → e = e' := by
    intro e he same e' he' same'
    exact names_apart e he e' he' (strcasecmp_trans (strcasecmp_symm same) same')
  rw [fieldsOf]
  cases here : taken.find? (strcasecmp hdrname ·.1) with
  | some e =>
      have he : e ∈ taken ++ noted := List.mem_append_left _ (List.mem_of_find?_eq_some here)
      have same : strcasecmp hdrname e.1 = true :=
        List.find?_some (p := fun e : Text × Field => strcasecmp hdrname e.1) here
      have is_taken : isTaken hdrname = true :=
        List.any_eq_true.mpr ⟨e, List.mem_of_find?_eq_some here, same⟩
      simp only [List.mem_singleton]
      constructor
      · rintro rfl
        exact ⟨(named_iff (names_not_custom e he)).mpr ⟨e, he, rfl, same⟩,
          fun k eq => absurd eq (names_not_custom e he k)⟩
      · rintro ⟨found, apart⟩
        have other : ∀ k, f ≠ .custom k := fun k eq => by
          have := (apart k eq).1
          rw [is_taken] at this
          cases this
        obtain ⟨e', he', rfl, same'⟩ := (named_iff other).mp found
        rw [of_name e he same e' he' same']
  | none =>
      have not_taken : ∀ e ∈ taken, ¬ strcasecmp hdrname e.1 = true := List.find?_eq_none.mp here
      have not_taken' : isTaken hdrname = false := List.any_eq_false.mpr not_taken
      simp only [List.mem_append, Option.mem_toList]
      constructor
      · rintro (mem | mem)
        · obtain ⟨e, he, rfl⟩ := List.mem_map.mp mem
          obtain ⟨he, same⟩ := List.mem_filter.mp he
          have he := List.mem_append_right taken he
          exact ⟨(named_iff (names_not_custom e he)).mpr ⟨e, he, rfl, same⟩,
            fun k eq => absurd eq (names_not_custom e he k)⟩
        · obtain ⟨k, -, rfl⟩ := Option.map_eq_some_iff.mp mem
          obtain ⟨found, before⟩ := customField_iff.mp mem
          refine ⟨found, ?_⟩
          rintro _ ⟨⟩
          exact ⟨not_taken', before⟩
      · rintro ⟨found, apart⟩
        by_cases custom : ∃ k, f = .custom k
        · obtain ⟨k, rfl⟩ := custom
          exact Or.inr (customField_iff.mpr ⟨found, (apart k rfl).2⟩)
        · obtain ⟨e, he, rfl, same⟩ := (named_iff (not_exists.mp custom)).mp found
          rcases List.mem_append.mp he with he | he
          · exact absurd same (not_taken e he)
          · exact Or.inl (List.mem_map.mpr ⟨e, List.mem_filter.mpr ⟨he, same⟩, rfl⟩)

theorem taken_eq : (fieldsOf customHeaders hdrname).2 = isTaken hdrname := by
  rw [fieldsOf]
  cases here : taken.find? (strcasecmp hdrname ·.1) with
  | some e =>
      exact (List.any_eq_true.mpr ⟨e, List.mem_of_find?_eq_some here,
        List.find?_some (p := fun e : Text × Field => strcasecmp hdrname e.1) here⟩).symm
  | none => exact (List.any_eq_false.mpr (List.find?_eq_none.mp here)).symm

end Names

/-! ## The loop -/

section Runs
variable (customHeaders : List Text)

theorem getline_line {line : Text} (single : NL ∉ line) (rest old : Text) :
    getline (opened (line ++ NL :: rest)) old = (opened rest, line) := by
  have cut : (line ++ NL :: rest).takeWhile (· ≠ NL) = line ∧
      (line ++ NL :: rest).dropWhile (· ≠ NL) = NL :: rest := by
    have all : ∀ c ∈ line, (decide (c ≠ NL)) = true := fun c hc =>
      decide_eq_true fun same => single (same ▸ hc)
    rw [List.takeWhile_append_of_pos all, List.dropWhile_append_of_pos all]
    simp
  rw [getline, if_neg (by simp [opened])]
  simp only [opened, cut.1, cut.2]

theorem getline_empty (old : Text) : getline (opened []) old = (⟨[], true, true⟩, []) := rfl

theorem getline_last {line : Text} (nonempty : line ≠ []) (single : NL ∉ line) (old : Text) :
    getline (opened line) old = (⟨[], true, false⟩, line) := by
  have all : ∀ c ∈ line, (decide (c ≠ NL)) = true := fun c hc =>
    decide_eq_true fun same => single (same ▸ hc)
  rw [getline, if_neg (by simp [opened])]
  simp only [opened, List.takeWhile_eq_self_iff.mpr all, List.dropWhile_eq_nil_iff.mpr all,
    decide_eq_false nonempty]

theorem Header.line_single (h : Header) : NL ∉ h.line := by
  refine List.not_mem_append (fun mem => (h.name_plain _ mem).2.2 rfl) ?_
  exact fun mem => (List.mem_cons.mp mem).elim (by decide) h.text_line

theorem Header.line_ne (h : Header) : h.line ≠ [] :=
  List.append_ne_nil_of_left_ne_nil h.name_ne _

theorem headerLoop_line {fuel : Nat} {i i' : Ifstream} {line line' curHdr : Text} {fields : Given}
    (read : getline i line = (i', line')) (nonempty : line' ≠ [])
    (good : i'.fail = false ∨ i'.eof = true) :
    headerLoop customHeaders (fuel + 1) i line curHdr fields =
      if line'.head?.any unicodeIsspace then
        headerLoop customHeaders fuel i' line' (curHdr ++ wrapped line') fields
      else headerLoop customHeaders fuel i' line' line' (fields ++ given customHeaders curHdr) := by
  have not_bad : (i'.fail && !i'.eof) = false := by
    rcases good with no | end'
    · rw [no, Bool.false_and]
    · rw [end', Bool.not_true, Bool.and_false]
  rw [headerLoop, read]
  simp only [not_bad, Bool.false_eq_true, if_false, if_neg nonempty, ite_self]

theorem loop_more (fuel : Nat) (more : List Text)
    (wraps : ∀ line ∈ more, NL ∉ line ∧ line.head?.any unicodeIsspace = true) (rest : Text) :
    ∀ (line curHdr : Text) (fields : Given),
      headerLoop customHeaders (fuel + more.length) (opened (unlines more ++ rest)) line curHdr
          fields =
        headerLoop customHeaders fuel (opened rest) (more.getLast?.getD line)
          (curHdr ++ more.flatMap wrapped) fields := by
  induction more with
  | nil =>
      intro line curHdr fields
      rw [List.flatMap_nil, List.append_nil]
      rfl
  | cons m more ih =>
      intro line curHdr fields
      obtain ⟨single, starts⟩ := wraps m List.mem_cons_self
      have nonempty : m ≠ [] := by
        rintro rfl
        cases starts
      rw [unlines_cons, List.append_assoc, List.cons_append, List.length_cons, ← Nat.add_assoc,
        headerLoop_line customHeaders (getline_line single _ line) nonempty (Or.inl rfl),
        if_pos starts, ih fun line hline => wraps line (List.mem_cons_of_mem m hline)]
      rw [List.getLast?_cons, Option.getD_some, List.flatMap_cons, List.append_assoc]

theorem loop_headers (fuel : Nat) (hs : List Header) (rest : Text) :
    ∀ (line curHdr : Text) (fields : Given), ∃ line', (hs = [] → line' = line) ∧
      (hs ≠ [] → line' ≠ []) ∧
      headerLoop customHeaders (fuel + (hs.flatMap Header.lines).length)
          (opened (headerText hs ++ rest)) line curHdr fields =
        headerLoop customHeaders fuel (opened rest) line' (hs.getLast?.elim curHdr Header.unfolded)
          (fields ++
            (curHdr :: hs.map Header.unfolded).dropLast.flatMap (given customHeaders)) := by
  induction hs with
  | nil =>
      intro line curHdr fields
      refine ⟨line, fun _ => rfl, fun no => absurd rfl no, ?_⟩
      simp only [List.map_nil, List.dropLast_singleton, List.flatMap_nil, List.append_nil]
      rfl
  | cons h hs ih =>
      intro line curHdr fields
      have single := h.line_single
      obtain ⟨c, name, eq⟩ := List.exists_cons_of_ne_nil h.name_ne
      have starts : ¬ h.line.head?.any unicodeIsspace = true := by
        have start := h.name_start c (by rw [eq]; rfl)
        rw [Header.line, eq, List.cons_append, List.head?_cons, Option.any_some, start]
        exact Bool.false_ne_true
      have nonempty := h.line_ne
      obtain ⟨line', none, some', run⟩ := ih (h.more.getLast?.getD h.line) h.unfolded
        (fields ++ given customHeaders curHdr)
      have last : h.more.getLast?.getD h.line ≠ [] := by
        cases m : h.more.getLast? with
        | none => exact nonempty
        | some w =>
            rintro rfl
            have := (h.more_wrapped [] (List.mem_of_getLast? m)).2
            cases this
      refine ⟨line', fun no => absurd no (List.cons_ne_nil _ _), fun _ => ?_, ?_⟩
      · by_cases hs_nil : hs = []
        · rw [none hs_nil]
          exact last
        · exact some' hs_nil
      · have text : headerText (h :: hs) ++ rest =
            h.line ++ NL :: (unlines h.more ++ (headerText hs ++ rest)) := by
          simp [headerText, unlines, Header.lines]
        have steps : fuel + ((h :: hs).flatMap Header.lines).length =
            fuel + (hs.flatMap Header.lines).length + h.more.length + 1 := by
          simp [Header.lines]
          omega
        rw [text, steps,
          headerLoop_line customHeaders (getline_line single _ line) nonempty (Or.inl rfl),
          if_neg starts, loop_more customHeaders _ _ h.more_wrapped, ← Header.unfolded, run]
        congr 1
        · cases hs with
          | nil => rfl
          | cons h' hs =>
              rw [List.getLast?_cons_cons, List.getLast?_cons, Option.elim_some, Option.elim_some]
        · rw [List.map_cons, List.dropLast_cons_cons, List.flatMap_cons, List.append_assoc]

/-- At the end of a file that a line had just ended, the loop never ends. -/
theorem loop_forever {line : Text} (nonempty : line ≠ []) :
    ∀ (fuel : Nat) (fail : Bool) (curHdr : Text) (fields : Given),
      headerLoop customHeaders fuel ⟨[], true, fail⟩ line curHdr fields = none := by
  intro fuel
  induction fuel with
  | zero => intro fail curHdr fields; rfl
  | succ fuel ih =>
      intro fail curHdr fields
      have read : getline ⟨[], true, fail⟩ line = (⟨[], true, true⟩, line) := rfl
      rw [headerLoop_line customHeaders read nonempty (Or.inr rfl), ih, ih, ite_self]

theorem loop_cut (ls : List Text) (all : ∀ line ∈ ls, line ≠ [] ∧ NL ∉ line) {last : Text}
    (nonempty : last ≠ []) (single : NL ∉ last) :
    ∀ (fuel : Nat) (line curHdr : Text) (fields : Given),
      headerLoop customHeaders fuel (opened (unlines ls ++ last)) line curHdr fields = none := by
  induction ls with
  | nil =>
      intro fuel line curHdr fields
      cases fuel with
      | zero => rfl
      | succ fuel =>
          rw [unlines_nil, List.nil_append,
            headerLoop_line customHeaders (getline_last nonempty single line) nonempty (Or.inl rfl),
            loop_forever customHeaders nonempty, loop_forever customHeaders nonempty, ite_self]
  | cons l ls ih =>
      intro fuel line curHdr fields
      obtain ⟨l_ne, l_single⟩ := all l List.mem_cons_self
      have ih := ih fun line mem => all line (List.mem_cons_of_mem l mem)
      cases fuel with
      | zero => rfl
      | succ fuel =>
          rw [unlines_cons, List.append_assoc, List.cons_append,
            headerLoop_line customHeaders (getline_line l_single _ line) l_ne (Or.inl rfl), ih, ih,
            ite_self]

theorem headerLoop_mono {fuel : Nat} : ∀ {i : Ifstream} {line curHdr : Text} {fields : Given}
    {result : Ifstream × Given},
    headerLoop customHeaders fuel i line curHdr fields = some result → ∀ m,
      headerLoop customHeaders (fuel + m) i line curHdr fields = some result := by
  induction fuel with
  | zero => intro i line curHdr fields result run; cases run
  | succ fuel ih =>
      intro i line curHdr fields result run m
      rw [Nat.add_right_comm]
      rw [headerLoop] at run ⊢
      simp only at run ⊢
      split at run
      · rename_i bad
        rw [if_pos bad]
        exact run
      · rename_i good
        rw [if_neg good]
        split at run
        · rename_i wraps
          rw [if_pos wraps]
          exact ih run m
        · rename_i starts
          rw [if_neg starts]
          split at run
          · rename_i again
            rw [if_pos again]
            exact ih run m
          · rename_i on
            rw [if_neg on]
            split at run
            · rename_i empty
              rw [if_pos empty]
              exact run
            · rename_i nonempty
              rw [if_neg nonempty]
              exact ih run m

theorem getline_rest (i : Ifstream) (line : Text) :
    (getline i line).1.rest.length ≤ i.rest.length := by
  rw [getline]
  split
  · exact Nat.le_refl _
  · have le := (List.dropWhile_suffix (l := i.rest) (· ≠ NL)).length_le
    simp only
    split
    · exact Nat.zero_le _
    · rename_i c rest eq
      rw [eq, List.length_cons] at le
      exact Nat.le_of_succ_le le

theorem getline_less {file : Text} (nonempty : file ≠ []) (line : Text) :
    (getline (opened file) line).1.rest.length < file.length := by
  have le := (List.dropWhile_suffix (l := file) (· ≠ NL)).length_le
  rw [getline, if_neg (by simp [opened])]
  simp only [opened]
  split
  · exact List.length_pos_iff.mpr nonempty
  · rename_i c rest eq
    rw [eq, List.length_cons] at le
    exact le

theorem headerLoop_le {fuel : Nat} : ∀ {i i' : Ifstream} {line curHdr : Text}
    {fields fields' : Given},
    headerLoop customHeaders fuel i line curHdr fields = some (i', fields') →
      i'.rest.length ≤ i.rest.length := by
  induction fuel with
  | zero => intro i i' line curHdr fields fields' run; cases run
  | succ fuel ih =>
      intro i i' line curHdr fields fields' run
      have less := getline_rest i line
      have done : ∀ {fields'' : Given}, some ((getline i line).1, fields'') = some (i', fields') →
          i'.rest.length ≤ i.rest.length := by
        intro fields'' same
        rw [← (Prod.mk.inj (Option.some.inj same)).1]
        exact less
      rw [headerLoop] at run
      simp only at run
      split at run
      · exact done run
      · split at run
        · exact (ih run).trans less
        · split at run
          · exact (ih run).trans less
          · split at run
            · exact done run
            · exact (ih run).trans less

theorem headerLoop_less {fuel : Nat} {i' : Ifstream} {file line curHdr : Text}
    {fields fields' : Given} (nonempty : file ≠ [])
    (run : headerLoop customHeaders fuel (opened file) line curHdr fields = some (i', fields')) :
    i'.rest.length < file.length := by
  have less := getline_less nonempty line
  have done : ∀ {fields'' : Given},
      some ((getline (opened file) line).1, fields'') = some (i', fields') →
        i'.rest.length < file.length := by
    intro fields'' same
    rw [← (Prod.mk.inj (Option.some.inj same)).1]
    exact less
  cases fuel with
  | zero => cases run
  | succ fuel =>
      rw [headerLoop] at run
      simp only at run
      split at run
      · exact done run
      · split at run
        · exact (headerLoop_le customHeaders run).trans_lt less
        · split at run
          · exact (headerLoop_le customHeaders run).trans_lt less
          · split at run
            · exact done run
            · exact (headerLoop_le customHeaders run).trans_lt less

end Runs

/-! ## What the fields are given -/

section Reads
variable {customHeaders : List Text} {hs : List Header}

theorem splitHeader_unfolded (h : Header) : splitHeader h.unfolded = (h.name, h.value) := by
  have all : ∀ c ∈ h.name, (decide (c ≠ COLON)) = true := fun c hc =>
    decide_eq_true (h.name_plain c hc).1
  have whole : h.unfolded = h.name ++ COLON :: (h.text ++ h.more.flatMap wrapped) := by
    rw [Header.unfolded, Header.line, List.append_assoc, List.cons_append]
  have drop : h.unfolded.dropWhile (· ≠ COLON) = COLON :: (h.text ++ h.more.flatMap wrapped) := by
    rw [whole, List.dropWhile_append_of_pos all]
    simp
  have take : h.unfolded.takeWhile (· ≠ COLON) = h.name := by
    rw [whole, List.takeWhile_append_of_pos all]
    simp
  rw [splitHeader, drop]
  simp only [take]
  rfl

def allGiven (customHeaders : List Text) (hs : List Header) : Given :=
  ([] :: hs.map Header.unfolded).flatMap (given customHeaders)

theorem mem_allGiven {f : Field} {text : Text} : (f, text) ∈ allGiven customHeaders hs ↔
    (f ∈ (fieldsOf customHeaders []).1 ∧ text = []) ∨
      ∃ h ∈ hs, f ∈ (fieldsOf customHeaders h.name).1 ∧ h.value = text := by
  have one : ∀ hdr, (f, text) ∈ given customHeaders hdr ↔
      f ∈ (fieldsOf customHeaders (splitHeader hdr).1).1 ∧ (splitHeader hdr).2 = text := by
    intro hdr
    rw [given, List.mem_map]
    constructor
    · rintro ⟨g, mem, same⟩
      obtain ⟨rfl, rfl⟩ := Prod.mk.inj same
      exact ⟨mem, rfl⟩
    · rintro ⟨mem, rfl⟩
      exact ⟨f, mem, rfl⟩
  rw [allGiven, List.flatMap_cons, List.mem_append, one, List.mem_flatMap]
  refine or_congr (and_congr_right' eq_comm) ?_
  constructor
  · rintro ⟨hdr, mem, is⟩
    obtain ⟨h, hh, rfl⟩ := List.mem_map.mp mem
    rw [one, splitHeader_unfolded] at is
    exact ⟨h, hh, is⟩
  · rintro ⟨h, hh, is⟩
    refine ⟨h.unfolded, List.mem_map_of_mem hh, ?_⟩
    rw [one, splitHeader_unfolded]
    exact is

theorem Header.name_no_nul (h : Header) : NUL ∉ h.name := fun mem => (h.name_plain _ mem).2.1 rfl

theorem custom_name {k : Nat} {n n' : Text} (hn : NUL ∉ n) (hn' : NUL ∉ n')
    (is : named customHeaders (.custom k) n = true)
    (is' : named customHeaders (.custom k) n' = true) : strcasecmp n n' = true := by
  obtain ⟨c, at', same⟩ := named_custom.mp is
  obtain ⟨c', at'', same'⟩ := named_custom.mp is'
  obtain rfl := Option.some.inj (at'.symm.trans at'')
  exact strcasecmp_colon hn hn' (strcasecmp_trans (strcasecmp_symm same) same')

theorem named_empty {f : Field} (h : named customHeaders f [] = true) : ∃ k, f = .custom k := by
  by_contra other
  obtain ⟨e, he, -, same⟩ := (named_iff (not_exists.mp other)).mp h
  have all : ∀ e ∈ taken ++ noted, strcasecmp [] e.1 = false := by decide +kernel
  rw [all e he] at same
  cases same

theorem allGiven_iff (distinct : hs.Pairwise fun h h' => strcasecmp h.name h'.name = false) :
    (∀ f text, (f, text) ∈ allGiven customHeaders hs ↔
      ∃ h ∈ hs, named customHeaders f h.name = true ∧ h.value = text) ↔
      CustomApart customHeaders hs := by
  have same_header : ∀ h ∈ hs, ∀ h' ∈ hs, strcasecmp h.name h'.name = true → h = h' := by
    intro h hh h' hh' same
    by_contra ne
    have : Std.Symm fun h h' : Header => strcasecmp h.name h'.name = false :=
      ⟨fun a b no => Bool.eq_false_iff.mpr fun yes => by
        rw [strcasecmp_symm yes] at no
        cases no⟩
    have apart := List.Pairwise.forall distinct hh hh' ne
    rw [same] at apart
    cases apart
  constructor
  · intro all
    have no_colon : ∀ k, named customHeaders (.custom k) [] = false := by
      intro k
      by_contra h
      have some' : ∃ k, named customHeaders (.custom k) [] = true := ⟨k, (Bool.not_eq_false _).mp h⟩
      have first := Nat.find_spec some'
      have before : ∀ j < Nat.find some', named customHeaders (.custom j) [] = false :=
        fun j less => (Bool.not_eq_true _).mp (Nat.find_min some' less)
      have mem : Field.custom (Nat.find some') ∈ (fieldsOf customHeaders []).1 := by
        refine mem_fieldsOf.mpr ⟨first, ?_⟩
        rintro _ ⟨⟩
        exact ⟨by decide, before⟩
      obtain ⟨g, hg, is, -⟩ := (all _ []).mp (mem_allGiven.mpr (Or.inl ⟨mem, rfl⟩))
      have empty := custom_name (List.not_mem_nil) g.name_no_nul first is
      rw [strcasecmp_iff, cstr_plain g.name_no_nul] at empty
      exact g.name_ne (List.map_eq_nil_iff.mp empty.symm)
    refine ⟨no_colon, fun h hh k is => ?_⟩
    rcases mem_allGiven.mp ((all _ _).mpr ⟨h, hh, is, rfl⟩) with ⟨mem, -⟩ | ⟨g, hg, mem, -⟩
    · have := (mem_fieldsOf.mp mem).1
      rw [no_colon k] at this
      cases this
    · have is' := mem_fieldsOf.mp mem
      obtain rfl := same_header g hg h hh (custom_name g.name_no_nul h.name_no_nul is'.1 is)
      exact is'.2 k rfl
  · rintro ⟨no_colon, apart⟩ f text
    rw [mem_allGiven]
    constructor
    · rintro (⟨mem, -⟩ | ⟨h, hh, mem, value⟩)
      · have is := (mem_fieldsOf.mp mem).1
        obtain ⟨k, rfl⟩ := named_empty is
        rw [no_colon k] at is
        cases is
      · exact ⟨h, hh, (mem_fieldsOf.mp mem).1, value⟩
    · rintro ⟨h, hh, is, value⟩
      refine Or.inr ⟨h, hh, mem_fieldsOf.mpr ⟨is, ?_⟩, value⟩
      rintro k rfl
      exact apart h hh k is

/-! ## The ends of the loop -/

def lastHdr (hs : List Header) : Text := hs.getLast?.elim [] Header.unfolded

theorem lastHdr_taken : (fieldsOf customHeaders (splitHeader (lastHdr hs)).1).2 = true ↔
    ∃ h ∈ hs.getLast?, isTaken h.name = true := by
  rw [taken_eq, lastHdr]
  cases hs.getLast? with
  | none => exact iff_of_false (by decide) (by rintro ⟨h, no, -⟩; cases no)
  | some h =>
      rw [Option.elim_some, splitHeader_unfolded]
      constructor
      · exact fun is => ⟨h, rfl, is⟩
      · rintro ⟨g, same, is⟩
        exact Option.some.inj same ▸ is

theorem run_headers (fuel : Nat) (hs : List Header) (rest : Text) : ∃ n line fields,
    fields ++ given customHeaders (lastHdr hs) = allGiven customHeaders hs ∧
      headerLoop customHeaders (fuel + n) (opened (headerText hs ++ rest)) [] [] [] =
        headerLoop customHeaders fuel (opened rest) line (lastHdr hs) fields := by
  obtain ⟨line, -, -, run⟩ := loop_headers customHeaders fuel hs rest [] [] []
  refine ⟨_, line, _, ?_, run⟩
  have last : ([] :: hs.map Header.unfolded).getLast (List.cons_ne_nil _ _) = lastHdr hs := by
    refine Option.some.inj ?_
    rw [← List.getLast?_eq_some_getLast, List.getLast?_cons, List.getLast?_map, lastHdr]
    cases hs.getLast? <;> rfl
  have whole := List.dropLast_append_getLast (List.cons_ne_nil [] (hs.map Header.unfolded))
  rw [allGiven]
  conv_rhs => rw [← whole, last, List.flatMap_append, List.flatMap_singleton]
  rw [List.nil_append]

theorem loop_end (fuel : Nat) (line curHdr : Text) (fields : Given) : ∃ fields',
    headerLoop customHeaders (fuel + 2) (opened []) line curHdr fields =
        some (⟨[], true, true⟩, fields ++ given customHeaders curHdr ++ fields') ∧
      fields' ⊆ given customHeaders [] := by
  have no : ¬ (fieldsOf customHeaders (splitHeader []).1).2 = true := by
    rw [taken_eq]
    decide
  have again : ∀ fields, headerLoop customHeaders (fuel + 1) ⟨[], true, true⟩ [] [] fields =
      some (⟨[], true, true⟩, fields ++ given customHeaders []) := by
    intro fields
    rw [headerLoop]
    have read : getline ⟨[], true, true⟩ [] = (⟨[], true, true⟩, []) := rfl
    rw [read]
    simp only [Bool.not_true, Bool.and_false, Bool.false_eq_true, if_false, List.head?_nil,
      Option.any_none, if_neg no, if_true]
  rw [headerLoop, getline_empty]
  simp only [Bool.not_true, Bool.and_false, Bool.false_eq_true, if_false, List.head?_nil,
    Option.any_none, if_true]
  split
  · exact ⟨_, again _, List.Subset.refl _⟩
  · exact ⟨[], by rw [List.append_nil], List.nil_subset _⟩

theorem loop_blank (fuel : Nat) (body line curHdr : Text) (fields : Given) :
    headerLoop customHeaders (fuel + 1) (opened (NL :: body)) line curHdr fields =
      if (fieldsOf customHeaders (splitHeader curHdr).1).2 then
        headerLoop customHeaders fuel (opened body) [] [] (fields ++ given customHeaders curHdr)
      else some (opened body, fields ++ given customHeaders curHdr) := by
  have read : getline (opened (NL :: body)) line = (opened body, []) :=
    getline_line List.not_mem_nil body line
  rw [headerLoop, read]
  simp only [opened, Bool.false_and, Bool.false_eq_true, if_false, List.head?_nil, Option.any_none,
    if_true]

theorem reads_of_run (distinct : hs.Pairwise fun h h' => strcasecmp h.name h'.name = false)
    {ending : Ending} {n : Nat} {i : Ifstream} {fields more : Given}
    (run : headerLoop customHeaders n (opened (draft hs ending)) [] [] [] =
      some (i, fields ++ more)) (rest : i.rest = ending.text)
    (all : fields = allGiven customHeaders hs)
    (again : more ⊆ given customHeaders []) :
    ReadsDraft customHeaders hs ending ↔ CustomApart customHeaders hs := by
  have mem : ∀ e, e ∈ fields ++ more ↔ e ∈ allGiven customHeaders hs := by
    intro e
    rw [List.mem_append, all]
    refine ⟨fun h => h.elim id fun h => ?_, Or.inl⟩
    rw [allGiven, List.flatMap_cons]
    exact List.mem_append_left _ (again h)
  rw [← allGiven_iff distinct]
  constructor
  · rintro ⟨fuel, i', fields', run', -, is⟩ f text
    have long := headerLoop_mono customHeaders run fuel
    rw [Nat.add_comm, headerLoop_mono customHeaders run' n] at long
    rw [← mem, ← (Prod.mk.inj (Option.some.inj long)).2]
    exact is f text
  · intro is
    exact ⟨n, i, fields ++ more, run, rest, fun f text => (mem _).trans (is f text)⟩

theorem lines_last (nonempty : hs ≠ []) : ∃ ls last, hs.flatMap Header.lines = ls ++ [last] ∧
    (∀ line ∈ ls, line ≠ [] ∧ NL ∉ line) ∧ last ≠ [] ∧ NL ∉ last := by
  have all : ∀ line ∈ hs.flatMap Header.lines, line ≠ [] ∧ NL ∉ line := by
    intro line mem
    obtain ⟨h, -, mem⟩ := List.mem_flatMap.mp mem
    rcases List.mem_cons.mp mem with rfl | mem
    · exact ⟨h.line_ne, h.line_single⟩
    · obtain ⟨single, starts⟩ := h.more_wrapped line mem
      refine ⟨?_, single⟩
      rintro rfl
      cases starts
  rcases List.eq_nil_or_concat (hs.flatMap Header.lines) with none | ⟨ls, last, whole⟩
  · obtain ⟨h, hs', rfl⟩ := List.exists_cons_of_ne_nil nonempty
    cases none
  · rw [List.concat_eq_append] at whole
    rw [whole] at all
    have last' := all last (by simp)
    exact ⟨ls, last, whole, fun line mem => all line (List.mem_append_left _ mem), last'.1, last'.2⟩

theorem readsDraft_iff (distinct : hs.Pairwise fun h h' => strcasecmp h.name h'.name = false)
    (ending : Ending) :
    ReadsDraft customHeaders hs ending ↔ EndsWell hs ending ∧ CustomApart customHeaders hs := by
  cases ending with
  | body body =>
      have text : draft hs (.body body) = headerText hs ++ (NL :: body) := rfl
      by_cases again : ∃ h ∈ hs.getLast?, isTaken h.name = true
      · have again' := (@lastHdr_taken customHeaders hs).mpr again
        by_cases empty : body = []
        · subst empty
          obtain ⟨n, line, fields, all, run⟩ := @run_headers customHeaders 3 hs [NL]
          obtain ⟨more, run', less⟩ := @loop_end customHeaders 0 [] []
            (fields ++ given customHeaders (lastHdr hs))
          rw [loop_blank, if_pos again', run', List.append_assoc] at run
          rw [reads_of_run distinct run rfl all (List.append_subset.mpr ⟨List.Subset.refl _, less⟩)]
          exact (and_iff_right fun _ => rfl).symm
        · refine iff_of_false ?_ fun h => empty (h.1 again)
          rintro ⟨fuel, i, fields, run, rest, -⟩
          obtain ⟨n, line, fields', -, run'⟩ :=
            @run_headers customHeaders (fuel + 1) hs (NL :: body)
          rw [Nat.add_assoc] at run'
          rw [← text, headerLoop_mono customHeaders run, loop_blank, if_pos again'] at run'
          have less := headerLoop_less customHeaders empty run'.symm
          rw [rest] at less
          exact absurd less (Nat.lt_irrefl _)
      · obtain ⟨n, line, fields, all, run⟩ :=
          @run_headers customHeaders 1 hs (NL :: body)
        rw [loop_blank, if_neg fun h => again (lastHdr_taken.mp h), ← List.append_nil (fields ++ _)]
          at run
        rw [reads_of_run distinct run rfl all (List.nil_subset _)]
        exact (and_iff_right fun h => absurd h again).symm
  | closed =>
      obtain ⟨n, line, fields, all, run⟩ := @run_headers customHeaders 2 hs []
      obtain ⟨more, run', less⟩ := @loop_end customHeaders 0 line (lastHdr hs) fields
      rw [run', List.append_nil] at run
      rw [reads_of_run distinct run rfl all less]
      exact (and_iff_right trivial).symm
  | cut =>
      by_cases none : hs = []
      · subst none
        obtain ⟨more, run, less⟩ := @loop_end customHeaders 0 [] [] []
        rw [List.nil_append] at run
        rw [reads_of_run distinct run rfl (by simp [allGiven]) less]
        exact (and_iff_right rfl).symm
      · refine iff_of_false ?_ fun h => none h.1
        rintro ⟨fuel, i, fields, run, -⟩
        obtain ⟨ls, last, whole, all, nonempty, single⟩ := lines_last none
        have text : draft hs .cut = unlines ls ++ last := by
          rw [draft, headerText, whole]
          simp [unlines, ← List.append_assoc]
        rw [text, loop_cut customHeaders ls all nonempty single] at run
        cases run

end Reads
end Cone.CursesEdit
