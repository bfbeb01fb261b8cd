import Cone.UnicodeWordwrap
import Mathlib.Data.List.SplitBy
import Mathlib.Tactic.Ring

/-! # The current line of the HTML parser

`htmlParser::linebuf` of htmlparser.H and htmlparser.C, over the line-break machine of
`linebuf_calc_linebreak`. -/
set_option autoImplicit false
namespace Cone.HtmlLinebuf

open Cone.Lib.HeldBack Cone.UnicodeTablookup Cone.Linebreak Cone.LinebreakRules
open Cone.UnicodeWordwrap (widthFrom opens_next opens_of_held Opens)

def SP : UInt32 := 0x20

section Functions
variable {T : Type}

structure EnhancedChar (T : Type) where
  ch : UInt32
  attr : T
  deriving DecidableEq

/-- `sent` are the ranges that `fmtline` was called with. -/
structure Linebuf (T : Type) where
  line : List (EnhancedChar T)
  lineBreak : Nat
  widthBeforebreak : Nat
  sent : List (List (EnhancedChar T))

def emptyLine : Linebuf T := ⟨[], 0, 0, []⟩

variable (l : UnicodeWordwrap.Locale) (graphemeBreak : UInt32 → UInt32 → Bool)
  (startingCol desiredWidth : Nat)

/-- `towidechar` of a range into a `towidechar_wcwidth_iter`. -/
def widthAt (col : Nat) (cs : List (EnhancedChar T)) : Nat :=
  widthFrom l col (l.towidechar (cs.map EnhancedChar.ch))

def wantthiswidth (line : List (EnhancedChar T)) : Nat :=
  if line.getLast?.any (·.ch = SP) then desiredWidth + 1 else desiredWidth

theorem fewer {all all' rest rest' : Nat} (less : all' < all) (within : rest' ≤ all') :
    all' * (all' + 1) + rest' < all * (all + 1) + rest := by
  have more : (all' + 1) * (all' + 2) ≤ all * (all + 1) :=
    Nat.mul_le_mul less (Nat.succ_le_succ less)
  have split : (all' + 1) * (all' + 2) = all' * (all' + 1) + 2 * all' + 2 := by ring
  omega

theorem fewer_left {all all' rest rest' : Nat} (same : all' = all) (less : rest' < rest) :
    all' * (all' + 1) + rest' < all * (all + 1) + rest := by
  rw [same]
  omega

/-- The loop of `wordtoolong`: `piece` is what is between `s` and `p`, `grapheme` what is between
`p` and `b`, and `rest` what is behind `b`. -/
def breakWord (piece grapheme rest : List (EnhancedChar T)) (col w : Nat) :
    List (List (EnhancedChar T)) × List (EnhancedChar T) :=
  match rest with
  | [] => ([], piece ++ grapheme)
  | c :: rest =>
    if grapheme.getLast?.all (fun prev => !graphemeBreak prev.ch c.ch) then
      breakWord piece (grapheme ++ [c]) rest col w
    else
      let graphemeWidth := widthAt l col grapheme
      if w + graphemeWidth > desiredWidth ∧ piece ≠ [] then
        let more := breakWord [] [] (grapheme ++ c :: rest) startingCol 0
        (piece :: more.1, more.2)
      else breakWord (piece ++ grapheme) [c] rest (col + graphemeWidth) (w + graphemeWidth)
termination_by
  (piece.length + grapheme.length + rest.length) *
    (piece.length + grapheme.length + rest.length + 1) + rest.length
decreasing_by
  · refine fewer_left ?_ ?_ <;> simp only [List.length_append, List.length_cons, List.length_nil]
    · omega
    · omega
  · rename_i wide
    have some := List.length_pos_iff.mpr wide.2
    refine fewer ?_ ?_ <;> simp only [List.length_append, List.length_cons, List.length_nil]
    · omega
    · omega
  · refine fewer_left ?_ ?_ <;> simp only [List.length_append, List.length_cons, List.length_nil]
    · omega
    · omega

def wordtoolong (b : Linebuf T) (w : Nat) : Nat × Linebuf T :=
  if w < wantthiswidth desiredWidth b.line then (w, b)
  else
    let broken := breakWord l graphemeBreak startingCol desiredWidth [] [] b.line startingCol 0
    (widthAt l startingCol broken.2, { b with line := broken.2, sent := b.sent ++ broken.1 })

def linebreakAllowed (b : Linebuf T) : Linebuf T :=
  if b.lineBreak ≥ b.line.length then b
  else
    let w := widthAt l (b.widthBeforebreak + startingCol) (b.line.drop b.lineBreak)
    if b.widthBeforebreak + w > wantthiswidth desiredWidth b.line then
      let b := { b with
        line := b.line.drop b.lineBreak
        sent := b.sent ++ [b.line.take b.lineBreak] }
      let r := wordtoolong l graphemeBreak startingCol desiredWidth b (widthAt l startingCol b.line)
      { r.2 with lineBreak := r.2.line.length, widthBeforebreak := r.1 }
    else { b with lineBreak := b.line.length, widthBeforebreak := b.widthBeforebreak + w }

/-- `operator()` of a character with its break value -/
def put (b : Linebuf T) (v : Int × EnhancedChar T) : Linebuf T :=
  let b := if v.1 ≠ lbNone then linebreakAllowed l graphemeBreak startingCol desiredWidth b else b
  { b with line := b.line ++ [v.2] }

def flush (b : Linebuf T) : Linebuf T :=
  let b := linebreakAllowed l graphemeBreak startingCol desiredWidth b
  ⟨[], 0, 0, b.sent ++ [b.line]⟩

structure Calc (T : Type) where
  queue : List (EnhancedChar T)
  buf : Linebuf T

/-- `operator()(int)`. A list that is empty has no front. -/
def callback (v : Int) (c : Calc T) : Int × Calc T :=
  match c.queue with
  | [] => (-1, c)
  | p :: queue => (0, ⟨queue, put l graphemeBreak startingCol desiredWidth c.buf (v, p)⟩)

variable (tab : Tables LbClass)

def submit (i : Info (Calc T)) (p : EnhancedChar T) : Int × Info (Calc T) :=
  lbNext (callback l graphemeBreak startingCol desiredWidth) tab
    { i with cbArg := { i.cbArg with queue := i.cbArg.queue ++ [p] } } p.ch

def start : Info (Calc T) := lbSetOpts (lbInit ⟨[], emptyLine⟩) (lbOptPrbreak ||| lbOptSybreak)

/-- What `fmtline` gets for each paragraph, up to its `flush`. -/
def format : Info (Calc T) → List (List (EnhancedChar T)) → List (List (List (EnhancedChar T)))
  | _, [] => []
  | i, text :: more =>
    let i := (feed (submit l graphemeBreak startingCol desiredWidth tab) i text).2
    let b := flush l graphemeBreak startingCol desiredWidth i.cbArg.buf
    b.sent :: format { i with cbArg := { i.cbArg with buf := { b with sent := [] } } } more

end Functions

/-! ## What the lines are for -/

section Lines
variable {T : Type} (l : UnicodeWordwrap.Locale) (graphemeBreak : UInt32 → UInt32 → Bool)
  (startingCol desiredWidth : Nat)

def Single (line : List (EnhancedChar T)) : Prop :=
  line.IsChain fun a b => (!graphemeBreak a.ch b.ch) = true

def Fits (line : List (EnhancedChar T)) : Prop :=
  widthAt l startingCol line ≤ wantthiswidth desiredWidth line ∨ Single graphemeBreak line

structure Conforms (text : List (EnhancedChar T)) (lines : List (List (EnhancedChar T))) :
    Prop where
  whole : lines.flatten = text
  fits : ∀ line ∈ lines, Fits l graphemeBreak startingCol desiredWidth line
  nonempty : text ≠ [] → [] ∉ lines

def graphemes (word : List (EnhancedChar T)) : List (List (EnhancedChar T)) :=
  word.splitBy fun a b => !graphemeBreak a.ch b.ch

def lastLine (line : List (EnhancedChar T)) :
    List (List (EnhancedChar T)) → List (EnhancedChar T)
  | [] => line
  | g :: gs =>
    if gs ≠ [] ∧ line ≠ [] ∧ desiredWidth < widthAt l startingCol (line ++ g) then lastLine g gs
    else lastLine (line ++ g) gs

def words (vs : List (Int × EnhancedChar T)) : List (List (EnhancedChar T)) :=
  (vs.splitBy fun _ v => v.1 = lbNone).map (·.map Prod.snd)

def FirstFits (vs : List (Int × EnhancedChar T)) : Prop :=
  ∀ word ∈ (words vs).head?, widthAt l startingCol word ≤ wantthiswidth desiredWidth word

def LastFits (word : List (EnhancedChar T)) : Prop :=
  widthAt l startingCol word < wantthiswidth desiredWidth word ∨
    Fits l graphemeBreak startingCol desiredWidth
      (lastLine l startingCol desiredWidth [] (graphemes graphemeBreak word))

def WordsFit (vs : List (Int × EnhancedChar T)) : Prop :=
  FirstFits l startingCol desiredWidth vs ∧
    ∀ word ∈ (words vs).tail, LastFits l graphemeBreak startingCol desiredWidth word

end Lines

/-! ## One word after the other -/

section Words
variable {T : Type} {l : UnicodeWordwrap.Locale} {graphemeBreak : UInt32 → UInt32 → Bool}
  {startingCol desiredWidth : Nat}

theorem widthAt_append (col : Nat) (a b : List (EnhancedChar T)) :
    widthAt l col (a ++ b) = widthAt l col a + widthAt l (col + widthAt l col a) b := by
  rw [widthAt, List.map_append, l.append, UnicodeWordwrap.widthFrom_append]
  rfl

theorem widthAt_nil (col : Nat) : widthAt l col ([] : List (EnhancedChar T)) = 0 :=
  congrArg (widthFrom l col) UnicodeWordwrap.towidechar_nil

theorem le_wantthiswidth (line : List (EnhancedChar T)) :
    desiredWidth ≤ wantthiswidth desiredWidth line := by
  rw [wantthiswidth]
  split <;> omega

theorem wantthiswidth_append (head : List (EnhancedChar T)) {word : List (EnhancedChar T)}
    (some : word ≠ []) : wantthiswidth desiredWidth (head ++ word) =
      wantthiswidth desiredWidth word := by
  rw [wantthiswidth, wantthiswidth, List.getLast?_append_of_ne_nil _ some]

theorem graphemes_cut {grapheme : List (EnhancedChar T)} (c : EnhancedChar T)
    (rest : List (EnhancedChar T)) (single : Single graphemeBreak grapheme)
    (cut : ¬ grapheme.getLast?.all (fun prev => !graphemeBreak prev.ch c.ch) = true) :
    graphemes graphemeBreak (grapheme ++ c :: rest) =
      grapheme :: graphemes graphemeBreak (c :: rest) := by
  have some : grapheme ≠ [] := by
    rintro rfl
    exact cut rfl
  rw [graphemes, List.splitBy_append_cons, List.splitBy_of_isChain some single]
  · rfl
  · intro prev last
    rw [Option.mem_def.mp last] at cut
    exact eq_false_of_ne_true cut

theorem single_append {grapheme : List (EnhancedChar T)} {c : EnhancedChar T}
    (single : Single graphemeBreak grapheme)
    (goes : grapheme.getLast?.all (fun prev => !graphemeBreak prev.ch c.ch) = true) :
    Single graphemeBreak (grapheme ++ [c]) := by
  refine List.IsChain.append single (List.isChain_singleton c) fun prev last next is => ?_
  rw [Option.mem_def.mp last] at goes
  obtain rfl : c = next := Option.some.inj is
  exact goes

theorem breakWord_left (piece grapheme rest : List (EnhancedChar T)) (col w : Nat)
    (single : Single graphemeBreak grapheme) (at' : col = startingCol + w)
    (wide : w = widthAt l startingCol piece) :
    (breakWord l graphemeBreak startingCol desiredWidth piece grapheme rest col w).2 =
      lastLine l startingCol desiredWidth piece (graphemes graphemeBreak (grapheme ++ rest)) := by
  induction piece, grapheme, rest, col, w using
    breakWord.induct l graphemeBreak startingCol desiredWidth with
  | case1 piece grapheme col w =>
      rw [breakWord, List.append_nil]
      cases grapheme with
      | nil => exact List.append_nil _
      | cons c grapheme =>
          rw [graphemes, List.splitBy_of_isChain (List.cons_ne_nil _ _) single, lastLine,
            if_neg fun no => no.1 rfl, lastLine]
  | case2 piece grapheme col w c rest goes ih =>
      rw [breakWord, if_pos goes, ih (single_append single goes) at' wide, ← List.append_cons]
  | case3 piece grapheme col w c rest cut graphemeWidth wider ih =>
      have more : graphemes graphemeBreak (c :: rest) ≠ [] :=
        List.splitBy_ne_nil.mpr (List.cons_ne_nil _ _)
      rw [breakWord, if_neg cut]
      simp only
      rw [if_pos wider, ih List.isChain_nil rfl (widthAt_nil _).symm, List.nil_append,
        graphemes_cut c rest single cut, lastLine, if_neg fun no => no.2.1 rfl, List.nil_append,
        lastLine, if_pos]
      refine ⟨more, wider.2, ?_⟩
      rw [widthAt_append, ← wide, ← at']
      exact wider.1
  | case4 piece grapheme col w c rest cut graphemeWidth fine ih =>
      have more : graphemes graphemeBreak (c :: rest) ≠ [] :=
        List.splitBy_ne_nil.mpr (List.cons_ne_nil _ _)
      have both : widthAt l startingCol (piece ++ grapheme) = w + widthAt l col grapheme := by
        rw [widthAt_append, ← wide, ← at']
      rw [breakWord, if_neg cut]
      simp only
      rw [if_neg fine, ih (List.isChain_singleton c) (by omega) both.symm,
        List.singleton_append, graphemes_cut c rest single cut, lastLine, if_neg]
      rintro ⟨-, some, wider⟩
      exact fine ⟨both ▸ wider, some⟩

theorem breakWord_pieces (piece grapheme rest : List (EnhancedChar T)) (col w : Nat)
    (single : Single graphemeBreak grapheme) (at' : col = startingCol + w)
    (wide : w = widthAt l startingCol piece)
    (fits : w ≤ desiredWidth ∨ Single graphemeBreak piece) :
    (breakWord l graphemeBreak startingCol desiredWidth piece grapheme rest col w).1.flatten ++
        (breakWord l graphemeBreak startingCol desiredWidth piece grapheme rest col w).2 =
      piece ++ grapheme ++ rest ∧
    (grapheme ++ rest ≠ [] →
      (breakWord l graphemeBreak startingCol desiredWidth piece grapheme rest col w).2 ≠ []) ∧
    ∀ p ∈ (breakWord l graphemeBreak startingCol desiredWidth piece grapheme rest col w).1,
      p ≠ [] ∧ Fits l graphemeBreak startingCol desiredWidth p := by
  induction piece, grapheme, rest, col, w using
    breakWord.induct l graphemeBreak startingCol desiredWidth with
  | case1 piece grapheme col w =>
      rw [breakWord, List.append_nil, List.append_nil]
      exact ⟨rfl, fun some none => some (List.append_eq_nil_iff.mp none).2,
        fun p mem => absurd mem List.not_mem_nil⟩
  | case2 piece grapheme col w c rest goes ih =>
      have broken := ih (single_append single goes) at' wide fits
      rw [breakWord, if_pos goes]
      rw [← List.append_assoc, ← List.append_cons, ← List.append_cons] at broken
      exact broken
  | case3 piece grapheme col w c rest cut graphemeWidth wider ih =>
      obtain ⟨whole, some, pieces⟩ := ih List.isChain_nil rfl (widthAt_nil _).symm
        (Or.inl (Nat.zero_le _))
      rw [breakWord, if_neg cut]
      simp only
      rw [if_pos wider]
      refine ⟨?_, fun _ => some ?_, ?_⟩
      · rw [List.flatten_cons, List.append_assoc, whole, List.nil_append, List.nil_append,
          ← List.append_assoc]
      · rw [List.nil_append]
        exact List.append_ne_nil_of_right_ne_nil _ (List.cons_ne_nil _ _)
      · intro p mem
        rcases List.mem_cons.mp mem with rfl | mem
        · refine ⟨wider.2, fits.imp_left fun less => ?_⟩
          rw [← wide]
          exact Nat.le_trans less (le_wantthiswidth _)
        · exact pieces p mem
  | case4 piece grapheme col w c rest cut graphemeWidth fine ih =>
      have both : widthAt l startingCol (piece ++ grapheme) = w + widthAt l col grapheme := by
        rw [widthAt_append, ← wide, ← at']
      have fits' : w + graphemeWidth ≤ desiredWidth ∨ Single graphemeBreak (piece ++ grapheme) := by
        by_cases none : piece = []
        · rw [none]
          exact Or.inr single
        · exact Or.inl (Nat.le_of_not_lt fun wider => fine ⟨wider, none⟩)
      obtain ⟨whole, some, pieces⟩ := ih (List.isChain_singleton c) (by omega) both.symm fits'
      rw [breakWord, if_neg cut]
      simp only
      rw [if_neg fine]
      refine ⟨?_, fun _ => some (List.cons_ne_nil _ _), pieces⟩
      rw [whole, List.append_assoc _ [c], List.singleton_append]

end Words

section Paragraph
variable {T : Type} (l : UnicodeWordwrap.Locale) (graphemeBreak : UInt32 → UInt32 → Bool)
  (startingCol desiredWidth : Nat)

structure Holds (b : Linebuf T) (sent : List (List (EnhancedChar T)))
    (head word : List (EnhancedChar T)) : Prop where
  line : b.line = head ++ word
  lineBreak : b.lineBreak = head.length
  widthBeforebreak : b.widthBeforebreak = widthAt l startingCol head
  sent : b.sent = sent

structure Good (sent : List (List (EnhancedChar T))) (head : List (EnhancedChar T)) : Prop where
  nonempty : [] ∉ sent
  fits : ∀ line ∈ sent, Fits l graphemeBreak startingCol desiredWidth line
  head_fits : Fits l graphemeBreak startingCol desiredWidth head

def WordFits (head word : List (EnhancedChar T)) : Prop :=
  (head = [] → widthAt l startingCol word ≤ wantthiswidth desiredWidth word) ∧
    (head ≠ [] → LastFits l graphemeBreak startingCol desiredWidth word)

structure Goes (fine : Prop) (wide : Prop) (sent sent' : List (List (EnhancedChar T)))
    (head head' text : List (EnhancedChar T)) : Prop where
  whole : sent'.flatten ++ head' = sent.flatten ++ head ++ text
  some : head' ≠ []
  keeps : sent ⊆ sent'
  good : fine → Good l graphemeBreak startingCol desiredWidth sent head →
    Good l graphemeBreak startingCol desiredWidth sent' head'
  empty : wide → [] ∈ sent'

variable {l graphemeBreak startingCol desiredWidth} {b : Linebuf T}
  {sent : List (List (EnhancedChar T))} {head word : List (EnhancedChar T)}

theorem wordtoolong_goes (b : Linebuf T) (some : b.line ≠ []) :
    ∃ pieces left,
      wordtoolong l graphemeBreak startingCol desiredWidth b (widthAt l startingCol b.line) =
        (widthAt l startingCol left, { b with line := left, sent := b.sent ++ pieces }) ∧
      pieces.flatten ++ left = b.line ∧ left ≠ [] ∧
      (∀ p ∈ pieces, p ≠ [] ∧ Fits l graphemeBreak startingCol desiredWidth p) ∧
      (LastFits l graphemeBreak startingCol desiredWidth b.line →
        Fits l graphemeBreak startingCol desiredWidth left) := by
  rw [wordtoolong]
  split
  · rename_i narrow
    refine ⟨[], b.line, ?_, rfl, some, fun p mem => absurd mem List.not_mem_nil, fun _ => ?_⟩
    · rw [List.append_nil]
    · exact Or.inl (Nat.le_of_lt narrow)
  · rename_i wide
    obtain ⟨whole, some', pieces⟩ := breakWord_pieces [] [] b.line startingCol 0
      List.isChain_nil rfl (@widthAt_nil T l startingCol).symm (Or.inl (Nat.zero_le desiredWidth))
    have left := @breakWord_left T l graphemeBreak startingCol desiredWidth [] [] b.line
      startingCol 0 List.isChain_nil rfl (widthAt_nil startingCol).symm
    refine ⟨_, _, rfl, whole, some' some, pieces, fun fits => ?_⟩
    rw [left]
    exact fits.resolve_left wide

theorem linebreakAllowed_goes (holds : Holds l startingCol b sent head word) (some : word ≠ []) :
    ∃ sent' head',
      Holds l startingCol (linebreakAllowed l graphemeBreak startingCol desiredWidth b) sent' head'
        [] ∧
      Goes l graphemeBreak startingCol desiredWidth
        (WordFits l graphemeBreak startingCol desiredWidth head word)
        (head = [] ∧ wantthiswidth desiredWidth word < widthAt l startingCol word)
        sent sent' head head' word := by
  obtain ⟨line, lineBreak, width, same⟩ := holds
  have more : ¬ b.lineBreak ≥ b.line.length := by
    have := List.length_pos_iff.mpr some
    rw [line, lineBreak, List.length_append]
    omega
  have behind : b.line.drop b.lineBreak = word := by rw [line, lineBreak, List.drop_left]
  have before : b.line.take b.lineBreak = head := by rw [line, lineBreak, List.take_left]
  have want : wantthiswidth desiredWidth b.line = wantthiswidth desiredWidth word := by
    rw [line, wantthiswidth_append head some]
  have both : widthAt l startingCol (head ++ word) =
      b.widthBeforebreak + widthAt l (b.widthBeforebreak + startingCol) word := by
    rw [widthAt_append, ← width, Nat.add_comm startingCol]
  rw [linebreakAllowed, if_neg more]
  simp only [behind, before, want, same]
  rw [← both]
  split
  · -- the word begins a line of its own
    rename_i wide
    obtain ⟨pieces, left, result, whole, some', fits, last⟩ :=
      @wordtoolong_goes T l graphemeBreak startingCol desiredWidth
        ⟨word, b.lineBreak, b.widthBeforebreak, sent ++ [head]⟩ some
    rw [result]
    refine ⟨sent ++ [head] ++ pieces, left, ⟨(List.append_nil left).symm, rfl, rfl, rfl⟩,
      ?_, some', ?_, fun fine good => ?_, fun empty => ?_⟩
    · simp only at whole
      rw [← whole]
      simp
    · rw [List.append_assoc]
      exact List.subset_append_left _ _
    · have some'' : head ≠ [] := by
        rintro rfl
        have := fine.1 rfl
        rw [List.nil_append] at wide
        omega
      refine ⟨fun mem => ?_, fun p mem => ?_, last (fine.2 some'')⟩
      · rcases List.mem_append.mp mem with mem | mem
        · rcases List.mem_append.mp mem with mem | mem
          · exact good.nonempty mem
          · exact some'' (List.mem_singleton.mp mem).symm
        · exact (fits [] mem).1 rfl
      · rcases List.mem_append.mp mem with mem | mem
        · rcases List.mem_append.mp mem with mem | mem
          · exact good.fits p mem
          · exact List.mem_singleton.mp mem ▸ good.head_fits
        · exact (fits p mem).2
    · rw [empty.1]
      exact List.mem_append_left _ (List.mem_append_right _ (List.mem_singleton.mpr rfl))
  · -- the word goes to the end of the line
    rename_i narrow
    refine ⟨sent, head ++ word, ⟨?_, ?_, rfl, rfl⟩, (List.append_assoc _ _ _).symm,
      List.append_ne_nil_of_right_ne_nil _ some, List.Subset.refl _, fun _ good => ?_, ?_⟩
    · rw [line, List.append_nil]
    · rw [line]
    · refine ⟨good.nonempty, good.fits, Or.inl ?_⟩
      rw [wantthiswidth_append head some]
      exact Nat.le_of_not_lt narrow
    · rintro ⟨rfl, wide⟩
      rw [List.nil_append] at narrow
      exact absurd wide narrow

theorem Goes.trans {fine fine' wide wide' : Prop} {sent sent' sent'' : List (List (EnhancedChar T))}
    {head head' head'' text text' : List (EnhancedChar T)}
    (first : Goes l graphemeBreak startingCol desiredWidth fine wide sent sent' head head' text)
    (second : Goes l graphemeBreak startingCol desiredWidth fine' wide' sent' sent'' head' head''
      text') :
    Goes l graphemeBreak startingCol desiredWidth (fine ∧ fine') wide sent sent'' head head''
      (text ++ text') where
  whole := by rw [second.whole, first.whole, List.append_assoc]
  some := second.some
  keeps _ mem := second.keeps (first.keeps mem)
  good both good := second.good both.2 (first.good both.1 good)
  empty is := second.keeps (first.empty is)

/-- No break inside. -/
def Unbroken (seg : List (Int × EnhancedChar T)) : Prop :=
  seg.IsChain fun _ v => decide (v.1 = lbNone) = true

theorem words_none {seg : List (Int × EnhancedChar T)} (some : seg ≠ []) (unbroken : Unbroken seg) :
    words seg = [seg.map Prod.snd] := by
  rw [words, List.splitBy_of_isChain some unbroken]
  rfl

theorem words_break (seg vs : List (Int × EnhancedChar T)) {v : Int × EnhancedChar T}
    (some : seg ≠ []) (unbroken : Unbroken seg) (breaks : v.1 ≠ lbNone) :
    words (seg ++ v :: vs) = seg.map Prod.snd :: words (v :: vs) := by
  rw [words, List.splitBy_append_cons, List.splitBy_of_isChain some unbroken]
  · rfl
  · exact fun _ _ => decide_eq_false breaks

theorem unbroken_append {seg : List (Int × EnhancedChar T)} {v : Int × EnhancedChar T}
    (unbroken : Unbroken seg) (none : v.1 = lbNone) : Unbroken (seg ++ [v]) := by
  refine List.IsChain.append unbroken (List.isChain_singleton v) fun _ _ next is => ?_
  obtain rfl : v = next := Option.some.inj is
  exact decide_eq_true none

theorem words_run (vs : List (Int × EnhancedChar T)) :
    ∀ {b : Linebuf T} {sent : List (List (EnhancedChar T))} {head : List (EnhancedChar T)}
      {seg : List (Int × EnhancedChar T)}, Holds l startingCol b sent head (seg.map Prod.snd) →
      seg ≠ [] → Unbroken seg → ∃ sent' head',
        Holds l startingCol (linebreakAllowed l graphemeBreak startingCol desiredWidth
          (vs.foldl (put l graphemeBreak startingCol desiredWidth) b)) sent' head' [] ∧
        Goes l graphemeBreak startingCol desiredWidth
          ((∀ word ∈ (words (seg ++ vs)).head?,
              WordFits l graphemeBreak startingCol desiredWidth head word) ∧
            ∀ word ∈ (words (seg ++ vs)).tail,
              LastFits l graphemeBreak startingCol desiredWidth word)
          (head = [] ∧ ¬ FirstFits l startingCol desiredWidth (seg ++ vs))
          sent sent' head head' ((seg ++ vs).map Prod.snd) := by
  induction vs with
  | nil =>
      intro b sent head seg holds some unbroken
      obtain ⟨sent', head', holds', goes⟩ := @linebreakAllowed_goes T l graphemeBreak startingCol
        desiredWidth _ _ _ _ holds fun none => some (List.map_eq_nil_iff.mp none)
      rw [List.append_nil]
      refine ⟨sent', head', holds', goes.whole, goes.some, goes.keeps, fun fine => ?_,
        fun wide => ?_⟩
      · rw [words_none some unbroken] at fine
        exact goes.good (fine.1 _ rfl)
      · refine goes.empty ⟨wide.1, ?_⟩
        have wide' := wide.2
        rw [FirstFits, words_none some unbroken] at wide'
        refine Nat.lt_of_not_le fun narrow => wide' fun word is => ?_
        obtain rfl : seg.map Prod.snd = word := Option.some.inj is
        exact narrow
  | cons v vs ih =>
      intro b sent head seg holds some unbroken
      rw [List.foldl_cons, put]
      by_cases none : v.1 = lbNone
      · rw [if_neg (not_not.mpr none)]
        have holds' : Holds l startingCol { b with line := b.line ++ [v.2] } sent head
            ((seg ++ [v]).map Prod.snd) := by
          refine ⟨?_, holds.lineBreak, holds.widthBeforebreak, holds.sent⟩
          rw [List.map_append, ← List.append_assoc, ← holds.line]
          rfl
        have all := ih holds' (List.append_ne_nil_of_right_ne_nil _ (List.cons_ne_nil _ _))
          (unbroken_append unbroken none)
        rw [← List.append_cons] at all
        exact all
      · rw [if_pos none]
        obtain ⟨sent', head', holds', goes⟩ := @linebreakAllowed_goes T l graphemeBreak
          startingCol desiredWidth _ _ _ _ holds fun none => some (List.map_eq_nil_iff.mp none)
        obtain ⟨line', lineBreak', width', sent''⟩ := holds'
        obtain ⟨sent2, head2, holds2, goes2⟩ := @ih { linebreakAllowed l graphemeBreak startingCol
            desiredWidth b with
          line := (linebreakAllowed l graphemeBreak startingCol desiredWidth b).line ++ [v.2] }
          sent' head' [v] ⟨by rw [line', List.append_nil]; rfl, lineBreak', width', sent''⟩
          (List.cons_ne_nil _ _) (List.isChain_singleton v)
        have all := goes.trans goes2
        refine ⟨sent2, head2, holds2, ?_, all.some, all.keeps, fun fine => all.good ?_,
          fun wide => all.empty ⟨wide.1, ?_⟩⟩
        · rw [all.whole, ← List.map_append]
          rfl
        · rw [words_break seg vs some unbroken none] at fine
          obtain ⟨first, others⟩ := fine
          refine ⟨first _ rfl, fun word is => ⟨fun no => absurd no goes.some, fun _ => ?_⟩,
            fun word mem => others word (List.mem_of_mem_tail mem)⟩
          exact others word (List.mem_of_mem_head? is)
        · have wide' := wide.2
          rw [FirstFits, words_break seg vs some unbroken none] at wide'
          refine Nat.lt_of_not_le fun narrow => wide' fun word is => ?_
          obtain rfl : seg.map Prod.snd = word := Option.some.inj is
          exact narrow

theorem paragraph_lines (vs : List (Int × EnhancedChar T)) :
    let lines := (flush l graphemeBreak startingCol desiredWidth
      (vs.foldl (put l graphemeBreak startingCol desiredWidth) emptyLine)).sent
    lines.flatten = vs.map Prod.snd ∧
      (WordsFit l graphemeBreak startingCol desiredWidth vs →
        Conforms l graphemeBreak startingCol desiredWidth (vs.map Prod.snd) lines) ∧
      (Conforms l graphemeBreak startingCol desiredWidth (vs.map Prod.snd) lines →
        FirstFits l startingCol desiredWidth vs) := by
  cases vs with
  | nil =>
      refine ⟨rfl, fun _ => ⟨rfl, fun line mem => ?_, fun no => absurd rfl no⟩, fun _ word is => ?_⟩
      · obtain rfl : line = [] := List.mem_singleton.mp mem
        exact Or.inr List.isChain_nil
      · cases is
  | cons v vs =>
      have first : put l graphemeBreak startingCol desiredWidth emptyLine v =
          ⟨[v.2], 0, 0, []⟩ := by
        have same : linebreakAllowed l graphemeBreak startingCol desiredWidth (emptyLine (T := T)) =
            emptyLine := if_pos (Nat.le_refl 0)
        rw [put, same, ite_self]
        rfl
      obtain ⟨sent, head, ⟨line, -, -, same⟩, whole, some, keeps, good, empty⟩ :=
        @words_run T l graphemeBreak startingCol desiredWidth vs ⟨[v.2], 0, 0, []⟩ [] [] [v]
          ⟨rfl, rfl, (widthAt_nil startingCol).symm, rfl⟩ (List.cons_ne_nil _ _)
          (List.isChain_singleton v)
      rw [List.foldl_cons, first, flush]
      simp only [line, same, List.append_nil]
      have whole' : (sent ++ [head]).flatten = (v :: vs).map Prod.snd := by
        rw [List.flatten_append, List.flatten_singleton, whole]
        rfl
      refine ⟨whole', fun fits => ?_, fun conforms => ?_⟩
      · have good' := good
          ⟨fun word is => ⟨fun _ => fits.1 word is, fun no => absurd rfl no⟩, fits.2⟩
          ⟨List.not_mem_nil, fun line mem => absurd mem List.not_mem_nil, Or.inr List.isChain_nil⟩
        refine ⟨whole', fun line mem => ?_, fun _ mem => ?_⟩
        · rcases List.mem_append.mp mem with mem | mem
          · exact good'.fits line mem
          · exact List.mem_singleton.mp mem ▸ good'.head_fits
        · rcases List.mem_append.mp mem with mem | mem
          · exact good'.nonempty mem
          · exact some (List.mem_singleton.mp mem).symm
      · by_contra wide
        exact conforms.nonempty (List.cons_ne_nil _ _)
          (List.mem_append_left _ (empty ⟨rfl, wide⟩))

end Paragraph
/-! ## The line-break machine -/

section Machine
variable {T : Type} (l : UnicodeWordwrap.Locale) (graphemeBreak : UInt32 → UInt32 → Bool)
  (startingCol desiredWidth : Nat) (tab : Tables LbClass)

abbrev opts : BitVec 32 := lbOptPrbreak ||| lbOptSybreak

def classOf (c : EnhancedChar T) : LbClass := lbLookup tab c.ch

def Withholds (before text : List (EnhancedChar T)) : Prop :=
  Opens ((text.reverse ++ before).map (classOf tab))

def broken (before text : List (EnhancedChar T)) : List (Int × EnhancedChar T) :=
  (batch (value opts) (before.map (classOf tab)) (text.map (classOf tab))).zip text

def Each (P : List (Int × EnhancedChar T) → Prop) :
    List (EnhancedChar T) → List (List (EnhancedChar T)) → Prop
  | _, [] => True
  | before, text :: more =>
    ¬ Withholds tab before text ∧ P (broken tab before text) ∧
      Each P (text.reverse ++ before) more

structure Waits (before : List (EnhancedChar T)) (i : Info (Calc T)) : Prop where
  reads : LinebreakSteps.Reads (before.map (classOf tab)) i
  opts : i.opts = opts
  queue : i.cbArg.queue.length = (LinebreakSteps.held i []).length
  opens : Opens (before.map (classOf tab)) → i.nextHandler = .nextLb25Seenophy

def machine : Machine (Info (Calc T)) (EnhancedChar T) (Int × EnhancedChar T) (Linebuf T) where
  put := put l graphemeBreak startingCol desiredWidth
  sink i := i.cbArg.buf
  next := submit l graphemeBreak startingCol desiredWidth tab
  value before c rest :=
    (value opts (before.map (classOf tab)) (classOf tab c) (rest.map (classOf tab)), c)
  Reads := Waits tab
  held i rest := (LinebreakSteps.held i (rest.map (classOf tab))).zip i.cbArg.queue

variable {l graphemeBreak startingCol desiredWidth tab}

/-- A value for each character that waits. -/
theorem emit_callback (out : List Int) : ∀ c : Calc T, out.length ≤ c.queue.length →
    LinebreakSteps.emit (callback l graphemeBreak startingCol desiredWidth) out c =
      (0, ⟨c.queue.drop out.length,
        (out.zip c.queue).foldl (put l graphemeBreak startingCol desiredWidth) c.buf⟩) := by
  induction out with
  | nil => exact fun c _ => rfl
  | cons x out ih =>
      rintro ⟨queue, buf⟩ fits
      cases queue with
      | nil => cases fits
      | cons p queue =>
          have call : callback l graphemeBreak startingCol desiredWidth x ⟨p :: queue, buf⟩ =
              (0, ⟨queue, put l graphemeBreak startingCol desiredWidth buf (x, p)⟩) := rfl
          rw [LinebreakSteps.emit, call, Lib.ReturnCode.andThen_ok,
            ih _ (Nat.le_of_succ_le_succ fits)]
          rfl

theorem machine_sound :
    (machine (T := T) l graphemeBreak startingCol desiredWidth tab).Sound := by
  intro before i c waits
  have step : LinebreakSteps.Step (callback l graphemeBreak startingCol desiredWidth)
      (before.map (classOf tab))
      { i with cbArg := { i.cbArg with queue := i.cbArg.queue ++ [c] } } (classOf tab c)
      (submit l graphemeBreak startingCol desiredWidth tab i c) :=
    LinebreakHandlers.step_next (waits.reads.withArg _)
  have opens := @opens_next _ (callback l graphemeBreak startingCol desiredWidth) _
    { i with cbArg := { i.cbArg with queue := i.cbArg.queue ++ [c] } } (classOf tab c)
    (waits.reads.withArg _) waits.opens
  obtain ⟨out, i', puts, reads', opts', owes⟩ := step
  have owes' : ∀ rest, out ++ LinebreakSteps.held i' rest =
      LinebreakSteps.held i (classOf tab c :: rest) ++
        [value i.opts (before.map (classOf tab)) (classOf tab c) rest] := owes
  have lengths : out.length + (LinebreakSteps.held i' []).length = i.cbArg.queue.length + 1 := by
    have := congrArg List.length (owes' [])
    rw [List.length_append, List.length_append, LinebreakText.length_held i _ []] at this
    rw [this, waits.queue]
    rfl
  have fits : out.length ≤ (i.cbArg.queue ++ [c]).length := by
    rw [List.length_append, List.length_singleton]
    omega
  have call := puts _ (emit_callback out ⟨i.cbArg.queue ++ [c], i.cbArg.buf⟩ fits)
  show (machine l graphemeBreak startingCol desiredWidth tab).Step before i c
    (submit l graphemeBreak startingCol desiredWidth tab i c)
  refine ⟨?_, ⟨?_, ?_, ?_, opens⟩, out.zip (i.cbArg.queue ++ [c]), ?_, ?_⟩
  · rw [call]
  · show LinebreakSteps.Reads _ (submit l graphemeBreak startingCol desiredWidth tab i c).2
    rw [call]
    exact reads'.withArg _
  · show (submit l graphemeBreak startingCol desiredWidth tab i c).2.opts = opts
    rw [call]
    exact opts'.trans waits.opts
  · show (submit l graphemeBreak startingCol desiredWidth tab i c).2.cbArg.queue.length =
      (LinebreakSteps.held (submit l graphemeBreak startingCol desiredWidth tab i c).2 []).length
    rw [call]
    show ((i.cbArg.queue ++ [c]).drop out.length).length = (LinebreakSteps.held i' []).length
    rw [List.length_drop, List.length_append, List.length_singleton]
    omega
  · show (submit l graphemeBreak startingCol desiredWidth tab i c).2.cbArg.buf = _
    rw [call]
    rfl
  · intro rest
    show out.zip _ ++ (LinebreakSteps.held
        (submit l graphemeBreak startingCol desiredWidth tab i c).2 _).zip
          (submit l graphemeBreak startingCol desiredWidth tab i c).2.cbArg.queue =
      (LinebreakSteps.held i (classOf tab c :: rest.map (classOf tab))).zip i.cbArg.queue ++ [_]
    rw [call]
    show out.zip _ ++ (LinebreakSteps.held i' _).zip ((i.cbArg.queue ++ [c]).drop out.length) = _
    rw [← LinebreakText.zip_split, owes', List.zip_append, waits.opts]
    · rfl
    · rw [waits.queue, LinebreakText.length_held i _ []]

theorem batch_machine (before text : List (EnhancedChar T)) :
    batch (machine l graphemeBreak startingCol desiredWidth tab).value before text =
      broken tab before text := by
  induction text generalizing before with
  | nil => rfl
  | cons c text ih =>
      rw [batch_cons, ih]
      rfl

theorem broken_text (before text : List (EnhancedChar T)) :
    (broken tab before text).map Prod.snd = text := by
  rw [broken, List.map_snd_zip]
  rw [length_batch, List.length_map]

/-- Between two paragraphs, when nothing is withheld. -/
structure Between (tab : Tables LbClass) (before : List (EnhancedChar T)) (i : Info (Calc T)) :
    Prop where
  waits : Waits tab before i
  queue : i.cbArg.queue = []
  buf : i.cbArg.buf = emptyLine

theorem between_start : Between tab [] (start (T := T)) where
  waits := ⟨.nextDef rfl rfl rfl rfl rfl rfl, rfl, rfl, by
    rintro ⟨p, more, shape, -⟩
    cases shape⟩
  queue := rfl
  buf := rfl

theorem paragraph_run {before : List (EnhancedChar T)} {i : Info (Calc T)}
    (between : Between tab before i) (text : List (EnhancedChar T)) : ∃ i' out waits,
    feed (submit l graphemeBreak startingCol desiredWidth tab) i text = (0, i') ∧
      Waits tab (text.reverse ++ before) i' ∧
      i'.cbArg.buf = out.foldl (put l graphemeBreak startingCol desiredWidth) emptyLine ∧
      out ++ waits = broken tab before text ∧ waits.length = i'.cbArg.queue.length := by
  obtain ⟨i', out, run, waits, emits, owes⟩ :=
    (@machine_sound T l graphemeBreak startingCol desiredWidth tab).feed text between.waits
  have all := owes []
  rw [batch_nil, List.append_nil, List.append_nil, batch_machine] at all
  have none : (machine l graphemeBreak startingCol desiredWidth tab).held i text = [] := by
    show (LinebreakSteps.held i _).zip i.cbArg.queue = []
    rw [between.queue, List.zip_nil_right]
  rw [none, List.nil_append] at all
  refine ⟨i', out, _, run, waits, ?_, all, ?_⟩
  · rw [← between.buf]
    exact emits
  · have waits' : Waits tab (text.reverse ++ before) i' := waits
    show ((LinebreakSteps.held i' []).zip i'.cbArg.queue).length = _
    rw [List.length_zip, waits'.queue, Nat.min_self]

theorem withholds_iff {before text : List (EnhancedChar T)} {i : Info (Calc T)}
    (waits : Waits tab (text.reverse ++ before) i) :
    Withholds tab before text ↔ i.cbArg.queue ≠ [] := by
  constructor
  · intro opens none
    have some := waits.queue
    rw [none, LinebreakSteps.held, waits.opens opens] at some
    cases some
  · intro some
    refine @opens_of_held _ _ _ [] waits.reads fun none => some ?_
    rw [← List.length_eq_zero_iff, waits.queue, none]
    rfl

theorem between_flush {before text : List (EnhancedChar T)} {i : Info (Calc T)}
    (waits : Waits tab (text.reverse ++ before) i) (queue : i.cbArg.queue = []) :
    Between tab (text.reverse ++ before)
      { i with cbArg := { i.cbArg with buf := { flush l graphemeBreak startingCol desiredWidth
        i.cbArg.buf with sent := [] } } } where
  waits := ⟨waits.reads.withArg _, waits.opts, waits.queue, waits.opens⟩
  queue := queue
  buf := rfl

end Machine

/-! ## All paragraphs -/

section Claims
variable {T : Type} {l : UnicodeWordwrap.Locale} {graphemeBreak : UInt32 → UInt32 → Bool}
  {startingCol desiredWidth : Nat} {tab : Tables LbClass}

theorem conforms_of_each (texts : List (List (EnhancedChar T))) :
    ∀ {before : List (EnhancedChar T)} {i : Info (Calc T)}, Between tab before i →
      Each tab (WordsFit l graphemeBreak startingCol desiredWidth) before texts →
      List.Forall₂ (Conforms l graphemeBreak startingCol desiredWidth) texts
        (format l graphemeBreak startingCol desiredWidth tab i texts) := by
  induction texts with
  | nil => exact fun _ _ => List.Forall₂.nil
  | cons text more ih =>
      rintro before i between ⟨fine, fits, others⟩
      obtain ⟨i', out, waits, run, waits', buf, split, length⟩ := @paragraph_run T l graphemeBreak
        startingCol desiredWidth tab before i between text
      have queue : i'.cbArg.queue = [] := by
        by_contra some
        exact fine ((withholds_iff waits').mpr some)
      rw [queue] at length
      rw [List.length_eq_zero_iff.mp length, List.append_nil] at split
      rw [format, run]
      refine List.Forall₂.cons ?_ (ih (between_flush waits' queue) others)
      have lines := (@paragraph_lines T l graphemeBreak startingCol desiredWidth out).2.1
      rw [split, broken_text] at lines
      rw [buf, split]
      exact lines fits

theorem each_of_conforms (texts : List (List (EnhancedChar T))) :
    ∀ {before : List (EnhancedChar T)} {i : Info (Calc T)}, Between tab before i →
      List.Forall₂ (Conforms l graphemeBreak startingCol desiredWidth) texts
        (format l graphemeBreak startingCol desiredWidth tab i texts) →
      Each tab (FirstFits l startingCol desiredWidth) before texts := by
  induction texts with
  | nil => exact fun _ _ => trivial
  | cons text more ih =>
      intro before i between all
      obtain ⟨i', out, waits, run, waits', buf, split, length⟩ := @paragraph_run T l graphemeBreak
        startingCol desiredWidth tab before i between text
      rw [format, run] at all
      obtain ⟨conforms, others⟩ := List.forall₂_cons.mp all
      obtain ⟨whole, -, first⟩ := @paragraph_lines T l graphemeBreak startingCol desiredWidth out
      rw [buf] at conforms
      have same : out.map Prod.snd ++ waits.map Prod.snd = out.map Prod.snd := by
        rw [← List.map_append, split, broken_text, ← whole]
        exact conforms.whole.symm
      have none : waits = [] :=
        List.map_eq_nil_iff.mp (List.append_right_eq_self.mp same)
      rw [none, List.append_nil] at split
      have queue : i'.cbArg.queue = [] := by
        rw [← List.length_eq_zero_iff, ← length, none]
        rfl
      refine ⟨fun withheld => (withholds_iff waits').mp withheld queue, ?_,
        ih (between_flush waits' queue) others⟩
      rw [split, broken_text] at first
      rw [split] at conforms
      exact first conforms

def plain (text : List UInt32) : List (EnhancedChar Unit) := text.map fun ch => ⟨ch, ()⟩

end Claims
end Cone.HtmlLinebuf
