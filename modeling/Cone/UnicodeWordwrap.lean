import Cone.LinebreakText

/-! # Lines that are wrapped at a width

`wordwrap_collector`, `unicodewordwrapper` and `unicodewordwrap` of widechar.H, and
`CursesEditMessage::inserted` of curseseditmessage.C as far as its text goes. -/
set_option autoImplicit false
namespace Cone.UnicodeWordwrap

open Cone.Lib.HeldBack Cone.UnicodeTablookup Cone.Linebreak Cone.LinebreakRules Cone.LinebreakText

abbrev UText := List UInt32

def TAB : UInt32 := 0x09
def NL : UInt32 := 0x0A
def CR : UInt32 := 0x0D
def SP : UInt32 := 0x20

structure Locale where
  towidechar : UText → List UInt32
  wcwidth : UInt32 → Int
  nonempty : ∀ text, text ≠ [] → towidechar text ≠ []
  append : ∀ a b, towidechar (a ++ b) = towidechar a ++ towidechar b

def charwidth (l : Locale) (ch : UInt32) (atcol : Nat) : Nat :=
  if ch ≠ TAB then (if l.wcwidth ch = -1 then 1 else (l.wcwidth ch).toNat) else 8 - atcol % 8

section Collector

structure Collector where
  linebuf : UText
  col : Nat
  lines : List UText

variable (l : Locale) (towidth : Nat) (delsp : Bool)

def widthFrom (col : Nat) (wsegment : List UInt32) : Nat :=
  wsegment.foldl (fun width ch => width + charwidth l ch (col + width)) 0

def breakline (c : Collector) : Collector :=
  let linebuf := if delsp && c.linebuf.getLast? = some SP then c.linebuf.dropLast else c.linebuf
  ⟨[], 0, c.lines ++ [linebuf]⟩

def moves (c : Collector) (segment : UText) : Bool :=
  let wsegment := l.towidechar segment
  let width := widthFrom l c.col wsegment
  !(delsp && width + c.col = towidth + 1 && wsegment.getLast? = some SP) &&
    (width + c.col > towidth && !c.linebuf.isEmpty)

def addsegment (c : Collector) (segment : UText) : Collector :=
  if l.towidechar segment = [] then c
  else
    let width := widthFrom l c.col (l.towidechar segment)
    let c := if moves l towidth delsp c segment then breakline delsp c else c
    { c with linebuf := c.linebuf ++ segment, col := c.col + width }

end Collector

section Wrapper

/-- What the iterator keeps beside the line-break machine. -/
structure Wrapping where
  segment : UText
  cnt : Nat
  collector : Collector

def noText : Wrapping := ⟨[], 0, ⟨[], 0, []⟩⟩

def lineEnd (ch : UInt32) : Bool := ch = CR || ch = NL

variable (l : Locale) (rewrapper : Nat → Bool) (towidth : Nat) (delsp : Bool)

def process (w : Wrapping) (v : Int × UInt32) : Wrapping :=
  let rewrapped := v.1 = lbNone && w.cnt > 0 && rewrapper w.cnt
  let segment := if rewrapped then w.segment ++ [SP] else w.segment
  let flag := if rewrapped then lbAllowed else v.1
  let c := if flag ≠ lbNone then addsegment l towidth delsp w.collector segment else w.collector
  let c := if flag = lbMandatory then breakline delsp c else c
  let segment := if flag ≠ lbNone then [] else segment
  ⟨if lineEnd v.2 then segment else segment ++ [v.2], w.cnt + 1, c⟩

def eof (w : Wrapping) : List UText :=
  let c := addsegment l towidth delsp w.collector w.segment
  if c.linebuf ≠ [] then (breakline delsp c).lines else c.lines

def saveBuf (value : Int) (ch : UInt32) (lb_buf : List (Int × UInt32)) :
    Int × List (Int × UInt32) :=
  (0, lb_buf ++ [(value, ch)])

abbrev Machine := Info (Lbc (List (Int × UInt32)))

/-- `lb_buf` is taken out of the machine. -/
def drained (i : Machine) : Machine := { i with cbArg := { i.cbArg with cbArg := [] } }

variable (tab : Tables LbClass)

/-- `operator=` -/
def next (s : Machine × Wrapping) (ch : UInt32) : Machine × Wrapping :=
  let i := (lbcNext saveBuf tab s.1 ch).2
  (drained i, i.cbArg.cbArg.foldl (process l rewrapper towidth delsp) s.2)

def start : Machine := lbcSetOpts (lbcInit []) (lbOptPrbreak ||| lbOptSybreak)

def unicodewordwrap (text : UText) : List UText :=
  eof l towidth delsp (text.foldl (next l rewrapper towidth delsp tab) (start, noText)).2

def unicoderewrapnone (_ : Nat) : Bool := false

/-- The lines in the place of the one that the user types in. -/
def inserted (before after : UText) : List UText :=
  let wrapped := unicodewordwrap l unicoderewrapnone towidth false tab before
  if wrapped.length > 1 then wrapped.dropLast ++ [wrapped.getLast?.getD [] ++ after]
  else [before ++ after]

end Wrapper

/-! ## What wrapping is for -/

section Wraps
variable (l : Locale) (towidth : Nat)

/-- Characters with their break values. -/
abbrev Segment := List (Int × UInt32)

def kept (text : UText) : UText := text.filter (! lineEnd ·)

def segmentText (seg : Segment) : UText := kept (seg.map Prod.snd)

def lineText (row : List Segment) : UText := segmentText row.flatten

def width (text : UText) : Nat := widthFrom l 0 (l.towidechar text)

def Fits (row : List Segment) : Prop :=
  width l (lineText row) ≤ towidth ∨ ∃ seg ∈ row, lineText row = segmentText seg

def Unbroken (seg : Segment) : Prop := ∀ v ∈ seg.tail, v.1 = lbNone

def Breaks (seg : Segment) : Prop := ∃ v ∈ seg.head?, v.1 ≠ lbNone

def GoesOn (seg : Segment) : Prop := ∃ v ∈ seg.head?, v.1 ≠ lbNone ∧ v.1 ≠ lbMandatory

structure Wrapped (vs : Segment) (lines : List UText) (rows : List (List Segment)) : Prop where
  whole : rows.flatten.flatten = vs
  unbroken : ∀ seg ∈ rows.flatten, Unbroken seg
  breaks : ∀ row ∈ rows.tail, ∃ seg ∈ row.head?, Breaks seg
  goesOn : ∀ row ∈ rows, ∀ seg ∈ row.tail, GoesOn seg
  fits : ∀ row ∈ rows, Fits l towidth row
  lines_eq : lines = rows.map lineText ∨
    ∃ rows' row, rows = rows' ++ [row] ∧ lineText row = [] ∧ lines = rows'.map lineText

end Wraps

/-! ## One segment after the other -/

section Texts
variable {l : Locale} {towidth : Nat}

theorem widthFrom_shift (ws : List UInt32) : ∀ col k : Nat,
    ws.foldl (fun width ch => width + charwidth l ch (col + width)) k =
      k + widthFrom l (col + k) ws := by
  induction ws with
  | nil => intro col k; rfl
  | cons c ws ih =>
      intro col k
      rw [widthFrom, List.foldl_cons, List.foldl_cons, ih, ih]
      simp only [Nat.zero_add, Nat.add_zero, Nat.add_assoc]

theorem widthFrom_append (col : Nat) (a b : List UInt32) :
    widthFrom l col (a ++ b) = widthFrom l col a + widthFrom l (col + widthFrom l col a) b := by
  rw [widthFrom, List.foldl_append, widthFrom_shift]
  rfl

theorem towidechar_nil : l.towidechar [] = [] := by
  have twice := l.append [] []
  rw [List.append_nil] at twice
  exact List.self_eq_append_right.mp twice

theorem towidechar_eq_nil {text : UText} : l.towidechar text = [] ↔ text = [] := by
  constructor
  · intro none
    by_contra nonempty
    exact l.nonempty text nonempty none
  · rintro rfl
    exact towidechar_nil

theorem width_append (a b : UText) :
    width l (a ++ b) = width l a + widthFrom l (width l a) (l.towidechar b) := by
  rw [width, l.append, widthFrom_append, Nat.zero_add]
  rfl

theorem kept_append (a b : UText) : kept (a ++ b) = kept a ++ kept b := List.filter_append ..

theorem segmentText_append (a b : Segment) :
    segmentText (a ++ b) = segmentText a ++ segmentText b := by
  rw [segmentText, List.map_append, kept_append]
  rfl

theorem segmentText_one (v : Int × UInt32) :
    segmentText [v] = if lineEnd v.2 then [] else [v.2] := by
  rw [segmentText, kept, List.map_singleton, List.filter_singleton]
  cases lineEnd v.2 <;> rfl

theorem lineText_concat (row : List Segment) (seg : Segment) :
    lineText (row ++ [seg]) = lineText row ++ segmentText seg := by
  rw [lineText, List.flatten_append, segmentText_append, List.flatten_singleton]
  rfl

theorem moves_iff (c : Collector) (segment : UText) : moves l towidth false c segment = true ↔
    towidth < widthFrom l c.col (l.towidechar segment) + c.col ∧ c.linebuf ≠ [] := by
  simp [moves]

theorem addsegment_nil (c : Collector) : addsegment l towidth false c [] = c := by
  rw [addsegment, if_pos towidechar_nil]

theorem addsegment_cons (c : Collector) {segment : UText} (nonempty : segment ≠ []) :
    addsegment l towidth false c segment =
      if moves l towidth false c segment then
        ⟨segment, widthFrom l c.col (l.towidechar segment), c.lines ++ [c.linebuf]⟩
      else
        ⟨c.linebuf ++ segment, c.col + widthFrom l c.col (l.towidechar segment), c.lines⟩ := by
  rw [addsegment, if_neg fun none => nonempty (towidechar_eq_nil.mp none)]
  cases moves l towidth false c segment with
  | true => simp [breakline]
  | false => simp

theorem process_plain (w : Wrapping) (v : Int × UInt32) :
    process l unicoderewrapnone towidth false w v =
      ⟨(if v.1 ≠ lbNone then [] else w.segment) ++ segmentText [v], w.cnt + 1,
        if v.1 ≠ lbNone then
          if v.1 = lbMandatory then
            breakline false (addsegment l towidth false w.collector w.segment)
          else addsegment l towidth false w.collector w.segment
        else w.collector⟩ := by
  rw [process, segmentText_one]
  simp only [unicoderewrapnone, Bool.and_false, Bool.false_eq_true, if_false]
  have ne : lbMandatory ≠ lbNone := by decide
  by_cases none : v.1 = lbNone
  · rw [none]
    cases lineEnd v.2 <;> simp [ne.symm]
  · cases lineEnd v.2 <;> simp [none]

def Wrapping.text (w : Wrapping) : UText :=
  w.collector.lines.flatten ++ w.collector.linebuf ++ w.segment

theorem addsegment_text (c : Collector) (segment : UText) :
    (addsegment l towidth false c segment).lines.flatten ++
        (addsegment l towidth false c segment).linebuf =
      c.lines.flatten ++ c.linebuf ++ segment := by
  by_cases none : segment = []
  · rw [none, addsegment_nil, List.append_nil]
  · rw [addsegment_cons c none]
    split <;> simp

theorem breakline_text (c : Collector) :
    (breakline false c).lines.flatten ++ (breakline false c).linebuf =
      c.lines.flatten ++ c.linebuf := by
  simp [breakline]

theorem process_text (w : Wrapping) (v : Int × UInt32) :
    (process l unicoderewrapnone towidth false w v).text = w.text ++ segmentText [v] := by
  rw [process_plain, Wrapping.text, Wrapping.text]
  simp only
  by_cases none : v.1 = lbNone
  · rw [if_neg (not_not.mpr none), if_neg (not_not.mpr none), List.append_assoc, List.append_assoc,
      List.append_assoc]
  · rw [if_pos none, if_pos none, List.nil_append]
    split
    · rw [breakline_text, addsegment_text]
    · rw [addsegment_text]

theorem foldl_text (vs : Segment) (w : Wrapping) :
    (vs.foldl (process l unicoderewrapnone towidth false) w).text = w.text ++ segmentText vs := by
  induction vs generalizing w with
  | nil => exact (List.append_nil _).symm
  | cons v vs ih =>
      rw [List.foldl_cons, ih, process_text, List.append_assoc, ← segmentText_append]
      rfl

theorem eof_text (w : Wrapping) : (eof l towidth false w).flatten = w.text := by
  have all := @addsegment_text l towidth w.collector w.segment
  rw [eof]
  split
  · rw [breakline]
    simp only [Bool.false_and, Bool.false_eq_true, if_false, List.flatten_append,
      List.flatten_singleton]
    exact all
  · rename_i none
    rw [not_not.mp none, List.append_nil] at all
    exact all

end Texts

section Laid
variable (l : Locale) (towidth : Nat)

def SteadyStep (w : Wrapping) : Prop :=
  moves l towidth false w.collector w.segment = true →
    widthFrom l w.collector.col (l.towidechar w.segment) = width l w.segment

def Steady : Wrapping → Segment → Prop
  | w, [] => SteadyStep l towidth w
  | w, v :: vs => (v.1 ≠ lbNone → SteadyStep l towidth w) ∧
      Steady (process l unicoderewrapnone towidth false w v) vs

structure Laid (vs : Segment) (c : Collector) (rows : List (List Segment)) (row : List Segment) :
    Prop where
  whole : rows.flatten.flatten ++ row.flatten = vs
  linebuf : c.linebuf = lineText row
  lines : c.lines = rows.map lineText
  col : c.col = width l (lineText row)
  unbroken : ∀ seg ∈ rows.flatten ++ row, Unbroken seg
  nonempty : ∀ r ∈ rows, r ≠ []
  breaks : ∀ r ∈ (rows ++ [row]).tail, r ≠ [] → ∃ seg ∈ r.head?, Breaks seg
  goesOn : ∀ r ∈ rows ++ [row], ∀ seg ∈ r.tail, GoesOn seg
  fits : ∀ r ∈ rows ++ [row], Fits l towidth r

structure Coming (rows : List (List Segment)) (row : List Segment) (seg : Segment) : Prop where
  unbroken : Unbroken seg
  breaks : rows ≠ [] ∨ row ≠ [] → Breaks seg
  goesOn : row ≠ [] → GoesOn seg

variable {l towidth} {vs : Segment} {c : Collector} {rows : List (List Segment)}
  {row : List Segment} {seg : Segment}

theorem Laid.append (laid : Laid l towidth vs c rows row) (coming : Coming rows row seg)
    {c' : Collector} (linebuf : c'.linebuf = c.linebuf ++ segmentText seg)
    (lines : c'.lines = c.lines) (col : c'.col = width l (lineText (row ++ [seg])))
    (fits : Fits l towidth (row ++ [seg])) :
    Laid l towidth (vs ++ seg) c' rows (row ++ [seg]) where
  whole := by
    rw [List.flatten_append, List.flatten_singleton, ← List.append_assoc, laid.whole]
  linebuf := by rw [linebuf, laid.linebuf, lineText_concat]
  lines := lines.trans laid.lines
  col := col
  unbroken := by
    rw [← List.append_assoc]
    intro s hs
    rcases List.mem_append.mp hs with hs | hs
    · exact laid.unbroken s hs
    · exact List.mem_singleton.mp hs ▸ coming.unbroken
  nonempty := laid.nonempty
  breaks := by
    cases rows with
    | nil => intro r hr; cases hr
    | cons r0 rows =>
        intro r hr _
        rcases List.mem_append.mp hr with hr | hr
        · exact laid.breaks r (List.mem_append_left _ hr)
            (laid.nonempty r (List.mem_cons_of_mem r0 hr))
        · obtain rfl := List.mem_singleton.mp hr
          cases row with
          | nil => exact ⟨seg, rfl, coming.breaks (Or.inl (List.cons_ne_nil _ _))⟩
          | cons s row =>
              exact laid.breaks (s :: row) (List.mem_append_right _ (List.mem_singleton.mpr rfl))
                (List.cons_ne_nil _ _)
  goesOn := by
    intro r hr
    rcases List.mem_append.mp hr with hr | hr
    · exact laid.goesOn r (List.mem_append_left _ hr)
    · obtain rfl := List.mem_singleton.mp hr
      cases row with
      | nil => intro s hs; cases hs
      | cons s0 row =>
          intro s hs
          rcases List.mem_append.mp hs with hs | hs
          · exact laid.goesOn (s0 :: row) (List.mem_append_right _ (List.mem_singleton.mpr rfl)) s
              hs
          · exact List.mem_singleton.mp hs ▸ coming.goesOn (List.cons_ne_nil _ _)
  fits := by
    intro r hr
    rcases List.mem_append.mp hr with hr | hr
    · exact laid.fits r (List.mem_append_left _ hr)
    · exact List.mem_singleton.mp hr ▸ fits

theorem Laid.breakline (laid : Laid l towidth vs c rows row) (some' : row ≠ []) :
    Laid l towidth vs (breakline false c) (rows ++ [row]) [] where
  whole := by
    rw [List.flatten_append, List.flatten_singleton, List.flatten_append, List.flatten_nil,
      List.append_nil]
    exact laid.whole
  linebuf := rfl
  lines := by
    rw [UnicodeWordwrap.breakline, List.map_append, ← laid.lines, List.map_singleton,
      ← laid.linebuf]
    simp
  col := by
    rw [lineText, List.flatten_nil]
    exact (congrArg (widthFrom l 0) towidechar_nil).symm
  unbroken := by
    rw [List.append_nil, List.flatten_append, List.flatten_singleton]
    exact laid.unbroken
  nonempty := by
    intro r hr
    rcases List.mem_append.mp hr with hr | hr
    · exact laid.nonempty r hr
    · exact List.mem_singleton.mp hr ▸ some'
  breaks := by
    intro r hr nonempty
    have hr' : r ∈ (rows ++ [row]).tail := by
      cases rows with
      | nil =>
          rw [List.nil_append, List.singleton_append, List.tail_cons] at hr
          exact absurd (List.mem_singleton.mp hr) nonempty
      | cons r0 rows =>
          rcases List.mem_append.mp hr with hr | hr
          · exact hr
          · exact absurd (List.mem_singleton.mp hr) nonempty
    exact laid.breaks r hr' nonempty
  goesOn := by
    intro r hr
    rcases List.mem_append.mp hr with hr | hr
    · exact laid.goesOn r hr
    · obtain rfl := List.mem_singleton.mp hr
      intro s hs
      cases hs
  fits := by
    intro r hr
    rcases List.mem_append.mp hr with hr | hr
    · exact laid.fits r hr
    · obtain rfl := List.mem_singleton.mp hr
      refine Or.inl ?_
      rw [lineText, List.flatten_nil]
      exact Nat.le_trans (Nat.le_of_eq (congrArg (widthFrom l 0) towidechar_nil)) (Nat.zero_le _)

theorem Laid.addsegment (laid : Laid l towidth vs c rows row) (coming : Coming rows row seg)
    (steady : moves l towidth false c (segmentText seg) = true →
      widthFrom l c.col (l.towidechar (segmentText seg)) = width l (segmentText seg)) :
    ∃ rows' row', row' ≠ [] ∧
      Laid l towidth (vs ++ seg) (addsegment l towidth false c (segmentText seg)) rows' row' := by
  have single : lineText [seg] = segmentText seg := by rw [lineText, List.flatten_singleton]
  by_cases none : segmentText seg = []
  · have same : lineText (row ++ [seg]) = lineText row := by
      rw [lineText_concat, none, List.append_nil]
    refine ⟨rows, row ++ [seg], by simp, ?_⟩
    rw [none, addsegment_nil]
    refine laid.append coming (by rw [none, List.append_nil]) rfl (by rw [same, laid.col]) ?_
    rcases laid.fits row (by simp) with fits | ⟨s, hs, all⟩
    · exact Or.inl (same ▸ fits)
    · exact Or.inr ⟨s, List.mem_append_left _ hs, same.trans all⟩
  · rw [addsegment_cons c none]
    by_cases move : moves l towidth false c (segmentText seg) = true
    · rw [if_pos move]
      have some' : row ≠ [] := by
        rintro rfl
        exact ((moves_iff c _).mp move).2 laid.linebuf
      have broken := laid.breakline some'
      refine ⟨rows ++ [row], [seg], List.cons_ne_nil _ _, ?_⟩
      have coming' : Coming (rows ++ [row]) [] seg :=
        ⟨coming.unbroken, fun _ => coming.breaks (Or.inr some'), fun no => absurd rfl no⟩
      refine broken.append coming' rfl ?_ ?_ ?_
      · simp [UnicodeWordwrap.breakline]
      · rw [List.nil_append, single]
        exact steady move
      · exact Or.inr ⟨seg, by simp, single⟩
    · rw [if_neg move]
      have text : lineText (row ++ [seg]) = c.linebuf ++ segmentText seg := by
        rw [lineText_concat, laid.linebuf]
      have col : c.col + widthFrom l c.col (l.towidechar (segmentText seg)) =
          width l (lineText (row ++ [seg])) := by
        rw [text, width_append, laid.linebuf, ← laid.col]
      refine ⟨rows, row ++ [seg], by simp, laid.append coming rfl rfl col ?_⟩
      rw [moves_iff, not_and_or, not_not, Nat.not_lt] at move
      rcases move with fits | empty
      · refine Or.inl ?_
        rw [← col, Nat.add_comm]
        exact fits
      · exact Or.inr ⟨seg, by simp, by rw [text, empty, List.nil_append]⟩

end Laid

section Runs
variable {l : Locale} {towidth : Nat}

def Going (l : Locale) (towidth : Nat) (vs : Segment) (w : Wrapping) : Prop :=
  ∃ before rows row seg, vs = before ++ seg ∧ Laid l towidth before w.collector rows row ∧
    Coming rows row seg ∧ w.segment = segmentText seg

theorem going_start : Going l towidth [] noText := by
  have coming : Coming [] [] [] :=
    ⟨fun v hv => absurd hv List.not_mem_nil, fun h => h.elim (absurd rfl) (absurd rfl),
      fun h => absurd rfl h⟩
  refine ⟨[], [], [], [], rfl, ?_, coming, rfl⟩
  exact {
    whole := rfl
    linebuf := rfl
    lines := rfl
    col := (congrArg (widthFrom l 0) towidechar_nil).symm
    unbroken := fun s hs => absurd hs List.not_mem_nil
    nonempty := fun r hr => absurd hr List.not_mem_nil
    breaks := fun r hr => absurd hr List.not_mem_nil
    goesOn := by
      intro r hr
      rw [List.mem_singleton.mp hr]
      exact fun s hs => absurd hs List.not_mem_nil
    fits := by
      intro r hr
      rw [List.mem_singleton.mp hr]
      refine Or.inl ?_
      exact Nat.le_trans (Nat.le_of_eq (congrArg (widthFrom l 0) towidechar_nil)) (Nat.zero_le _) }

theorem going_process {vs : Segment} {w : Wrapping} (going : Going l towidth vs w)
    (v : Int × UInt32) (steady : v.1 ≠ lbNone → SteadyStep l towidth w) :
    Going l towidth (vs ++ [v]) (process l unicoderewrapnone towidth false w v) := by
  obtain ⟨before, rows, row, seg, rfl, laid, coming, segment⟩ := going
  rw [process_plain]
  by_cases none : v.1 = lbNone
  · rw [if_neg (not_not.mpr none), if_neg (not_not.mpr none)]
    refine ⟨before, rows, row, seg ++ [v], List.append_assoc _ _ _, laid, ?_, ?_⟩
    · refine ⟨?_, fun h => ?_, fun h => ?_⟩
      · intro u hu
        cases seg with
        | nil => cases hu
        | cons s seg =>
            rcases List.mem_append.mp hu with hu | hu
            · exact coming.unbroken u hu
            · exact List.mem_singleton.mp hu ▸ none
      · obtain ⟨u, hu, flag⟩ := coming.breaks h
        cases seg with
        | nil => cases hu
        | cons s seg => exact ⟨u, hu, flag⟩
      · obtain ⟨u, hu, flag⟩ := coming.goesOn h
        cases seg with
        | nil => cases hu
        | cons s seg => exact ⟨u, hu, flag⟩
    · rw [segment, segmentText_append]
  · obtain ⟨rows', row', some', laid'⟩ := laid.addsegment coming (segment ▸ steady none)
    rw [← segment] at laid'
    rw [if_pos none, if_pos none]
    by_cases mandatory : v.1 = lbMandatory
    · refine ⟨before ++ seg, rows' ++ [row'], [], [v], rfl, ?_, ?_, rfl⟩
      · rw [if_pos mandatory]
        exact laid'.breakline some'
      · exact ⟨fun u hu => absurd hu List.not_mem_nil, fun _ => ⟨v, rfl, none⟩,
          fun h => absurd rfl h⟩
    · refine ⟨before ++ seg, rows', row', [v], rfl, ?_, ?_, rfl⟩
      · rw [if_neg mandatory]
        exact laid'
      · exact ⟨fun u hu => absurd hu List.not_mem_nil, fun _ => ⟨v, rfl, none⟩,
          fun _ => ⟨v, rfl, none, mandatory⟩⟩

theorem wrapped_run (more : Segment) : ∀ {vs : Segment} {w : Wrapping}, Going l towidth vs w →
    Steady l towidth w more → ∃ rows, Wrapped l towidth (vs ++ more)
      (eof l towidth false (more.foldl (process l unicoderewrapnone towidth false) w)) rows := by
  induction more with
  | nil =>
      rintro vs w ⟨before, rows, row, seg, rfl, laid, coming, segment⟩ steady
      obtain ⟨rows', row', some', laid'⟩ := laid.addsegment coming (segment ▸ steady)
      rw [← segment] at laid'
      refine ⟨rows' ++ [row'], ?_, ?_, ?_, laid'.goesOn, laid'.fits, ?_⟩
      · rw [List.append_nil, List.flatten_append, List.flatten_singleton, List.flatten_append]
        exact laid'.whole
      · rw [List.flatten_append, List.flatten_singleton]
        exact laid'.unbroken
      · intro r hr
        refine laid'.breaks r hr ?_
        rcases List.mem_append.mp (List.mem_of_mem_tail hr) with hr | hr
        · exact laid'.nonempty r hr
        · exact List.mem_singleton.mp hr ▸ some'
      · rw [List.foldl_nil, eof]
        split
        · refine Or.inl ?_
          rw [List.map_append, ← laid'.lines, List.map_singleton, ← laid'.linebuf]
          simp [breakline]
        · rename_i empty
          refine Or.inr ⟨rows', row', rfl, ?_, laid'.lines⟩
          rw [← laid'.linebuf]
          exact not_not.mp empty
  | cons v more ih =>
      intro vs w going steady
      rw [List.append_cons]
      exact ih (going_process going v steady.1) steady.2

theorem Wrapped.flatten {vs : Segment} {lines : List UText} {rows : List (List Segment)}
    (wrapped : Wrapped l towidth vs lines rows) : lines.flatten = segmentText vs := by
  have all : ∀ rs : List (List Segment),
      (rs.map lineText).flatten = segmentText rs.flatten.flatten := by
    intro rs
    induction rs with
    | nil => rfl
    | cons r rs ih =>
        rw [List.map_cons, List.flatten_cons, ih, List.flatten_cons, List.flatten_append,
          segmentText_append]
        rfl
  rcases wrapped.lines_eq with same | ⟨rows', row, split, empty, same⟩
  · rw [same, all, wrapped.whole]
  · rw [same, all, ← wrapped.whole, split, List.flatten_append, List.flatten_singleton,
      List.flatten_append, segmentText_append]
    rw [lineText] at empty
    rw [empty, List.append_nil]

end Runs

/-! ## The line-break machine -/

section Machine
variable {l : Locale} {towidth : Nat} {tab : Tables LbClass}

abbrev opts : BitVec 32 := lbOptPrbreak ||| lbOptSybreak

theorem foldl_saveBuf (out a : Segment) : out.foldl (put saveBuf) a = a ++ out := by
  induction out generalizing a with
  | nil => exact (List.append_nil a).symm
  | cons v out ih =>
      rw [List.foldl_cons, ih, List.append_cons]
      rfl

abbrev machine (tab : Tables LbClass) := textMachine saveBuf tab opts

/-- The machine after `before`, with nothing in `lb_buf`. -/
structure Idle (tab : Tables LbClass) (before : List UInt32) (i : Machine) : Prop where
  reads : TextReads tab opts before i
  empty : i.cbArg.cbArg = []

theorem idle_start : Idle tab [] start := ⟨reads_init tab opts [], rfl⟩

theorem lbcNext_idle {before : List UInt32} {i : Machine} (idle : Idle tab before i)
    (ch : UInt32) : Idle tab (ch :: before) (drained (lbcNext saveBuf tab i ch).2) ∧
      ∀ rest, (lbcNext saveBuf tab i ch).2.cbArg.cbArg ++
          (machine tab).held (drained (lbcNext saveBuf tab i ch).2) rest =
        (machine tab).held i (ch :: rest) ++ [(machine tab).value before ch rest] := by
  obtain ⟨-, reads, out, emits, owes⟩ :=
    @textMachine_sound _ saveBuf tab opts (fun _ _ _ => rfl) before i ch idle.reads
  have buf : (lbcNext saveBuf tab i ch).2.cbArg.cbArg = out := by
    have all : (lbcNext saveBuf tab i ch).2.cbArg.cbArg =
        out.foldl (put saveBuf) i.cbArg.cbArg := emits
    rw [all, foldl_saveBuf, idle.empty, List.nil_append]
  have reads : TextReads tab opts (ch :: before) (lbcNext saveBuf tab i ch).2 := reads
  refine ⟨⟨⟨reads.reads.withArg _, reads.opts, reads.fine, reads.waits⟩, rfl⟩, ?_⟩
  rw [buf]
  exact owes

theorem feed_idle {W : Type} (f : W → Int × UInt32 → W) (text : UText) :
    ∀ {before : List UInt32} {i : Machine} (w : W), Idle tab before i → ∃ i' out,
      text.foldl (fun s ch => (drained (lbcNext saveBuf tab s.1 ch).2,
        (lbcNext saveBuf tab s.1 ch).2.cbArg.cbArg.foldl f s.2)) (i, w) = (i', out.foldl f w) ∧
      Idle tab (text.reverse ++ before) i' ∧
      ∀ rest, out ++ (machine tab).held i' rest ++
          batch (machine tab).value (text.reverse ++ before) rest =
        (machine tab).held i (text ++ rest) ++ batch (machine tab).value before (text ++ rest) := by
  induction text with
  | nil => exact fun {before i} w idle => ⟨i, [], rfl, idle, fun rest => rfl⟩
  | cons ch text ih =>
      intro before i w idle
      obtain ⟨idle', owes⟩ := lbcNext_idle idle ch
      obtain ⟨i', out', run, idle'', owes'⟩ := ih
        ((lbcNext saveBuf tab i ch).2.cbArg.cbArg.foldl f w) idle'
      refine ⟨i', (lbcNext saveBuf tab i ch).2.cbArg.cbArg ++ out', ?_, ?_, fun rest => ?_⟩
      · rw [List.foldl_cons, List.foldl_append]
        exact run
      · rw [List.reverse_cons, List.append_assoc]
        exact idle''
      · have here := owes (text ++ rest)
        have later := owes' rest
        simp only [List.reverse_cons, List.append_assoc, List.cons_append, List.nil_append,
          batch_cons] at later ⊢
        rw [later, ← List.append_assoc, here]
        simp

def broken (tab : Tables LbClass) (text : UText) : Segment :=
  (lineBreaks opts (text.map (lbLookup tab))).zip text

theorem broken_text (text : UText) : (broken tab text).map Prod.snd = text := by
  rw [broken, List.map_snd_zip]
  rw [lineBreaks, length_batch, List.length_map]

theorem wordwrap_split (l : Locale) (towidth : Nat) (tab : Tables LbClass) (text : UText) :
    ∃ i out waits, i = (text.foldl (next l unicoderewrapnone towidth false tab) (start, noText)).1 ∧
      Idle tab text.reverse i ∧ out ++ waits = broken tab text ∧
      waits.length = (LinebreakSteps.held i []).length ∧
      unicodewordwrap l unicoderewrapnone towidth false tab text =
        eof l towidth false (out.foldl (process l unicoderewrapnone towidth false) noText) := by
  obtain ⟨i, out, run, idle, owes⟩ :=
    feed_idle (process l unicoderewrapnone towidth false) text noText (@idle_start tab)
  have run : text.foldl (next l unicoderewrapnone towidth false tab) (start, noText) =
      (i, out.foldl (process l unicoderewrapnone towidth false) noText) := run
  rw [List.append_nil] at idle
  refine ⟨i, out, (machine tab).held i [], by rw [run], idle, ?_, ?_, ?_⟩
  · have all := owes []
    rw [batch_nil, List.append_nil, List.append_nil, batch_text] at all
    exact all
  · show ((LinebreakSteps.held i []).zip (Lbc.waiting i.cbArg)).length = _
    rw [List.length_zip, idle.reads.waits, Nat.min_self]
  · rw [unicodewordwrap, run]

end Machine

/-! ## What is withheld -/

section Withheld
variable {A : Type} {cb : Int → A → Int × A} {before : List LbClass} {i : Info A} {cl : LbClass}

def Opens (before : List LbClass) : Prop :=
  ∃ p more, reduce before = .OP :: p :: more ∧ (p = .PR ∨ p = .PO)

theorem opens_next (reads : LinebreakSteps.Reads before i)
    (held : Opens before → i.nextHandler = .nextLb25Seenophy) (opens : Opens (cl :: before)) :
    (nextHandler cb i cl).2.nextHandler = .nextLb25Seenophy := by
  obtain ⟨p, more, shape, lead⟩ := opens
  cases attach : attaches cl before with
  | true =>
      rw [reduce_of_attaches attach] at shape
      have next := held ⟨p, more, shape, lead⟩
      have mark : cl = .CM := by
        cases before with
        | nil => cases attach
        | cons prev before => simpa [attaches] using (Bool.and_eq_true_iff.mp attach).1
      rw [nextHandler, next]
      simp only
      rw [nextLb25Seenophy, if_pos mark]
      exact next
  | false =>
      rw [reduce_of_not_attaches attach] at shape
      obtain ⟨opening, behind⟩ := List.cons.inj shape
      have letter : cl = .OP := by
        revert opening
        cases cl <;> decide
      subst letter
      cases reads with
      | nextDef next atEnd last nsp num close =>
          rw [behind, List.head?_cons] at last
          have nsp : i.prevclassNsp = some p := by
            rw [nsp, behind]
            rcases lead with rfl | rfl <;> rfl
          rw [nextHandler, next]
          simp only
          rw [nextDef, nextDefNolb25, last, nsp]
          have rules := LinebreakSteps.lb11to24_unit i.opts lead
          rcases lead with rfl | rfl <;> simp [isLineEnd, rules]
      | nextLb25Seenophy next atEnd lead' shape' saved last nsp =>
          rw [shape'] at behind
          rcases lead with rfl | rfl <;> cases (List.cons.inj behind).1
      | nextLb25Seennu next atEnd last nsp num =>
          rw [behind] at num
          rcases lead with rfl | rfl <;> cases num
      | nextLb25Seennuclcp next atEnd last nsp close =>
          rw [behind] at close
          rcases lead with rfl | rfl <;> cases close

theorem opens_of_held {rest : List LbClass} (reads : LinebreakSteps.Reads before i)
    (some' : LinebreakSteps.held i rest ≠ []) : Opens before := by
  cases reads with
  | nextDef next => rw [LinebreakSteps.held, next] at some'; exact absurd rfl some'
  | nextLb25Seenophy next atEnd lead shape => exact ⟨_, _, shape, lead⟩
  | nextLb25Seennu next => rw [LinebreakSteps.held, next] at some'; exact absurd rfl some'
  | nextLb25Seennuclcp next => rw [LinebreakSteps.held, next] at some'; exact absurd rfl some'

theorem opens_last {cl : LbClass} (opens : Opens (cl :: before)) : cl = .OP ∨ cl = .CM := by
  obtain ⟨p, more, shape, -⟩ := opens
  cases attach : attaches cl before with
  | true =>
      cases before with
      | nil => cases attach
      | cons prev before =>
          exact Or.inr (by simpa [attaches] using (Bool.and_eq_true_iff.mp attach).1)
  | false =>
      rw [reduce_of_not_attaches attach] at shape
      have opening := (List.cons.inj shape).1
      refine Or.inl ?_
      revert opening
      cases cl <;> decide

variable {l : Locale} {towidth : Nat} {tab : Tables LbClass}

def Withholds (tab : Tables LbClass) (text : UText) : Prop :=
  Opens (text.reverse.map (lbLookup tab))

theorem withholds_run (text : UText) : ∀ {before : List UInt32} {i : Machine} (w : Wrapping),
    Idle tab before i → (Opens (before.map (lbLookup tab)) → i.nextHandler = .nextLb25Seenophy) →
      Opens ((text.reverse ++ before).map (lbLookup tab)) →
      (text.foldl (next l unicoderewrapnone towidth false tab) (i, w)).1.nextHandler =
        .nextLb25Seenophy := by
  induction text with
  | nil => exact fun {before i} w idle held opens => held opens
  | cons ch text ih =>
      intro before i w idle held opens
      have idle' := (lbcNext_idle idle ch).1
      rw [List.foldl_cons]
      refine ih (next l unicoderewrapnone towidth false tab (i, w) ch).2 idle' (fun opens' => ?_) ?_
      · exact opens_next (idle.reads.reads.withArg (lbcAppend i.cbArg ch)) held opens'
      · rw [List.reverse_cons, List.append_assoc] at opens
        exact opens

end Withheld

/-! ## What the wrapping does -/

section Claims
variable {l : Locale} {towidth : Nat} {tab : Tables LbClass} {text : UText}

def Conforms (l : Locale) (towidth : Nat) (tab : Tables LbClass) (text : UText) : Prop :=
  (∃ rows, Wrapped l towidth (broken tab text)
    (unicodewordwrap l unicoderewrapnone towidth false tab text) rows) ∧
  ∀ after, kept (inserted l towidth tab text after).flatten = kept (text ++ after)

theorem kept_kept (text : UText) : kept (kept text) = kept text := by
  rw [kept, kept, List.filter_filter]
  congr 1
  funext c
  exact Bool.and_self _

theorem conforms_of (steady : Steady l towidth noText (broken tab text))
    (open' : ¬ Withholds tab text) : Conforms l towidth tab text := by
  obtain ⟨i, out, waits, -, idle, split, held, lines⟩ := wordwrap_split l towidth tab text
  have none : waits = [] := by
    by_contra some'
    have long := List.length_pos_iff.mpr some'
    rw [held] at long
    refine open' ?_
    rw [Withholds]
    exact opens_of_held idle.reads.reads (List.ne_nil_of_length_pos long)
  rw [none, List.append_nil] at split
  rw [split] at lines
  obtain ⟨rows, wrapped⟩ := wrapped_run (broken tab text) (@going_start l towidth) steady
  rw [List.nil_append, ← lines] at wrapped
  refine ⟨⟨rows, wrapped⟩, fun after => ?_⟩
  have whole := wrapped.flatten
  rw [segmentText, broken_text] at whole
  rw [inserted]
  split
  · rename_i more
    have some' : unicodewordwrap l unicoderewrapnone towidth false tab text ≠ [] :=
      List.ne_nil_of_length_pos (by omega)
    rw [List.flatten_append, List.flatten_singleton, ← List.append_assoc,
      List.getLast?_eq_some_getLast some', Option.getD_some]
    have lines' := List.dropLast_append_getLast some'
    have both := congrArg List.flatten lines'
    rw [List.flatten_append, List.flatten_singleton] at both
    rw [both, whole, kept_append, kept_append, kept_kept]
  · rw [List.flatten_singleton]

theorem not_withholds (cr : lbLookup tab CR = .CR) (nl : lbLookup tab NL = .LF)
    (conforms : Conforms l towidth tab text) : ¬ Withholds tab text := by
  intro opens
  obtain ⟨⟨rows, wrapped⟩, -⟩ := conforms
  obtain ⟨i, out, waits, same, idle, split, held, lines⟩ := wordwrap_split l towidth tab text
  have next : i.nextHandler = .nextLb25Seenophy := by
    rw [same]
    refine withholds_run text noText idle_start (fun opens' => ?_) ?_
    · obtain ⟨p, more, shape, -⟩ := opens'
      cases shape
    · rw [List.append_nil]
      exact opens
  have whole := wrapped.flatten
  rw [lines, eof_text, foldl_text, ← split, segmentText_append] at whole
  have none : segmentText waits = [] := List.self_eq_append_right.mp whole
  rcases List.eq_nil_or_concat waits with empty | ⟨waits', v, last⟩
  · rw [LinebreakSteps.held, next, empty] at held
    cases held
  · rw [List.concat_eq_append] at last
    have end' : text = (out ++ waits').map Prod.snd ++ [v.2] := by
      rw [← @broken_text tab text, ← split, last, ← List.append_assoc, List.map_append]
      rfl
    rw [Withholds, end', List.reverse_append, List.reverse_singleton, List.singleton_append,
      List.map_cons] at opens
    have letter : lineEnd v.2 = false := by
      have class' := opens_last opens
      rw [lineEnd, Bool.or_eq_false_iff]
      constructor
      · refine decide_eq_false fun is => ?_
        rw [is, cr] at class'
        rcases class' with no | no <;> cases no
      · refine decide_eq_false fun is => ?_
        rw [is, nl] at class'
        rcases class' with no | no <;> cases no
    rw [last, segmentText_append, segmentText_one, letter] at none
    exact absurd (List.append_eq_nil_iff.mp none).2 (List.cons_ne_nil _ _)

def oneColumn : Locale where
  towidechar text := text
  wcwidth _ := 1
  nonempty _ some := some
  append _ _ := rfl

/-- The classes of a tab, the line ends, a space, a dollar sign, a bracket and the letters. -/
def asciiTables : Tables LbClass where
  indextab := #[0, 7]
  rangetab := #[(0x09, 0x09), (0x0a, 0x0a), (0x0d, 0x0d), (0x20, 0x20), (0x24, 0x24), (0x28, 0x28),
    (0x61, 0x7a)]
  classtab := #[.BA, .LF, .CR, .SP, .PR, .OP, .AL]

instance decidableSteadyStep (l : Locale) (towidth : Nat) (w : Wrapping) :
    Decidable (SteadyStep l towidth w) :=
  inferInstanceAs (Decidable (_ → _))

instance decidableSteady (l : Locale) (towidth : Nat) :
    ∀ (vs : Segment) (w : Wrapping), Decidable (Steady l towidth w vs)
  | [], w => decidableSteadyStep l towidth w
  | v :: vs, w =>
      have := decidableSteady l towidth vs (process l unicoderewrapnone towidth false w v)
      inferInstanceAs (Decidable (_ ∧ _))

end Claims
end Cone.UnicodeWordwrap
