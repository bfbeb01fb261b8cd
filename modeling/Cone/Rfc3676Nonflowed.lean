import Mathlib
import Cone.Rfc3676Lines

/-! # Text that is not flowed (`rfc2045/rfc3676parser.c`)

The logical lines of such a text go through the linebreaking module, and a line that gets much too
wide is rewrapped.  The callbacks return zero and there is one for flowed lines. -/
set_option autoImplicit false
namespace Cone.Rfc3676Nonflowed

open Cone.Lib.PushParser Cone.Rfc3676Parser Cone.Rfc3676Peel Cone.Rfc3676Lines
open Cone.FlowedText (Event splitLines collapseCrlf)

abbrev NONFLOWED_WRAP_REDUCE : Nat := 74
abbrev NONFLOWED_THRESHOLD_EXCEEDED : Nat := 30

/-- The linebreaking module: what `unicode_lbc_next` and `unicode_lbc_end` call back with, each
character with whether a line can be broken before it. -/
structure Linebreak (L : Type) where
  init : L
  next : L → Char → L × List (Bool × Char)
  finish : L → List (Bool × Char)

/-- `unicode_wcwidth` and `unicode_grapheme_break` -/
structure Widths where
  wcwidth : Char → Nat
  graphemeBreak : Char → Char → Bool

inductive LineProcess where
  | initialNonflowedLine
  | forcedRewrapLine
  deriving DecidableEq, Repr

structure Nonflowed where
  line : List Char
  nextWord : List Char
  lineTargetWidth : Nat
  lineWidth : Nat
  nextWordWidth : Nat
  lineProcess : LineProcess
  calls : List Call
  deriving DecidableEq, Repr

structure Handle (L : Type) where
  lb : Option L
  nonflowed : Nonflowed

section Emit
variable (h : Nonflowed)

def emit (c : Call) : Nonflowed := { h with calls := h.calls ++ [c] }

def emitLineContents (uc : List Char) : Nonflowed :=
  if uc = [] then h else emit h (.lineContents uc)

/-- `initial_nonflowed_end`, and `forced_rewrap_end`. -/
def nonflowedEnd : Nonflowed := emitLineContents (emitLineContents h h.line) h.nextWord

end Emit

section Process
variable (w : Widths)

def width (uc : List Char) : Nat := (uc.map w.wcwidth).sum

/-- The loop of `check_abnormal_line`, from `i` downwards. -/
def cutLoop (p : List Char) : Nat → Nat
  | 0 => p.length
  | i + 1 =>
    if i + 1 < p.length ∧ w.graphemeBreak (p.getD i ' ') (p.getD (i + 1) ' ') then i + 1
    else cutLoop p i

def checkAbnormalLine (h : Nonflowed) : Nonflowed :=
  if h.line ≠ [] then h
  else
    let n := cutLoop w h.nextWord h.nextWord.length
    { h with
      line := h.line ++ h.nextWord.take n
      nextWord := h.nextWord.drop n
      nextWordWidth := width w (h.nextWord.drop n) }

def emitRewrappedLine (h : Nonflowed) : Nonflowed :=
  let h := checkAbnormalLine w h
  let h := emit (emitLineContents h h.line) .lineFlowedNotify
  { h with line := [], lineWidth := 0 }

def beginForcedRewrap (h : Nonflowed) : Nonflowed :=
  emitRewrappedLine w { h with lineProcess := .forcedRewrapLine }

def appendWord (h : Nonflowed) : Nonflowed :=
  { h with
    line := h.line ++ h.nextWord
    lineWidth := h.lineWidth + h.nextWordWidth
    nextWord := []
    nextWordWidth := 0 }

def appendChar (h : Nonflowed) (ch : Char) (chWidth : Nat) : Nonflowed :=
  { h with nextWord := h.nextWord ++ [ch], nextWordWidth := h.nextWordWidth + chWidth }

def initialNonflowedLine (h : Nonflowed) (opportunity : Bool) (ch : Char) (chWidth : Nat) :
    Nonflowed :=
  let h :=
    if opportunity ∧ h.lineWidth + h.nextWordWidth ≤ h.lineTargetWidth then appendWord h else h
  let h := appendChar h ch chWidth
  if h.lineWidth + h.nextWordWidth > h.lineTargetWidth + NONFLOWED_THRESHOLD_EXCEEDED then
    beginForcedRewrap w h
  else h

def forcedRewrapLine (h : Nonflowed) (opportunity : Bool) (ch : Char) (chWidth : Nat) : Nonflowed :=
  let h :=
    if opportunity then
      appendWord
        (if h.lineWidth + h.nextWordWidth > h.lineTargetWidth then emitRewrappedLine w h else h)
    else h
  let h :=
    if h.lineWidth = 0 ∧ h.nextWordWidth + chWidth > h.lineTargetWidth then emitRewrappedLine w h
    else h
  appendChar h ch chWidth

def nonflowedLineProcess (h : Nonflowed) (r : Bool × Char) : Nonflowed :=
  match h.lineProcess with
  | .initialNonflowedLine => initialNonflowedLine w h r.1 r.2 (w.wcwidth r.2)
  | .forcedRewrapLine => forcedRewrapLine w h r.1 r.2 (w.wcwidth r.2)

end Process

section Handlers
variable {L : Type} (b : Linebreak L) (w : Widths)

/-- `unicode_lbc_end`, where there is something to end. -/
def lbcEnd (h : Handle L) : Handle L :=
  match h.lb with
  | none => h
  | some lb => ⟨none, (b.finish lb).foldl (nonflowedLineProcess w) h.nonflowed⟩

def lineTargetWidth (quoteLevel : Nat) : Nat :=
  if quoteLevel < NONFLOWED_WRAP_REDUCE - 20 then NONFLOWED_WRAP_REDUCE - quoteLevel else 20

def nonflowedLineBegin (quoteLevel : Nat) (h : Handle L) : Handle L :=
  let h := lbcEnd b w h
  ⟨some b.init,
    emit ⟨[], [], lineTargetWidth quoteLevel, 0, 0, .initialNonflowedLine, h.nonflowed.calls⟩
      (.lineBegin quoteLevel)⟩

def lbcNext (h : Handle L) (ch : Char) : Handle L :=
  match h.lb with
  | none => h
  | some lb => ⟨some (b.next lb ch).1, (b.next lb ch).2.foldl (nonflowedLineProcess w) h.nonflowed⟩

def nonflowedLineContents (uc : List Char) (h : Handle L) : Handle L := uc.foldl (lbcNext b w) h

def nonflowedLineEnd (h : Handle L) : Handle L :=
  let h := lbcEnd b w h
  { h with nonflowed := emit (nonflowedEnd h.nonflowed) .lineEnd }

def handle (h : Handle L) : Call → Handle L
  | .lineBegin quoteLevel => nonflowedLineBegin b w quoteLevel h
  | .lineContents uc => nonflowedLineContents b w uc h
  | .lineFlowedNotify => { h with nonflowed := emit h.nonflowed .lineFlowedNotify }
  | .lineEnd => nonflowedLineEnd b w h

/-- The handle that `rfc3676parser_init` clears. -/
def cleared : Handle L := ⟨none, ⟨[], [], 0, 0, 0, .initialNonflowedLine, []⟩⟩

def parseNonflowed (pieces : List (List Char)) : Option (List Call) :=
  (parse false false pieces).map fun calls =>
    (lbcEnd b w (calls.foldl (handle b w) cleared)).nonflowed.calls

end Handlers

/-! ## What is promised -/

def contentOf (calls : List Call) : List Char :=
  calls.flatMap fun
    | .lineContents uc => uc
    | _ => []

def opportunitiesFrom {L : Type} (b : Linebreak L) : L → List Char → List (Bool × Char)
  | lb, [] => b.finish lb
  | lb, ch :: cs => (b.next lb ch).2 ++ opportunitiesFrom b (b.next lb ch).1 cs

def opportunities {L : Type} (b : Linebreak L) (line : List Char) : List (Bool × Char) :=
  opportunitiesFrom b b.init line

/-- It calls back with each character once, and in order. -/
def Linebreak.Faithful {L : Type} (b : Linebreak L) : Prop :=
  ∀ line, (opportunities b line).map Prod.snd = line

def physicalLines (pieces : List (List Char)) : List (List Char) :=
  (splitLines (collapseCrlf pieces.flatten)).map Prod.fst

def Inner : Call → Prop
  | .lineContents _ => True
  | .lineFlowedNotify => True
  | _ => False

def Reports (w : Widths) (line : List Char) (calls : List Call) : Prop :=
  ∃ inner, calls = .lineBegin 0 :: inner ++ [.lineEnd] ∧ (∀ c ∈ inner, Inner c) ∧
    contentOf inner = line ∧
    (width w line ≤ lineTargetWidth 0 + NONFLOWED_THRESHOLD_EXCEEDED → .lineFlowedNotify ∉ inner)


/-! ## Event by event -/

section Hearing
variable {L : Type} (b : Linebreak L) (w : Widths)

def eventCall : Event → Call
  | .lineBegin quoteLevel => .lineBegin quoteLevel
  | .char c => .lineContents [c]
  | .flowed => .lineFlowedNotify
  | .lineEnd => .lineEnd

def hear (h : Handle L) (e : Event) : Handle L := handle b w h (eventCall e)

theorem foldl_hear_chars (uc : List Char) (h : Handle L) :
    (uc.map Event.char).foldl (hear b w) h = uc.foldl (lbcNext b w) h := by
  rw [List.foldl_map]
  rfl

theorem foldl_handle (calls : List Call) (h : Handle L) :
    calls.foldl (handle b w) h = (flatten calls).foldl (hear b w) h := by
  induction calls generalizing h with
  | nil => rfl
  | cons call calls ih =>
      rw [List.foldl_cons, flatten_cons, List.foldl_append, ← ih]
      congr 1
      cases call with
      | lineBegin quoteLevel => rfl
      | lineContents uc => exact (foldl_hear_chars b w uc h).symm
      | lineFlowedNotify => rfl
      | lineEnd => rfl

end Hearing

/-! ## What the parser makes of such a text -/

section Parsed
variable {h : Content}

def lineEvents (line : List Char) : List Event := .lineBegin 0 :: line.map .char ++ [.lineEnd]

structure AtStart (h : Content) : Prop where
  notFlowed : h.isflowed = false
  handler : h.contentHandler = .startOfLine
  noPrevious : h.hasPreviousQuoteLevel = false

structure Within (h : Content) : Prop where
  notFlowed : h.isflowed = false
  handler : h.contentHandler = .scanContentLine
  noPrevious : h.hasPreviousQuoteLevel = false

theorem Within.total_line (inside : Within h) (line rest : List Char) (oneLine : '\n' ∉ line) :
    ∃ h', AtStart h' ∧
      total h (line ++ '\n' :: rest) = line.map .char ++ .lineEnd :: total h' rest := by
  induction line with
  | nil =>
      refine ⟨{ h with contentHandler := .startOfLine },
        ⟨inside.notFlowed, rfl, inside.noPrevious⟩, ?_⟩
      simp [contentChar, inside.handler, scanChar]
  | cons c line ih =>
      rw [List.mem_cons, not_or] at oneLine
      obtain ⟨h', start, later⟩ := ih oneLine.2
      refine ⟨h', start, ?_⟩
      rw [List.cons_append, total_cons]
      simp [contentChar, inside.handler, scanChar, Ne.symm oneLine.1, inside.notFlowed, later]

theorem Within.total_last (inside : Within h) (line : List Char) (oneLine : '\n' ∉ line) :
    total h line = line.map .char ++ [.lineEnd] := by
  induction line with
  | nil => simp [contentEnd, inside.handler]
  | cons c line ih =>
      rw [List.mem_cons, not_or] at oneLine
      have later := ih oneLine.2
      rw [total_cons]
      simp [contentChar, inside.handler, scanChar, Ne.symm oneLine.1, inside.notFlowed, later]

theorem AtStart.total_begin (start : AtStart h) (c : Char) (cs : List Char) :
    ∃ h', Within h' ∧ total h (c :: cs) = .lineBegin 0 :: total h' (c :: cs) := by
  let h' : Content :=
    { h with
      contentHandler := .scanContentLine
      quoteLevel := 0
      wasPreviousQuoteLevel := false
      hasPreviousQuoteLevel := false }
  have inside : Within h' := ⟨start.notFlowed, rfl, rfl⟩
  refine ⟨h', inside, ?_⟩
  rw [total_cons, total_cons]
  simp [contentChar, start.handler, countChar, countedChar, start.notFlowed, start.noPrevious, also,
    h', scanChar]

theorem AtStart.total_line (start : AtStart h) (line rest : List Char) (oneLine : '\n' ∉ line) :
    ∃ h', AtStart h' ∧ total h (line ++ '\n' :: rest) = lineEvents line ++ total h' rest := by
  obtain ⟨c, cs, text⟩ : ∃ c cs, line ++ '\n' :: rest = c :: cs := by
    cases line with
    | nil => exact ⟨_, _, rfl⟩
    | cons c line => exact ⟨_, _, rfl⟩
  obtain ⟨h', inside, begun⟩ := start.total_begin c cs
  rw [← text] at begun
  obtain ⟨h'', start'', scanned⟩ := inside.total_line line rest oneLine
  refine ⟨h'', start'', ?_⟩
  rw [begun, scanned, lineEvents]
  simp

theorem AtStart.total_last (start : AtStart h) (line : List Char) (oneLine : '\n' ∉ line) :
    total h line = (FlowedText.cutLine line).flatMap fun l => lineEvents l.1 := by
  cases line with
  | nil => simp [contentEnd, start.handler, start.noPrevious, FlowedText.cutLine]
  | cons c cs =>
      obtain ⟨h', inside, begun⟩ := start.total_begin c cs
      rw [begun, inside.total_last _ oneLine]
      simp [FlowedText.cutLine, lineEvents]

theorem AtStart.total_lines (start : AtStart h) (ls : List (List Char)) (last : List Char)
    (oneLine : ∀ l ∈ ls, '\n' ∉ l) (oneLine' : '\n' ∉ last) :
    total h (ls.flatMap (· ++ ['\n']) ++ last) =
      (splitLines (ls.flatMap (· ++ ['\n']) ++ last)).flatMap fun l => lineEvents l.1 := by
  rw [FlowedText.splitLines_lines ls last oneLine oneLine']
  induction ls generalizing h with
  | nil => exact start.total_last last oneLine'
  | cons l ls ih =>
      obtain ⟨h', start', first⟩ := start.total_line l (ls.flatMap (· ++ ['\n']) ++ last)
        (oneLine l (by simp))
      have later := ih start' fun l' mem => oneLine l' (List.mem_cons_of_mem _ mem)
      simp only [List.flatMap_cons, List.append_assoc, List.cons_append, List.nil_append,
        List.map_cons] at first later ⊢
      rw [first, later]

theorem AtStart.total_eq (start : AtStart h) (text : List Char) :
    total h text = (splitLines text).flatMap fun l => lineEvents l.1 := by
  obtain ⟨ls, last, oneLine, oneLine', lines⟩ := FlowedText.exists_lines text
  rw [lines]
  exact start.total_lines ls last oneLine oneLine'

theorem flatten_parse (pieces : List (List Char)) :
    ∃ calls, parse false false pieces = some calls ∧
      flatten calls = (physicalLines pieces).flatMap lineEvents := by
  have parsed := parse_eq_total false false pieces
  have start : AtStart (rfc3676parserInit false false).toContent := ⟨rfl, rfl, rfl⟩
  rw [start.total_eq] at parsed
  obtain ⟨calls, got, flat⟩ := Option.map_eq_some_iff.mp parsed
  refine ⟨calls, got, ?_⟩
  rw [flat, physicalLines, List.flatMap_map]

end Parsed

/-! ## The calls for one line -/

section OneLine
variable {L : Type} (b : Linebreak L) (w : Widths)

/-- The fields as `nonflowed_line_begin` sets them. -/
def lineStart : Nonflowed := ⟨[], [], lineTargetWidth 0, 0, 0, .initialNonflowedLine, []⟩

def lineRun (rs : List (Bool × Char)) : Nonflowed := rs.foldl (nonflowedLineProcess w) lineStart

def tellLine (line : List Char) : List Call :=
  .lineBegin 0 :: (nonflowedEnd (lineRun w (opportunities b line))).calls ++ [.lineEnd]

end OneLine

/-! ## What was reported before does not matter -/

section Before
variable (w : Widths) (h : Nonflowed) (before : List Call)

def later (h : Nonflowed) (before : List Call) : Nonflowed := { h with calls := before ++ h.calls }

theorem emit_later (c : Call) : emit (later h before) c = later (emit h c) before := by
  simp only [emit, later, List.append_assoc]

theorem later_ite (p : Prop) [Decidable p] (g : Nonflowed) :
    later (if p then h else g) before = if p then later h before else later g before := by
  split
  · rfl
  · rfl

theorem emitLineContents_later (uc : List Char) :
    emitLineContents (later h before) uc = later (emitLineContents h uc) before := by
  rw [emitLineContents, emitLineContents, emit_later, later_ite]

theorem appendWord_later : appendWord (later h before) = later (appendWord h) before := rfl

theorem appendChar_later (c : Char) (chWidth : Nat) :
    appendChar (later h before) c chWidth = later (appendChar h c chWidth) before := rfl

theorem checkAbnormalLine_later :
    checkAbnormalLine w (later h before) = later (checkAbnormalLine w h) before := by
  rw [checkAbnormalLine, checkAbnormalLine, later_ite]
  rfl

theorem emitRewrappedLine_later :
    emitRewrappedLine w (later h before) = later (emitRewrappedLine w h) before := by
  let g := checkAbnormalLine w h
  have emitted : emit (emitLineContents (later g before) g.line) .lineFlowedNotify =
      later (emit (emitLineContents g g.line) .lineFlowedNotify) before := by
    rw [emitLineContents_later, emit_later]
  rw [emitRewrappedLine, checkAbnormalLine_later]
  change { emit (emitLineContents (later g before) g.line) .lineFlowedNotify with
    line := [], lineWidth := 0 } = _
  rw [emitted]
  rfl

/-- `initial_nonflowed_line` with the character added. -/
def collected (h : Nonflowed) (r : Bool × Char) : Nonflowed :=
  appendChar
    (if r.1 ∧ h.lineWidth + h.nextWordWidth ≤ h.lineTargetWidth then appendWord h else h)
    r.2 (w.wcwidth r.2)

/-- `forced_rewrap_line` before its check for another excessively long line. -/
def opened (h : Nonflowed) (r : Bool × Char) : Nonflowed :=
  if r.1 then
    appendWord
      (if h.lineWidth + h.nextWordWidth > h.lineTargetWidth then emitRewrappedLine w h else h)
  else h

theorem collected_later (r : Bool × Char) :
    collected w (later h before) r = later (collected w h r) before := by
  rw [collected, collected, ← appendChar_later, later_ite, ← appendWord_later]
  rfl

theorem opened_later (r : Bool × Char) :
    opened w (later h before) r = later (opened w h r) before := by
  rw [opened, opened, later_ite, ← appendWord_later, later_ite, ← emitRewrappedLine_later]
  rfl

theorem initialNonflowedLine_eq (r : Bool × Char) :
    initialNonflowedLine w h r.1 r.2 (w.wcwidth r.2) =
      if (collected w h r).lineWidth + (collected w h r).nextWordWidth >
          (collected w h r).lineTargetWidth + NONFLOWED_THRESHOLD_EXCEEDED then
        beginForcedRewrap w (collected w h r)
      else collected w h r := rfl

theorem forcedRewrapLine_eq (r : Bool × Char) :
    forcedRewrapLine w h r.1 r.2 (w.wcwidth r.2) =
      appendChar
        (if (opened w h r).lineWidth = 0 ∧
            (opened w h r).nextWordWidth + w.wcwidth r.2 > (opened w h r).lineTargetWidth then
          emitRewrappedLine w (opened w h r)
        else opened w h r) r.2 (w.wcwidth r.2) := rfl

theorem nonflowedLineProcess_later (r : Bool × Char) :
    nonflowedLineProcess w (later h before) r = later (nonflowedLineProcess w h r) before := by
  have mode : (later h before).lineProcess = h.lineProcess := rfl
  rw [nonflowedLineProcess, nonflowedLineProcess, mode]
  cases h.lineProcess with
  | initialNonflowedLine =>
      simp only
      rw [initialNonflowedLine_eq, initialNonflowedLine_eq, collected_later, later_ite,
        beginForcedRewrap, beginForcedRewrap, ← emitRewrappedLine_later]
      rfl
  | forcedRewrapLine =>
      simp only
      rw [forcedRewrapLine_eq, forcedRewrapLine_eq, opened_later, ← appendChar_later, later_ite,
        ← emitRewrappedLine_later]
      rfl

theorem foldl_later (rs : List (Bool × Char)) :
    rs.foldl (nonflowedLineProcess w) (later h before) =
      later (rs.foldl (nonflowedLineProcess w) h) before := by
  induction rs generalizing h with
  | nil => rfl
  | cons r rs ih => rw [List.foldl_cons, List.foldl_cons, nonflowedLineProcess_later, ih]

theorem nonflowedEnd_later : nonflowedEnd (later h before) = later (nonflowedEnd h) before := by
  rw [nonflowedEnd, nonflowedEnd, ← emitLineContents_later, ← emitLineContents_later]
  rfl

end Before

section Text
variable {L : Type} (b : Linebreak L) (w : Widths)

theorem lbcEnd_foldl (line : List Char) (lb : L) (n : Nonflowed) :
    lbcEnd b w (line.foldl (lbcNext b w) ⟨some lb, n⟩) =
      ⟨none, (opportunitiesFrom b lb line).foldl (nonflowedLineProcess w) n⟩ := by
  induction line generalizing lb n with
  | nil => rfl
  | cons c line ih =>
      rw [List.foldl_cons, opportunitiesFrom, List.foldl_append, ← ih]
      rfl

theorem hear_tellLine (line : List Char) (n : Nonflowed) :
    ∃ n', (lineEvents line).foldl (hear b w) ⟨none, n⟩ = ⟨none, n'⟩ ∧
      n'.calls = n.calls ++ tellLine b w line := by
  refine ⟨emit (nonflowedEnd ((opportunities b line).foldl (nonflowedLineProcess w)
    (later lineStart (n.calls ++ [.lineBegin 0])))) .lineEnd, ?_, ?_⟩
  · have begun : emit ⟨[], [], lineTargetWidth 0, 0, 0, .initialNonflowedLine, n.calls⟩
        (.lineBegin 0) = later lineStart (n.calls ++ [.lineBegin 0]) := by
      simp [emit, later, lineStart]
    rw [lineEvents, List.foldl_append]
    change nonflowedLineEnd b w ((line.map Event.char).foldl (hear b w)
      ⟨some b.init, emit ⟨[], [], lineTargetWidth 0, 0, 0, .initialNonflowedLine, n.calls⟩
        (.lineBegin 0)⟩) = _
    rw [begun, foldl_hear_chars, nonflowedLineEnd, lbcEnd_foldl]
    rfl
  · rw [foldl_later, nonflowedEnd_later, tellLine]
    simp [emit, later, lineRun]

theorem hear_tellLines (lines : List (List Char)) (n : Nonflowed) :
    ∃ n', (lines.flatMap lineEvents).foldl (hear b w) ⟨none, n⟩ = ⟨none, n'⟩ ∧
      n'.calls = n.calls ++ lines.flatMap (tellLine b w) := by
  induction lines generalizing n with
  | nil => exact ⟨n, rfl, by simp⟩
  | cons line lines ih =>
      obtain ⟨n', first, calls⟩ := hear_tellLine b w line n
      obtain ⟨n'', rest, calls'⟩ := ih n'
      refine ⟨n'', ?_, ?_⟩
      · rw [List.flatMap_cons, List.foldl_append, first, rest]
      · rw [calls', calls, List.flatMap_cons, List.append_assoc]

theorem parseNonflowed_eq (pieces : List (List Char)) :
    parseNonflowed b w pieces = some ((physicalLines pieces).flatMap (tellLine b w)) := by
  obtain ⟨calls, parsed, flat⟩ := flatten_parse pieces
  obtain ⟨n, heard, told⟩ := hear_tellLines b w (physicalLines pieces)
    ⟨[], [], 0, 0, 0, .initialNonflowedLine, []⟩
  rw [parseNonflowed, parsed, Option.map_some, foldl_handle, flat, cleared, heard,
    Option.some.injEq]
  exact told

end Text

/-! ## What one line comes to -/

section Rewrap
variable (w : Widths) {done : List Char} {h : Nonflowed}

@[simp] theorem contentOf_append (calls calls' : List Call) :
    contentOf (calls ++ calls') = contentOf calls ++ contentOf calls' := List.flatMap_append

@[simp] theorem width_append (uc uc' : List Char) :
    width w (uc ++ uc') = width w uc + width w uc' := by
  rw [width, List.map_append, List.sum_append]
  rfl

def Kept (done : List Char) (h : Nonflowed) : Prop :=
  (∀ c ∈ h.calls, Inner c) ∧ contentOf h.calls ++ h.line ++ h.nextWord = done

theorem emitLineContents_calls (h : Nonflowed) (uc : List Char) :
    ∃ more, (emitLineContents h uc).calls = h.calls ++ more ∧ (∀ c ∈ more, Inner c) ∧
      contentOf more = uc ∧ .lineFlowedNotify ∉ more := by
  by_cases empty : uc = []
  · refine ⟨[], ?_, by simp, by simp [empty, contentOf], by simp⟩
    rw [emitLineContents, if_pos empty, List.append_nil]
  · refine ⟨[.lineContents uc], ?_, by simp [Inner], by simp [contentOf], by simp⟩
    rw [emitLineContents, if_neg empty]
    rfl

theorem emitLineContents_line (h : Nonflowed) (uc : List Char) :
    (emitLineContents h uc).line = h.line ∧ (emitLineContents h uc).nextWord = h.nextWord := by
  by_cases empty : uc = []
  · rw [emitLineContents, if_pos empty]
    exact ⟨rfl, rfl⟩
  · rw [emitLineContents, if_neg empty]
    exact ⟨rfl, rfl⟩

theorem Kept.appendWord (kept : Kept done h) : Kept done (appendWord h) := by
  obtain ⟨isInner, chars⟩ := kept
  refine ⟨isInner, ?_⟩
  simp only [Rfc3676Nonflowed.appendWord, List.append_nil]
  rw [← List.append_assoc, chars]

theorem Kept.appendChar (kept : Kept done h) (c : Char) (chWidth : Nat) :
    Kept (done ++ [c]) (appendChar h c chWidth) := by
  obtain ⟨isInner, chars⟩ := kept
  refine ⟨isInner, ?_⟩
  simp only [Rfc3676Nonflowed.appendChar]
  rw [← List.append_assoc, chars]

theorem Kept.checkAbnormalLine (kept : Kept done h) : Kept done (checkAbnormalLine w h) := by
  obtain ⟨isInner, chars⟩ := kept
  by_cases filled : h.line ≠ []
  · rw [Rfc3676Nonflowed.checkAbnormalLine, if_pos filled]
    exact ⟨isInner, chars⟩
  · rw [Rfc3676Nonflowed.checkAbnormalLine, if_neg filled]
    refine ⟨isInner, ?_⟩
    simp only
    rw [← List.append_assoc, List.append_assoc _ (List.take _ _), List.take_append_drop, chars]

theorem Kept.emitRewrappedLine (kept : Kept done h) : Kept done (emitRewrappedLine w h) := by
  obtain ⟨isInner, chars⟩ := kept.checkAbnormalLine w
  let h' := Rfc3676Nonflowed.checkAbnormalLine w h
  obtain ⟨more, calls', isInner', chars', -⟩ := emitLineContents_calls h' h'.line
  have emitted : (Rfc3676Nonflowed.emitRewrappedLine w h).calls =
      h'.calls ++ more ++ [.lineFlowedNotify] := congrArg (· ++ [Call.lineFlowedNotify]) calls'
  refine ⟨fun c mem => ?_, ?_⟩
  · rw [emitted, List.mem_append, List.mem_append] at mem
    rcases mem with (mem | mem) | mem
    · exact isInner c mem
    · exact isInner' c mem
    · rw [List.mem_singleton.mp mem]
      trivial
  · have word : (Rfc3676Nonflowed.emitRewrappedLine w h).nextWord = h'.nextWord :=
      (emitLineContents_line h' h'.line).2
    have line : (Rfc3676Nonflowed.emitRewrappedLine w h).line = [] := rfl
    rw [emitted, word, line, ← chars, contentOf_append, contentOf_append, chars']
    simp [contentOf, h']

theorem checkAbnormalLine_frame (h : Nonflowed) :
    (checkAbnormalLine w h).lineProcess = h.lineProcess ∧
      (checkAbnormalLine w h).lineTargetWidth = h.lineTargetWidth := by
  by_cases filled : h.line ≠ []
  · rw [checkAbnormalLine, if_pos filled]
    exact ⟨rfl, rfl⟩
  · rw [checkAbnormalLine, if_neg filled]
    exact ⟨rfl, rfl⟩

theorem emitRewrappedLine_frame (h : Nonflowed) :
    (emitRewrappedLine w h).lineProcess = h.lineProcess ∧
      (emitRewrappedLine w h).lineTargetWidth = h.lineTargetWidth := by
  have frame := checkAbnormalLine_frame w h
  rw [emitRewrappedLine]
  by_cases empty : (checkAbnormalLine w h).line = []
  · simp only [emit, emitLineContents, if_pos empty]
    exact frame
  · simp only [emit, emitLineContents, if_neg empty]
    exact frame

/-- As long as the line has not got too wide nothing is reported of it. -/
def Unwrapped (done : List Char) (h : Nonflowed) : Prop :=
  match h.lineProcess with
  | .initialNonflowedLine => h.calls = [] ∧ h.lineWidth + h.nextWordWidth = width w done
  | .forcedRewrapLine => lineTargetWidth 0 + NONFLOWED_THRESHOLD_EXCEEDED < width w done

structure Told (done : List Char) (h : Nonflowed) : Prop where
  kept : Kept done h
  target : h.lineTargetWidth = lineTargetWidth 0
  unwrapped : Unwrapped w done h

theorem Told.initialNonflowedLine (told : Told w done h)
    (mode : h.lineProcess = .initialNonflowedLine) (r : Bool × Char) :
    Told w (done ++ [r.2]) (initialNonflowedLine w h r.1 r.2 (w.wcwidth r.2)) := by
  obtain ⟨kept, target, unwrapped⟩ := told
  rw [Unwrapped, mode] at unwrapped
  have collects : Kept (done ++ [r.2]) (collected w h r) ∧
      (collected w h r).lineTargetWidth = lineTargetWidth 0 ∧
      (collected w h r).lineProcess = .initialNonflowedLine ∧ (collected w h r).calls = [] ∧
      (collected w h r).lineWidth + (collected w h r).nextWordWidth = width w (done ++ [r.2]) := by
    rw [collected, width_append, ← unwrapped.2]
    by_cases fits : r.1 ∧ h.lineWidth + h.nextWordWidth ≤ h.lineTargetWidth
    · rw [if_pos fits]
      refine ⟨kept.appendWord.appendChar r.2 _, target, mode, unwrapped.1, ?_⟩
      simp [appendChar, appendWord, width]
    · rw [if_neg fits]
      refine ⟨kept.appendChar r.2 _, target, mode, unwrapped.1, ?_⟩
      simp [appendChar, width, Nat.add_assoc]
  obtain ⟨kept', target', mode', calls, sum⟩ := collects
  rw [initialNonflowedLine_eq]
  by_cases wide : (collected w h r).lineWidth + (collected w h r).nextWordWidth >
      (collected w h r).lineTargetWidth + NONFLOWED_THRESHOLD_EXCEEDED
  · rw [if_pos wide, beginForcedRewrap]
    have kept'' : Kept (done ++ [r.2]) { collected w h r with lineProcess := .forcedRewrapLine } :=
      kept'
    have frame := emitRewrappedLine_frame w
      { collected w h r with lineProcess := .forcedRewrapLine }
    refine ⟨kept''.emitRewrappedLine w, frame.2.trans target', ?_⟩
    rw [sum, target'] at wide
    rw [Unwrapped, frame.1]
    exact wide
  · rw [if_neg wide]
    refine ⟨kept', target', ?_⟩
    rw [Unwrapped, mode']
    exact ⟨calls, sum⟩

theorem Told.forcedRewrapLine (told : Told w done h)
    (mode : h.lineProcess = .forcedRewrapLine) (r : Bool × Char) :
    Told w (done ++ [r.2]) (forcedRewrapLine w h r.1 r.2 (w.wcwidth r.2)) := by
  obtain ⟨kept, target, unwrapped⟩ := told
  rw [Unwrapped, mode] at unwrapped
  -- Every step of it leaves these three as they are.
  let Same (g : Nonflowed) : Prop :=
    Kept done g ∧ g.lineTargetWidth = lineTargetWidth 0 ∧ g.lineProcess = .forcedRewrapLine
  have emittedIf : ∀ (p : Prop) [Decidable p] g, Same g →
      Same (if p then emitRewrappedLine w g else g) := by
    rintro p _ g ⟨kept, target, mode⟩
    have frame := emitRewrappedLine_frame w g
    split
    · exact ⟨kept.emitRewrappedLine w, frame.2.trans target, frame.1.trans mode⟩
    · exact ⟨kept, target, mode⟩
  have opens : Same (opened w h r) := by
    rw [opened]
    by_cases opportunity : r.1 = true
    · rw [if_pos opportunity]
      obtain ⟨kept', target', mode'⟩ := emittedIf (h.lineWidth + h.nextWordWidth >
        h.lineTargetWidth) h ⟨kept, target, mode⟩
      exact ⟨kept'.appendWord, target', mode'⟩
    · rw [if_neg opportunity]
      exact ⟨kept, target, mode⟩
  obtain ⟨kept', target', mode'⟩ := emittedIf ((opened w h r).lineWidth = 0 ∧
    (opened w h r).nextWordWidth + w.wcwidth r.2 > (opened w h r).lineTargetWidth) _ opens
  rw [forcedRewrapLine_eq]
  refine ⟨kept'.appendChar r.2 _, target', ?_⟩
  have mode'' : (appendChar (if (opened w h r).lineWidth = 0 ∧
      (opened w h r).nextWordWidth + w.wcwidth r.2 > (opened w h r).lineTargetWidth then
        emitRewrappedLine w (opened w h r) else opened w h r) r.2 (w.wcwidth r.2)).lineProcess =
      .forcedRewrapLine := mode'
  rw [Unwrapped, mode'', width_append]
  exact Nat.lt_add_right _ unwrapped

theorem Told.nonflowedLineProcess (told : Told w done h) (r : Bool × Char) :
    Told w (done ++ [r.2]) (nonflowedLineProcess w h r) := by
  rw [Rfc3676Nonflowed.nonflowedLineProcess]
  cases mode : h.lineProcess with
  | initialNonflowedLine => exact told.initialNonflowedLine w mode r
  | forcedRewrapLine => exact told.forcedRewrapLine w mode r

theorem Told.foldl (told : Told w done h) (rs : List (Bool × Char)) :
    Told w (done ++ rs.map Prod.snd)
      (rs.foldl (Rfc3676Nonflowed.nonflowedLineProcess w) h) := by
  induction rs generalizing done h with
  | nil => simpa using told
  | cons r rs ih =>
      have later := ih (told.nonflowedLineProcess w r)
      rw [List.append_assoc] at later
      exact later

theorem Told.reports {line : List Char} (told : Told w line h) :
    Reports w line (.lineBegin 0 :: (nonflowedEnd h).calls ++ [.lineEnd]) := by
  obtain ⟨⟨isInner, chars⟩, -, unwrapped⟩ := told
  obtain ⟨more, calls', isInner', chars', quiet⟩ := emitLineContents_calls h h.line
  obtain ⟨rest, calls'', isInner'', chars'', quiet'⟩ :=
    emitLineContents_calls (emitLineContents h h.line) h.nextWord
  have calls : (nonflowedEnd h).calls = h.calls ++ more ++ rest := by
    rw [nonflowedEnd, calls'', calls']
  refine ⟨(nonflowedEnd h).calls, rfl, fun c mem => ?_, ?_, fun narrow mem => ?_⟩
  · rw [calls, List.mem_append, List.mem_append] at mem
    rcases mem with (mem | mem) | mem
    · exact isInner c mem
    · exact isInner' c mem
    · exact isInner'' c mem
  · rw [calls, contentOf_append, contentOf_append, chars', chars'', chars]
  · rw [Unwrapped] at unwrapped
    cases mode : h.lineProcess with
    | initialNonflowedLine =>
        rw [mode] at unwrapped
        rw [calls, unwrapped.1, List.nil_append] at mem
        rcases List.mem_append.mp mem with mem | mem
        · exact quiet mem
        · exact quiet' mem
    | forcedRewrapLine =>
        rw [mode] at unwrapped
        exact Nat.not_lt.mpr narrow unwrapped

end Rewrap

/-! ## The whole text -/

section Whole
variable {L : Type} (b : Linebreak L) (w : Widths)

theorem tellLine_reports (faithful : b.Faithful) (line : List Char) :
    Reports w line (tellLine b w line) := by
  have start : Told w [] lineStart := ⟨⟨by simp [lineStart], rfl⟩, rfl, ⟨rfl, rfl⟩⟩
  have told := start.foldl w (opportunities b line)
  rw [faithful line, List.nil_append] at told
  exact told.reports w

/-- Breaks before a letter that follows a space, and calls back at once. -/
def afterSpace : Linebreak Bool where
  init := false
  next spaced ch := (ch = ' ', [(spaced && ch ≠ ' ', ch)])
  finish _ := []

theorem afterSpace_faithful : afterSpace.Faithful := by
  have from' : ∀ line lb, (opportunitiesFrom afterSpace lb line).map Prod.snd = line := by
    intro line
    induction line with
    | nil => intro lb; rfl
    | cons c line ih =>
        intro lb
        rw [opportunitiesFrom, List.map_append, ih]
        rfl
  exact fun line => from' line false

def oneColumn : Widths := ⟨fun _ => 1, fun _ _ => true⟩

end Whole

end Cone.Rfc3676Nonflowed
