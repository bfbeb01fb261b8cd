import Cone.Rfc2045Reply
import Cone.Rfc3676Lines

/-! # What a reply to a flowed text looks like

Every physical line of the reply comes from one physical line of the source: its quote marks
and one more, its text stuffed with a space, and a space at its end when the next line joins
it.  Spaces at the end of a logical line are gone. -/
set_option autoImplicit false
namespace Cone.ReplyLines

open Cone.Lib.Runs Cone.Lib.Trim Cone.FlowedText Cone.Rfc2045Reply Cone.Rfc3676Parser Cone.Rfc3676Peel
open Cone.Rfc3676Lines

section Contents
variable (s : ReplyInfo)

abbrev spaces (n : Nat) : List Char := List.replicate n ' '

def addText (txt : List Char) (s : ReplyInfo) : ReplyInfo :=
  { s with
    written := s.written ++ trim ' ' (spaces s.trailingSpaces ++ txt)
    trailingSpaces := trail ' ' (spaces s.trailingSpaces ++ txt) }

def startText (c : Char) (s : ReplyInfo) : ReplyInfo :=
  if s.startLine then { (if stuffs s c then convertUc [' '] s else s) with startLine := false } else s

theorem replyContents_cons (c : Char) (txt : List Char) :
    replyContents (c :: txt) s = addText (c :: txt) (startText c s) := by
  have shorter : (trim ' ' (c :: txt)).length ≤ (c :: txt).length :=
    (List.rdropWhile_prefix _ _).length_le
  rw [replyContents]
  by_cases all : trim ' ' (c :: txt) = []
  · simp only [all, ne_eq, not_true, if_false, addText, trail, trim_append_of_nil ' ' _ all]
    have none : trim ' ' (spaces (startText c s).trailingSpaces) = [] := by
      rw [trim_eq_nil_iff]
      intro b hb
      exact (List.mem_replicate.mp hb).2
    rw [none]
    simp [startText]
  · simp only [ne_eq, all, not_false_eq_true, if_true, addText, trail, trim_append_of_ne ' ' _ all]
    simp only [flushSpaces, convertUc, startText, List.length_append, List.length_replicate,
      List.append_assoc, Nat.zero_add, Nat.add_sub_add_left]

theorem addText_addText (x y : List Char) : addText y (addText x s) = addText (x ++ y) s := by
  have whole := trim_append_trail ' ' (spaces s.trailingSpaces ++ x)
  have split : spaces s.trailingSpaces ++ (x ++ y) =
      trim ' ' (spaces s.trailingSpaces ++ x) ++
        (spaces (trail ' ' (spaces s.trailingSpaces ++ x)) ++ y) := by
    rw [← List.append_assoc, ← List.append_assoc, whole]
  simp only [addText, split, trim_trim_append, trail_trim_append, List.append_assoc]

theorem startText_addText (c : Char) (txt : List Char) (started : s.startLine = false) :
    startText c (addText txt s) = addText txt s := by
  simp [startText, addText, started]

theorem startText_started (c : Char) : (startText c s).startLine = false := by
  unfold startText
  cases hs : s.startLine with
  | false => simp [hs]
  | true => simp

theorem replyContents_append (x y : List Char) :
    replyContents (x ++ y) s = replyContents y (replyContents x s) := by
  cases x with
  | nil => rfl
  | cons c x =>
      cases y with
      | nil => simp [replyContents]
      | cons d y =>
          rw [List.cons_append, replyContents_cons, replyContents_cons, replyContents_cons,
            startText_addText _ _ _ (startText_started s c), addText_addText]
          rfl

def onEvent : Event → ReplyInfo → ReplyInfo
  | .lineBegin quoteLevel => replyBegin quoteLevel
  | .char c => replyContents [c]
  | .flowed => replyWrap
  | .lineEnd => replyEnd

def onEvents (events : List Event) (s : ReplyInfo) : ReplyInfo :=
  events.foldl (fun s event => onEvent event s) s

theorem onEvents_append (es es' : List Event) :
    onEvents (es ++ es') s = onEvents es' (onEvents es s) := List.foldl_append

@[simp] theorem onEvents_nil : onEvents [] s = s := rfl

@[simp] theorem onEvents_cons (e : Event) (es : List Event) :
    onEvents (e :: es) s = onEvents es (onEvent e s) := rfl

theorem onEvents_chars (txt : List Char) : onEvents (txt.map .char) s = replyContents txt s := by
  induction txt generalizing s with
  | nil => rfl
  | cons c txt ih =>
      have split := replyContents_append s [c] txt
      rw [List.singleton_append] at split
      rw [List.map_cons, onEvents_cons, ih, split]
      rfl

/-- The cuts of the contents do not matter to the reply. -/
theorem foldl_callback (calls : List Call) :
    calls.foldl (fun s call => callback call s) s = onEvents (flatten calls) s := by
  induction calls generalizing s with
  | nil => rfl
  | cons call calls ih =>
      rw [List.foldl_cons, ih, flatten_cons, onEvents_append]
      congr 1
      cases call with
      | lineBegin quoteLevel => rfl
      | lineContents uc => exact (onEvents_chars s uc).symm
      | lineFlowedNotify => rfl
      | lineEnd => rfl

end Contents

section Written

def lineState (base : List Char) (quoteLevel : Nat) (seg : List Char) : ReplyInfo where
  quoteLevel := quoteLevel + 1
  quoteLevelAdjust := 1
  isflowed := true
  startLine := seg = []
  trailingSpaces := trail ' ' seg
  written := base ++ (List.replicate (quoteLevel + 1) '>' ++
    if seg = [] then [] else ' ' :: trim ' ' seg)

def wrappedLine (quoteLevel : Nat) (seg : List Char) : List Char :=
  List.replicate (quoteLevel + 1) '>' ++ (if seg = [] then [] else ' ' :: seg) ++ [' ']

def lastLine (quoteLevel : Nat) (seg : List Char) : List Char :=
  List.replicate (quoteLevel + 1) '>' ++ (if seg = [] then [] else ' ' :: trim ' ' seg)

def replyLines (quoteLevel : Nat) : List (List Char) → List (List Char) :=
  mapLast (wrappedLine quoteLevel) (lastLine quoteLevel)

def unlines (lines : List (List Char)) : List Char := lines.flatMap (· ++ ['\n'])

variable (base : List Char) (quoteLevel : Nat) (seg : List Char)

theorem replyContents_lineState :
    replyContents seg (lineState base quoteLevel []) = lineState base quoteLevel seg := by
  cases seg with
  | nil => rfl
  | cons c txt =>
      rw [replyContents_cons]
      simp [lineState, startText, stuffs, addText, convertUc, trail]

theorem replyBegin_lineState (s : ReplyInfo) (adjust : s.quoteLevelAdjust = 1)
    (flowed : s.isflowed = true) :
    replyBegin quoteLevel s = lineState s.written quoteLevel [] := by
  simp [replyBegin, lineState, convertUc, adjust, flowed, trail]

theorem replyWrap_lineState :
    replyWrap (lineState base quoteLevel seg) =
      lineState (base ++ wrappedLine quoteLevel seg ++ ['\n']) quoteLevel [] := by
  have begins := replyBegin_lineState quoteLevel
    (replyEnd (convertUc [' '] (flushSpaces (lineState base quoteLevel seg)))) rfl rfl
  have out : (replyEnd (convertUc [' '] (flushSpaces (lineState base quoteLevel seg)))).written =
      base ++ wrappedLine quoteLevel seg ++ ['\n'] := by
    by_cases empty : seg = []
    · simp [replyEnd, convertUc, flushSpaces, lineState, wrappedLine, empty, trail]
    · have whole := trim_append_trail ' ' seg
      simp only [replyEnd, convertUc, flushSpaces, lineState, wrappedLine, if_neg empty]
      conv_rhs => rw [← whole]
      simp
  rw [out] at begins
  exact begins

theorem replyEnd_lineState :
    (replyEnd (lineState base quoteLevel seg)).written = base ++ lastLine quoteLevel seg ++ ['\n'] := by
  simp [replyEnd, lineState, convertUc, lastLine]

structure Written (s : ReplyInfo) (text : List Char) : Prop where
  text : s.written = text
  adjust : s.quoteLevelAdjust = 1
  flowed : s.isflowed = true

theorem onEvents_logicalLine (r : Rules) (ls : List Line) :
    Written (onEvents (ls.flatMap (fun m => .flowed :: r.chars m) ++ [.lineEnd])
        (lineState base quoteLevel seg))
      (base ++ unlines (replyLines quoteLevel (seg :: ls.map r.text))) := by
  induction ls generalizing base seg with
  | nil =>
      have ends := replyEnd_lineState base quoteLevel seg
      simp only [List.flatMap_nil, List.nil_append, onEvents_cons, onEvents_nil, onEvent]
      refine ⟨?_, rfl, rfl⟩
      rw [ends]
      simp [replyLines, mapLast, unlines]
  | cons m ms ih =>
      have rest := ih (base ++ wrappedLine quoteLevel seg ++ ['\n']) (r.text m)
      have split : onEvents ((m :: ms).flatMap (fun m => .flowed :: r.chars m) ++ [.lineEnd])
          (lineState base quoteLevel seg) =
          onEvents (ms.flatMap (fun m => .flowed :: r.chars m) ++ [.lineEnd])
            (lineState (base ++ wrappedLine quoteLevel seg ++ ['\n']) quoteLevel (r.text m)) := by
        have shape : (m :: ms).flatMap (fun m => .flowed :: r.chars m) ++ [.lineEnd] =
            .flowed :: ((r.text m).map .char ++
              (ms.flatMap (fun m => .flowed :: r.chars m) ++ [.lineEnd])) := by
          simp [Rules.chars]
        rw [shape, onEvents_cons, onEvents_append, onEvents_chars]
        simp only [onEvent, replyWrap_lineState, replyContents_lineState]
      rw [split]
      obtain ⟨written, adjust, flowed⟩ := rest
      refine ⟨?_, adjust, flowed⟩
      rw [written]
      simp [replyLines, mapLast, unlines]

def replyTo (r : Rules) : List Line → List (List Char)
  | [] => []
  | l :: ls => replyLines l.quoteLevel ((l :: ls).map r.text)

theorem onEvents_logicalLines (r : Rules) (gs : List (List Line)) (s : ReplyInfo)
    (adjust : s.quoteLevelAdjust = 1) (flowed : s.isflowed = true) :
    (onEvents (gs.flatMap r.logicalLineEvents) s).written =
      s.written ++ unlines (gs.flatMap (replyTo r)) := by
  induction gs generalizing s with
  | nil => simp [unlines]
  | cons g gs ih =>
      rw [List.flatMap_cons, onEvents_append, List.flatMap_cons, unlines, List.flatMap_append]
      cases g with
      | nil =>
          have rest := ih s adjust flowed
          simpa [Rules.logicalLineEvents, replyTo, unlines] using rest
      | cons l ls =>
          have first := onEvents_logicalLine s.written l.quoteLevel (r.text l) r ls
          have begins : onEvents (r.logicalLineEvents (l :: ls)) s =
              onEvents (ls.flatMap (fun m => .flowed :: r.chars m) ++ [.lineEnd])
                (lineState s.written l.quoteLevel (r.text l)) := by
            have shape : r.logicalLineEvents (l :: ls) =
                .lineBegin l.quoteLevel :: ((r.text l).map .char ++
                  (ls.flatMap (fun m => .flowed :: r.chars m) ++ [.lineEnd])) := by
              simp [Rules.logicalLineEvents, Rules.chars]
            rw [shape, onEvents_cons, onEvents_append, onEvents_chars, onEvent,
              replyBegin_lineState l.quoteLevel s adjust flowed, replyContents_lineState]
          rw [begins, ih _ first.adjust first.flowed, first.text]
          simp [replyTo, unlines]

theorem reformat_eq (delsp : Bool) (pieces : List (List Char)) :
    reformat true delsp 1 pieces =
      some (unlines (((asParsed delsp).logicalLines (physicalLines pieces.flatten)).flatMap
        (replyTo (asParsed delsp)))) := by
  have told := parse_eq delsp pieces
  rw [reformat]
  cases calls : parse true delsp pieces with
  | none => simp [calls] at told
  | some calls' =>
      rw [calls] at told
      have events : flatten calls' = reading (asParsed delsp) pieces.flatten := by
        simpa using told
      rw [Option.map_some, foldl_callback, events, reading, Rules.events,
        onEvents_logicalLines _ _ _ rfl rfl]
      rfl

end Written

end Cone.ReplyLines
