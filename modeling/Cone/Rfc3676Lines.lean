import Cone.Rfc3676Peel

/-! # The flowed text parser, line by line

`total` is all that a text makes the parser report.  It is followed here from the start of one
line to the start of the next, and to the end of a text that has no last newline. -/
set_option autoImplicit false
namespace Cone.Rfc3676Lines

open Cone.Lib.PushParser Cone.Rfc3676Parser Cone.Rfc3676Peel
open Cone.FlowedText

section EndOfText
variable (h : Content)

def notSignatureEnd : List Event :=
  (if h.wasPreviousQuoteLevel then [.flowed] else []) ++ (sigBlock.take h.sigBlockIndex).map .char ++
    [.lineEnd]

def countedEnd : List Event :=
  let joins := h.hasPreviousQuoteLevel && h.quoteLevel == h.previousQuoteLevel
  (if joins then []
    else (if h.hasPreviousQuoteLevel then [.lineEnd] else []) ++ [.lineBegin h.quoteLevel]) ++
  (if joins && h.isflowed then [.flowed] else []) ++ [.lineEnd]

def contentEnd : List Event :=
  match h.contentHandler with
  | .startOfLine => if h.hasPreviousQuoteLevel then [.lineEnd] else []
  | .countQuoteLevel => countedEnd h
  | .countedQuoteLevel => countedEnd h
  | .startContentLine => notSignatureEnd { h with sigBlockIndex := 0 }
  | .checkSignatureBlock => notSignatureEnd h
  | .seenSigBlock =>
    (if h.wasPreviousQuoteLevel then [.lineEnd, .lineBegin h.quoteLevel] else []) ++
      [.char '-', .char '-', .char ' ', .lineEnd]
  | .scanContentLine => [.lineEnd]
  | .seenContentSp => [.char ' ', .lineEnd]

theorem seenNotsigBlock_end :
    flat (seenNotsigBlock h none) =
      some (0, { h with contentHandler := .startOfLine }, notSignatureEnd h) := by
  rw [flat_seenNotsigBlock]
  by_cases sp : h.isflowed ∧ 3 ≤ h.sigBlockIndex
  · have withheld : sigBlock.take h.sigBlockIndex = sigBlock :=
      List.take_of_length_le (by simpa [sigBlock] using sp.2)
    rw [if_pos sp]
    simp [notSignatureEnd, withheld, seenContentSp, scanContentLine, deref, oneIf, callEvents]
    simp [sigBlock]
  · rw [if_neg sp]
    simp [notSignatureEnd, scanContentLine, deref, oneIf, callEvents]

theorem countedQuoteLevel_end :
    ∃ h', flat (countedQuoteLevel h none) = some (0, h', countedEnd h) := by
  cases fl : h.isflowed with
  | false =>
      refine ⟨{ h with
        contentHandler := .startOfLine
        wasPreviousQuoteLevel := h.hasPreviousQuoteLevel && h.quoteLevel == h.previousQuoteLevel
        hasPreviousQuoteLevel := false }, ?_⟩
      simp [countedQuoteLevel, countedEnd, fl, scanContentLine, deref, oneIf, callEvents]
  | true =>
      refine ⟨{ h with
        contentHandler := .startOfLine
        sigBlockIndex := 0
        wasPreviousQuoteLevel := h.hasPreviousQuoteLevel && h.quoteLevel == h.previousQuoteLevel
        hasPreviousQuoteLevel := false }, ?_⟩
      simp [countedQuoteLevel, countedEnd, fl, startContentLine, checkSignatureBlock, deref,
        seenNotsigBlock_end, notSignatureEnd, callEvents]

theorem content_end : ∃ n h', flat (content h none) = some (n, h', contentEnd h) := by
  unfold contentEnd
  cases handler : h.contentHandler with
  | startOfLine =>
      refine ⟨0, h, ?_⟩
      simp [content, handler, startOfLine, callEvents]
  | countQuoteLevel =>
      obtain ⟨h', counted⟩ := countedQuoteLevel_end { h with contentHandler := .countedQuoteLevel }
      refine ⟨0, h', ?_⟩
      simp only [content, handler, countQuoteLevel]
      exact counted
  | countedQuoteLevel =>
      obtain ⟨h', counted⟩ := countedQuoteLevel_end h
      refine ⟨0, h', ?_⟩
      simp only [content, handler]
      exact counted
  | startContentLine =>
      refine ⟨0, { h with contentHandler := .startOfLine, sigBlockIndex := 0 }, ?_⟩
      simp [content, handler, startContentLine, checkSignatureBlock, deref, seenNotsigBlock_end,
        notSignatureEnd]
  | checkSignatureBlock =>
      refine ⟨0, { h with contentHandler := .startOfLine }, ?_⟩
      simp [content, handler, checkSignatureBlock, seenNotsigBlock_end]
  | seenSigBlock =>
      refine ⟨0, { h with wasPreviousQuoteLevel := false, contentHandler := .startOfLine }, ?_⟩
      simp [content, handler, seenSigBlock, oneIf, callEvents, sigBlock]
  | scanContentLine =>
      refine ⟨0, { h with contentHandler := .startOfLine }, ?_⟩
      simp [content, handler, scanContentLine, deref, oneIf, callEvents]
  | seenContentSp =>
      refine ⟨0, { h with contentHandler := .startOfLine }, ?_⟩
      simp [content, handler, seenContentSp, scanContentLine, deref, oneIf, callEvents]

def total (h : Content) (text : List Char) : List Event :=
  (run contentChar h text).2 ++ contentEnd (run contentChar h text).1

@[simp] theorem total_nil : total h [] = contentEnd h := by
  simp [total]

@[simp] theorem total_cons (c : Char) (cs : List Char) :
    total h (c :: cs) = (contentChar h c).2 ++ total (contentChar h c).1 cs := by
  simp [total]

end EndOfText

section WholeText
variable (h : Parser)

def lineEnd : List Event :=
  match h.lineHandler with
  | .scanCrlf => contentEnd h.toContent
  | .scanCrlfSeenCr => total h.toContent ['\r']

theorem scanCrlf_end :
    ∃ n h', flat (scanCrlf h none) = some (n, h', contentEnd h.toContent) := by
  obtain ⟨n, h', ends⟩ := content_end h.toContent
  cases got : content h.toContent none with
  | none =>
      rw [got] at ends
      cases ends
  | some r =>
      rw [got] at ends
      have same := Option.some.inj ends
      simp only [Prod.mk.injEq] at same
      refine ⟨0, { h with toContent := r.2.1 }, ?_⟩
      simp [scanCrlf, got, same]

theorem rfc3676parserDeinit_end : (rfc3676parserDeinit h).map flatten = some (lineEnd h) := by
  have ends : ∃ n h', flat (line h none) = some (n, h', lineEnd h) := by
    unfold lineEnd
    cases handler : h.lineHandler with
    | scanCrlf =>
        simp only [line, handler]
        exact scanCrlf_end h
    | scanCrlfSeenCr =>
        have fed := contents_eq_run { h with lineHandler := .scanCrlf } ['\r']
        simp only [line, handler, scanCrlfSeenCr, deref, Option.bind_none]
        cases got : contents { h with lineHandler := .scanCrlf } ['\r'] with
        | none =>
            rw [got] at fed
            cases fed
        | some r =>
            rw [got] at fed
            have same := Option.some.inj fed
            obtain ⟨n, h', ends⟩ := scanCrlf_end r.1
            refine ⟨n, h', ?_⟩
            simp only [Prod.mk.injEq] at same
            rw [same.1] at ends
            simp only [run_cons, run_nil, List.append_nil] at same ends
            simp [same, ends]
  obtain ⟨n, h', ends⟩ := ends
  rw [rfc3676parserDeinit]
  cases got : line h none with
  | none =>
      rw [got] at ends
      cases ends
  | some r =>
      rw [got] at ends
      have same := Option.some.inj ends
      simp only [Prod.mk.injEq] at same
      simp [same]

theorem run_lineChar_collapse (text : List Char) :
    (∀ h : Parser, h.lineHandler = .scanCrlf →
      (run lineChar h text).2 ++ lineEnd (run lineChar h text).1 =
        total h.toContent (FlowedText.collapseCrlf text)) ∧
    (∀ h : Parser, h.lineHandler = .scanCrlfSeenCr →
      (run lineChar h text).2 ++ lineEnd (run lineChar h text).1 =
        total h.toContent (FlowedText.collapseCrlf ('\r' :: text))) := by
  induction text with
  | nil =>
      constructor
      · intro h handler
        simp [FlowedText.collapseCrlf, lineEnd, handler]
      · intro h handler
        simp [FlowedText.collapseCrlf, lineEnd, handler]
  | cons c cs ih =>
      obtain ⟨scan, seen⟩ := ih
      constructor
      · intro h handler
        by_cases cr : c = '\r'
        · have rest := seen { h with lineHandler := .scanCrlfSeenCr } rfl
          simpa [lineChar, handler, cr] using rest
        · have rest := scan { h with toContent := (contentChar h.toContent c).1 } handler
          rw [FlowedText.collapseCrlf_cons c cs (fun cr' => absurd cr' cr)]
          simp [lineChar, handler, cr, ← rest]
      · intro h handler
        by_cases nl : c = '\n'
        · have rest := scan
            { toContent := (contentChar h.toContent c).1, lineHandler := .scanCrlf } rfl
          subst nl
          simp [lineChar, handler, also, ← rest]
        · rw [FlowedText.collapseCrlf_cons '\r' (c :: cs) (fun _ => by simpa using nl)]
          by_cases cr : c = '\r'
          · have rest := seen
              { toContent := (contentChar h.toContent '\r').1, lineHandler := .scanCrlfSeenCr } rfl
            subst cr
            simpa [lineChar, handler, also] using rest
          · have rest := scan
              { toContent := (contentChar (contentChar h.toContent '\r').1 c).1
                lineHandler := .scanCrlf } rfl
            rw [FlowedText.collapseCrlf_cons c cs (fun cr' => absurd cr' cr)]
            simp [lineChar, handler, also, nl, cr, ← rest]

theorem parse_eq_total (isflowed isdelsp : Bool) (pieces : List (List Char)) :
    (parse isflowed isdelsp pieces).map flatten =
      some (total (rfc3676parserInit isflowed isdelsp).toContent
        (FlowedText.collapseCrlf pieces.flatten)) := by
  have fed := rfc3676parser_eq_run (rfc3676parserInit isflowed isdelsp) pieces
  have collapsed := (run_lineChar_collapse pieces.flatten).1
    (rfc3676parserInit isflowed isdelsp) rfl
  rw [parse, ← collapsed]
  cases got : rfc3676parser (rfc3676parserInit isflowed isdelsp) pieces with
  | none =>
      rw [got] at fed
      cases fed
  | some r =>
      rw [got] at fed
      have same := Option.some.inj fed
      have ends := rfc3676parserDeinit_end r.1
      rw [← same]
      cases last : rfc3676parserDeinit r.1 with
      | none =>
          rw [last] at ends
          cases ends
      | some calls =>
          rw [last] at ends
          have same' := Option.some.inj ends
          simp [last, ← same']

end WholeText

section Body
variable (h : Content)

abbrev install (h : Content) (handler : ContentHandler) : Content :=
  { h with contentHandler := handler }

theorem contentChar_scan_space (flowed : h.isflowed = true) :
    contentChar (install h .scanContentLine) ' ' = (install h .seenContentSp, []) := by
  simp only [contentChar, scanChar]
  rw [if_neg (by decide), if_pos ⟨trivial, flowed⟩]

theorem contentChar_scan_text (c : Char) (notNl : c ≠ '\n') (notSp : c ≠ ' ') :
    contentChar (install h .scanContentLine) c = (install h .scanContentLine, [.char c]) := by
  simp [contentChar, scanChar, notNl, notSp]

theorem total_seenContentSp_cons (c : Char) (cs : List Char) (notNl : c ≠ '\n') :
    total (install h .seenContentSp) (c :: cs) =
      .char ' ' :: total (install h .scanContentLine) (c :: cs) := by
  simp [contentChar, spaceChar, notNl, also]

def lineRest (h : Content) (rest body : List Char) : List Event :=
  if body.getLast? = some ' ' then
    body.dropLast.map .char ++ (if h.isdelsp then [] else [.char ' ']) ++
      total { install h .startOfLine with
        hasPreviousQuoteLevel := true
        previousQuoteLevel := h.quoteLevel } rest
  else body.map .char ++ .lineEnd :: total (install h .startOfLine) rest

theorem lineRest_cons_cons (rest body : List Char) (c d : Char) :
    lineRest h rest (c :: d :: body) = .char c :: lineRest h rest (d :: body) := by
  rw [lineRest, lineRest, List.getLast?_cons_cons]
  split
  · rfl
  · rfl

theorem total_scanContentLine_line (flowed : h.isflowed = true) (body rest : List Char)
    (oneLine : '\n' ∉ body) :
    total (install h .scanContentLine) (body ++ '\n' :: rest) = lineRest h rest body := by
  induction body with
  | nil => simp [lineRest, contentChar, scanChar]
  | cons c body ih =>
      rw [List.mem_cons, not_or] at oneLine
      have notNl : c ≠ '\n' := Ne.symm oneLine.1
      have later := ih oneLine.2
      by_cases sp : c = ' '
      · subst sp
        rw [List.cons_append, total_cons, contentChar_scan_space h flowed, List.nil_append]
        cases body with
        | nil => simp [lineRest, contentChar, spaceChar]
        | cons d body =>
            have notNl' : d ≠ '\n' := fun hd => oneLine.2 (by simp [hd])
            rw [lineRest_cons_cons, ← later]
            exact total_seenContentSp_cons h d _ notNl'
      · rw [List.cons_append, total_cons, contentChar_scan_text h c notNl sp, later]
        cases body with
        | nil => simp [lineRest, sp]
        | cons d body =>
            rw [lineRest_cons_cons]
            rfl

theorem total_scanContentLine_end (flowed : h.isflowed = true) (body : List Char)
    (oneLine : '\n' ∉ body) :
    total (install h .scanContentLine) body = body.map .char ++ [.lineEnd] := by
  induction body with
  | nil => simp [contentEnd]
  | cons c body ih =>
      rw [List.mem_cons, not_or] at oneLine
      have notNl : c ≠ '\n' := Ne.symm oneLine.1
      have later := ih oneLine.2
      by_cases sp : c = ' '
      · subst sp
        rw [total_cons, contentChar_scan_space h flowed, List.nil_append]
        cases body with
        | nil => simp [contentEnd]
        | cons d body =>
            have notNl' : d ≠ '\n' := fun hd => oneLine.2 (by simp [hd])
            rw [total_seenContentSp_cons h d _ notNl', later]
            rfl
      · rw [total_cons, contentChar_scan_text h c notNl sp, later]
        rfl

end Body

section Signature
variable (h : Content)

abbrev matched (h : Content) (i : Nat) : Content :=
  { h with
    contentHandler := if i = 3 then .seenSigBlock else .checkSignatureBlock
    sigBlockIndex := i }

def wrap (h : Content) : List Event := if h.wasPreviousQuoteLevel then [.flowed] else []

theorem take_sigBlock_dashes (i : Nat) (few : i < 3) :
    sigBlock.take i = List.replicate i '-' := by
  rcases i with _ | _ | _ | i
  · rfl
  · rfl
  · rfl
  · omega

theorem total_dashes (i : Nat) (few : i < 3) (cs : List Char) :
    total (install h .scanContentLine) (sigBlock.take i ++ cs) =
      (sigBlock.take i).map .char ++ total (install h .scanContentLine) cs := by
  have dash := contentChar_scan_text h '-' (by decide) (by decide)
  rw [take_sigBlock_dashes i few]
  clear few
  induction i with
  | zero => rfl
  | succ i ih =>
      rw [List.replicate_succ, List.cons_append, total_cons, dash, ih]
      rfl

theorem total_notSignature (flowed : h.isflowed = true) (i : Nat) (few : i ≤ 3) (c : Char)
    (cs : List Char) (notNl : i = 3 → c ≠ '\n') :
    (notSignatureChar (matched h i) c).2 ++ total (notSignatureChar (matched h i) c).1 cs =
      wrap h ++ total (install (matched h i) .scanContentLine) (sigBlock.take i ++ c :: cs) := by
  by_cases three : i = 3
  · subst three
    have split : sigBlock.take 3 ++ c :: cs = sigBlock.take 2 ++ ' ' :: c :: cs := rfl
    rw [split, total_dashes _ 2 (by decide), total_cons, contentChar_scan_space (matched h 3) flowed,
      List.nil_append, total_seenContentSp_cons (matched h 3) c cs (notNl rfl), total_cons]
    have sp : (matched h 3).isflowed = true ∧ 3 ≤ (matched h 3).sigBlockIndex := ⟨flowed, Nat.le_refl 3⟩
    simp only [notSignatureChar, if_pos sp, spaceChar, if_neg (notNl rfl), contentChar]
    simp [also, wrap, sigBlock]
  · have few' : i < 3 := by omega
    have notSp : ¬((matched h i).isflowed = true ∧ 3 ≤ (matched h i).sigBlockIndex) := by
      rintro ⟨_, many⟩
      exact few'.not_ge many
    rw [total_dashes _ i few', total_cons]
    simp only [notSignatureChar, if_neg notSp, contentChar]
    simp [also, wrap]

theorem matched_step (i : Nat) (few : i < 3) (c : Char) (hit : some c = sigBlock[i]?) :
    contentChar (matched h i) c = (matched h (i + 1), []) := by
  simp only [contentChar, Nat.ne_of_lt few, if_false, signatureChar]
  rw [if_pos hit]
  have last : i + 1 = sigBlock.length ↔ i + 1 = 3 := Iff.rfl
  simp only [last]

theorem contentChar_matched_miss (i : Nat) (few : i ≤ 3) (c : Char)
    (miss : some c ≠ (sigBlock ++ ['\n'])[i]?) :
    contentChar (matched h i) c = notSignatureChar (matched h i) c := by
  by_cases three : i = 3
  · subst three
    have notNl : c ≠ '\n' := fun hc => miss (by simp [hc, sigBlock])
    simp only [contentChar, if_true, signatureEndChar]
    rw [if_neg notNl]
  · have few' : i < sigBlock.length := by simp only [sigBlock, List.length_cons, List.length_nil]; omega
    rw [List.getElem?_append_left few'] at miss
    simp only [contentChar, if_neg three, signatureChar]
    rw [if_neg miss]

theorem total_matched (flowed : h.isflowed = true) (body tail : List Char)
    (oneLine : '\n' ∉ body) (ends : tail = [] ∨ tail.head? = some '\n') (i : Nat) (few : i ≤ 3)
    (other : sigBlock.take i ++ body ≠ sigBlock) :
    ∃ k, total (matched h i) (body ++ tail) =
      wrap h ++ total (install (matched h k) .scanContentLine) (sigBlock.take i ++ body ++ tail) := by
  induction body generalizing i with
  | nil =>
      have few' : i < 3 := by
        rcases Nat.lt_or_eq_of_le few with few' | three
        · exact few'
        · subst three
          exact absurd rfl other
      refine ⟨i, ?_⟩
      simp only [List.nil_append, List.append_nil]
      cases tail with
      | nil =>
          rw [total_dashes _ i few']
          simp only [total_nil, contentEnd, if_neg (Nat.ne_of_lt few'), notSignatureEnd]
          simp [wrap]
      | cons c cs =>
          have nl : c = '\n' := by simpa using ends
          have miss : some c ≠ (sigBlock ++ ['\n'])[i]? := by
            subst nl
            rcases i with _ | _ | _ | i
            · decide
            · decide
            · decide
            · omega
          rw [total_cons, contentChar_matched_miss h i few c miss]
          exact total_notSignature h flowed i few c cs (fun three => absurd three (Nat.ne_of_lt few'))
  | cons c body ih =>
      rw [List.mem_cons, not_or] at oneLine
      have notNl : c ≠ '\n' := Ne.symm oneLine.1
      by_cases hit : i < 3 ∧ some c = sigBlock[i]?
      · have longer : sigBlock.take (i + 1) ++ body = sigBlock.take i ++ c :: body := by
          rw [List.take_add_one, ← hit.2]
          simp
        obtain ⟨k, rest⟩ := ih oneLine.2 (i + 1) hit.1 (longer ▸ other)
        refine ⟨k, ?_⟩
        rw [List.cons_append, total_cons, matched_step h i hit.1 c hit.2, List.nil_append, rest, longer]
      · have miss : some c ≠ (sigBlock ++ ['\n'])[i]? := by
          intro same
          rcases Nat.lt_or_eq_of_le few with few' | three
          · have few'' : i < sigBlock.length := few'
            rw [List.getElem?_append_left few''] at same
            exact hit ⟨few', same⟩
          · subst three
            exact notNl (by simpa [sigBlock] using same)
        refine ⟨i, ?_⟩
        rw [List.cons_append, total_cons, contentChar_matched_miss h i few c miss,
          total_notSignature h flowed i few c _ (fun _ => notNl)]
        simp

theorem total_matched_signature (tail : List Char) :
    total (matched h 0) (sigBlock ++ tail) = total (matched h 3) tail := by
  have first := matched_step h 0 (by decide) '-' rfl
  have second := matched_step h 1 (by decide) '-' rfl
  have third := matched_step h 2 (by decide) ' ' rfl
  simp only [sigBlock, List.cons_append, List.nil_append, total_cons, first, second, third]

end Signature

section Rules

def asParsed (delsp : Bool) : Rules where
  joins l m := l.flows && l.ended && m.quoteLevel = l.quoteLevel && (m.body ≠ [] || !m.ended) &&
    m.body ≠ signature
  text l := if l.flows && l.ended && delsp then l.body.dropLast else l.body

def opening (prev : Option Nat) (m : Line) : List Event :=
  if prev = some m.quoteLevel ∧ (m.body ≠ [] ∨ m.ended = false) ∧ m.body ≠ signature then [.flowed]
  else (if prev.isSome then [.lineEnd] else []) ++ [.lineBegin m.quoteLevel]

def closing (m : Line) : List Event := if m.flows && m.ended then [] else [.lineEnd]

def waiting (m : Line) : Option Nat := if m.flows && m.ended then some m.quoteLevel else none

def told (delsp : Bool) : Option Nat → List Line → List Event
  | prev, [] => if prev.isSome then [.lineEnd] else []
  | prev, m :: ms =>
    opening prev m ++ (asParsed delsp).chars m ++ closing m ++ told delsp (waiting m) ms

theorem closing_told (delsp : Bool) (l : Line) (ls : List Line) :
    closing l ++ told delsp (waiting l) ls = (asParsed delsp).after l ls := by
  induction ls generalizing l with
  | nil =>
      cases waits : l.flows && l.ended with
      | false => simp [told, closing, waiting, waits, Rules.after]
      | true => simp [told, closing, waiting, waits, Rules.after]
  | cons m ms ih =>
      rw [told, Rules.after, ← ih m]
      cases waits : l.flows && l.ended with
      | false => simp [closing, waiting, opening, asParsed, waits]
      | true =>
          by_cases joins : m.quoteLevel = l.quoteLevel ∧ (m.body ≠ [] ∨ m.ended = false) ∧
              m.body ≠ signature
          · simp [closing, waiting, opening, asParsed, waits, joins]
          · have differ : ¬(l.quoteLevel = m.quoteLevel ∧ (m.body ≠ [] ∨ m.ended = false) ∧
                m.body ≠ signature) := by
              rintro ⟨level, rest⟩
              exact joins ⟨level.symm, rest⟩
            have cut : (asParsed delsp).joins l m = false := by
              simp only [asParsed, waits]
              simpa [and_assoc] using joins
            rw [cut]
            simp [closing, waiting, opening, waits, differ]

theorem told_eq_events (delsp : Bool) (lines : List Line) :
    told delsp none lines = (asParsed delsp).events lines := by
  cases lines with
  | nil => rfl
  | cons l ls =>
      rw [events_cons, ← closing_told]
      simp [told, opening]

end Rules

section LineStart

structure AtLineStart (h : Content) (delsp : Bool) (prev : Option Nat) : Prop where
  handler : h.contentHandler = .startOfLine
  flowed : h.isflowed = true
  delsp : h.isdelsp = delsp
  prev : (if h.hasPreviousQuoteLevel then some h.previousQuoteLevel else none) = prev

structure InLine (h : Content) (delsp : Bool) : Prop where
  flowed : h.isflowed = true
  delsp : h.isdelsp = delsp
  fresh : h.hasPreviousQuoteLevel = false

variable (h : Content) (delsp : Bool)

theorem lineRest_finishes (inLine : InLine h delsp) (body rest : List Char)
    (other : body ≠ signature) :
    ∃ h', AtLineStart h' delsp (waiting ⟨h.quoteLevel, body, true⟩) ∧
      lineRest h rest body =
        (asParsed delsp).chars ⟨h.quoteLevel, body, true⟩ ++ closing ⟨h.quoteLevel, body, true⟩ ++ total h' rest := by
  by_cases sp : body.getLast? = some ' '
  · have flows : Line.flows ⟨h.quoteLevel, body, true⟩ = true := by simp [Line.flows, sp, other]
    refine ⟨{ install h .startOfLine with
        hasPreviousQuoteLevel := true
        previousQuoteLevel := h.quoteLevel }, ⟨rfl, inLine.flowed, inLine.delsp, ?_⟩, ?_⟩
    · simp [waiting, flows]
    · have whole : body.dropLast ++ [' '] = body := List.dropLast_append_getLast? ' ' sp
      have open_ : closing ⟨h.quoteLevel, body, true⟩ = [] := by simp [closing, flows]
      rw [lineRest, if_pos sp, inLine.delsp, open_, List.append_nil]
      cases delsp with
      | true => simp [Rules.chars, asParsed, flows]
      | false =>
          have keeps : (asParsed false).chars ⟨h.quoteLevel, body, true⟩ =
              body.dropLast.map .char ++ [.char ' '] := by
            conv_rhs => rw [← List.map_singleton, ← List.map_append, whole]
            simp [Rules.chars, asParsed]
          rw [keeps]
          rfl
  · have flows : Line.flows ⟨h.quoteLevel, body, true⟩ = false := by simp [Line.flows, sp]
    refine ⟨install h .startOfLine, ⟨rfl, inLine.flowed, inLine.delsp, ?_⟩, ?_⟩
    · simp [waiting, flows, inLine.fresh]
    · simp [lineRest, sp, closing, Rules.chars, asParsed, flows]

def startBody (was : Bool) (quoteLevel : Nat) (body : List Char) (ended : Bool) : List Event :=
  if was then
    if (body ≠ [] ∨ ended = false) ∧ body ≠ signature then [.flowed]
    else [.lineEnd, .lineBegin quoteLevel]
  else []

theorem total_startContentLine (text : List Char) :
    total (install h .startContentLine) text =
      if text.head? = some '\n' ∧ h.wasPreviousQuoteLevel then
        [.lineEnd, .lineBegin h.quoteLevel] ++
          total (matched { h with wasPreviousQuoteLevel := false } 0) text
      else total (matched h 0) text := by
  cases text with
  | nil => simp [contentEnd, notSignatureEnd]
  | cons c cs =>
      simp only [total_cons, contentChar, startContentChar, List.head?_cons, Option.some.injEq]
      split
      · simp [also]
        rfl
      · rfl

theorem total_body (inLine : InLine h delsp) (body rest : List Char) (oneLine : '\n' ∉ body) :
    ∃ h', AtLineStart h' delsp (waiting ⟨h.quoteLevel, body, true⟩) ∧
      total (install h .startContentLine) (body ++ '\n' :: rest) =
        startBody h.wasPreviousQuoteLevel h.quoteLevel body true ++
          ((asParsed delsp).chars ⟨h.quoteLevel, body, true⟩ ++ closing ⟨h.quoteLevel, body, true⟩ ++ total h' rest) := by
  rw [total_startContentLine]
  by_cases sig : body = signature
  · subst sig
    refine ⟨{ matched h 3 with wasPreviousQuoteLevel := false, contentHandler := .startOfLine },
      ⟨rfl, inLine.flowed, inLine.delsp, by simp [inLine.fresh, waiting, Line.flows]⟩, ?_⟩
    have start : (signature ++ '\n' :: rest).head? ≠ some '\n' := by simp [signature]
    have whole : total (matched h 0) (signature ++ '\n' :: rest) = total (matched h 3) ('\n' :: rest) :=
      total_matched_signature h ('\n' :: rest)
    rw [if_neg (fun both => start both.1), whole]
    simp only [total_cons, contentChar, if_true, signatureEndChar]
    simp [startBody, closing, Rules.chars, asParsed, Line.flows, signature]
  · have finish : ∀ g : Content, InLine g delsp → g.quoteLevel = h.quoteLevel →
        ∃ h', AtLineStart h' delsp (waiting ⟨h.quoteLevel, body, true⟩) ∧
          total (matched g 0) (body ++ '\n' :: rest) =
            wrap g ++ ((asParsed delsp).chars ⟨h.quoteLevel, body, true⟩ ++ closing ⟨h.quoteLevel, body, true⟩ ++
              total h' rest) := by
      intro g hg level
      obtain ⟨k, scanned⟩ := total_matched g hg.flowed body ('\n' :: rest) oneLine (Or.inr rfl) 0
        (Nat.zero_le 3) sig
      obtain ⟨h', start, told⟩ := lineRest_finishes (matched g k) delsp
        ⟨hg.flowed, hg.delsp, hg.fresh⟩ body rest sig
      rw [← level]
      refine ⟨h', start, ?_⟩
      rw [scanned]
      simp only [List.take_zero, List.nil_append]
      rw [total_scanContentLine_line (matched g k) hg.flowed body rest oneLine, told]
    by_cases unflow : (body ++ '\n' :: rest).head? = some '\n' ∧ h.wasPreviousQuoteLevel
    · have empty : body = [] := by
        cases body with
        | nil => rfl
        | cons c body =>
            have nl : c = '\n' := by simpa using unflow.1
            exact absurd (by simp [nl]) oneLine
      obtain ⟨h', start, told⟩ := finish { h with wasPreviousQuoteLevel := false }
        ⟨inLine.flowed, inLine.delsp, inLine.fresh⟩ rfl
      refine ⟨h', start, ?_⟩
      rw [if_pos unflow, told]
      simp [startBody, unflow.2, empty, wrap]
    · obtain ⟨h', start, told⟩ := finish h inLine rfl
      refine ⟨h', start, ?_⟩
      rw [if_neg unflow, told]
      have same : wrap h = startBody h.wasPreviousQuoteLevel h.quoteLevel body true := by
        cases was : h.wasPreviousQuoteLevel with
        | false => simp [wrap, startBody, was]
        | true =>
            have nonempty : body ≠ [] := by
              intro empty
              apply unflow
              simp [empty, was]
            simp [wrap, startBody, was, nonempty, sig]
      rw [same]

theorem total_body_end (inLine : InLine h delsp) (body : List Char) (oneLine : '\n' ∉ body) :
    total (install h .startContentLine) body =
      startBody h.wasPreviousQuoteLevel h.quoteLevel body false ++ (body.map .char ++ [.lineEnd]) := by
  have start : ¬(body.head? = some '\n' ∧ h.wasPreviousQuoteLevel) := by
    rintro ⟨nl, _⟩
    exact oneLine (List.mem_of_head? nl)
  rw [total_startContentLine, if_neg start]
  by_cases sig : body = signature
  · subst sig
    have whole : total (matched h 0) signature = total (matched h 3) [] :=
      total_matched_signature h []
    rw [whole]
    simp only [total_nil, contentEnd, if_true]
    simp [startBody, signature]
  · obtain ⟨k, scanned⟩ := total_matched h inLine.flowed body [] oneLine (Or.inl rfl) 0
      (Nat.zero_le 3) sig
    simp only [List.take_zero, List.nil_append, List.append_nil] at scanned
    rw [scanned, total_scanContentLine_end (matched h k) inLine.flowed body oneLine]
    simp [wrap, startBody, sig]

def opens (h : Content) : List Event :=
  if h.hasPreviousQuoteLevel && h.quoteLevel == h.previousQuoteLevel then []
  else (if h.hasPreviousQuoteLevel then [.lineEnd] else []) ++ [.lineBegin h.quoteLevel]

abbrev entered (h : Content) : Content :=
  { h with
    wasPreviousQuoteLevel := h.hasPreviousQuoteLevel && h.quoteLevel == h.previousQuoteLevel
    hasPreviousQuoteLevel := false }

theorem contentChar_countedQuoteLevel (flowed : h.isflowed = true) (c : Char) :
    contentChar (install h .countedQuoteLevel) c =
      also (opens h)
        (if c = ' ' then (install (entered h) .startContentLine, [])
        else contentChar (install (entered h) .startContentLine) c) := by
  have notFixed : ¬((!h.isflowed) = true) := by simp [flowed]
  simp only [contentChar, countedChar]
  rw [if_neg notFixed]
  rfl

theorem total_countedQuoteLevel (flowed : h.isflowed = true) (text : List Char) :
    total (install h .countedQuoteLevel) text =
      opens h ++ total (install (entered h) .startContentLine) (unstuff text) := by
  cases text with
  | nil => simp [contentEnd, countedEnd, opens, unstuff, notSignatureEnd, flowed]
  | cons c cs =>
      rw [total_cons, contentChar_countedQuoteLevel h flowed c]
      by_cases sp : c = ' '
      · subst sp
        rw [if_pos rfl]
        simp [also, unstuff]
      · have keeps : unstuff (c :: cs) = c :: cs := by
          rw [unstuff]
          intro ds hds
          exact sp (List.cons.inj hds).1
        rw [if_neg sp, keeps, total_cons]
        simp [also]

theorem contentChar_quote (flowed : h.isflowed = true) :
    contentChar (install h .countQuoteLevel) '>' =
      (install { h with quoteLevel := h.quoteLevel + 1 } .countQuoteLevel, []) := by
  simp only [contentChar, countChar]
  rw [if_pos ⟨trivial, flowed⟩]

theorem total_countQuoteLevel (flowed : h.isflowed = true) (line tail : List Char)
    (ends : tail = [] ∨ tail.head? = some '\n') :
    total (install h .countQuoteLevel) (line ++ tail) =
      total (install { h with quoteLevel := h.quoteLevel + (line.takeWhile (· = '>')).length }
        .countedQuoteLevel) (line.dropWhile (· = '>') ++ tail) := by
  induction line generalizing h with
  | nil =>
      cases tail with
      | nil => simp [contentEnd, countedEnd]
      | cons c cs =>
          have nl : c = '\n' := by simpa using ends
          simp [contentChar, countChar, nl]
  | cons c line ih =>
      by_cases quote : c = '>'
      · subst quote
        have next := ih { h with quoteLevel := h.quoteLevel + 1 } flowed
        have more : (('>' :: line).takeWhile (· = '>')).length =
            1 + (line.takeWhile (· = '>')).length := by
          simp [Nat.add_comm]
        have fewer : ('>' :: line).dropWhile (· = '>') = line.dropWhile (· = '>') := by simp
        rw [List.cons_append, total_cons, contentChar_quote h flowed, List.nil_append, next, more,
          fewer, ← Nat.add_assoc]
      · simp [contentChar, countChar, quote]

end LineStart

section Lines
variable {h : Content} {delsp : Bool} {prev : Option Nat}

theorem unstuff_append (raw tail : List Char) (ends : tail = [] ∨ tail.head? = some '\n') :
    unstuff (raw ++ tail) = unstuff raw ++ tail := by
  cases raw with
  | nil =>
      cases tail with
      | nil => rfl
      | cons c cs =>
          have nl : c = '\n' := by simpa using ends
          simp [nl, unstuff]
  | cons c raw =>
      by_cases sp : c = ' '
      · simp [sp, unstuff]
      · simp [unstuff, sp]

theorem mem_of_mem_unstuff {raw : List Char} {c : Char} (hc : c ∈ unstuff raw) : c ∈ raw := by
  unfold unstuff at hc
  split at hc
  · exact List.mem_cons_of_mem _ hc
  · exact hc

theorem mem_of_mem_body {line : List Char × Bool} {c : Char} (hc : c ∈ (readLine line).body) :
    c ∈ line.1 :=
  (List.dropWhile_sublist _).subset (mem_of_mem_unstuff hc)

theorem total_lineStart (start : AtLineStart h delsp prev) (line : List Char × Bool)
    (tail : List Char) (ends : tail = [] ∨ tail.head? = some '\n') (ne : line.1 ++ tail ≠ []) :
    ∃ g, InLine g delsp ∧ g.quoteLevel = (readLine line).quoteLevel ∧
      (g.wasPreviousQuoteLevel = true ↔ prev = some (readLine line).quoteLevel) ∧
      total h (line.1 ++ tail) =
        (if prev = some (readLine line).quoteLevel then []
        else (if prev.isSome then [.lineEnd] else []) ++ [.lineBegin (readLine line).quoteLevel]) ++
        total (install g .startContentLine) ((readLine line).body ++ tail) := by
  have toCount : total h (line.1 ++ tail) =
      total (install { h with quoteLevel := 0 } .countQuoteLevel) (line.1 ++ tail) := by
    cases text : line.1 ++ tail with
    | nil => exact absurd text ne
    | cons c cs => simp [contentChar, start.handler]
  have counted := total_countQuoteLevel { h with quoteLevel := 0 } start.flowed line.1 tail ends
  have opened := total_countedQuoteLevel { h with quoteLevel := (readLine line).quoteLevel }
    start.flowed (line.1.dropWhile (· = '>') ++ tail)
  rw [unstuff_append _ _ ends] at opened
  rw [toCount, counted]
  simp only [Nat.zero_add]
  refine ⟨entered { h with quoteLevel := (readLine line).quoteLevel },
    ⟨start.flowed, start.delsp, rfl⟩, rfl, ?_, ?_⟩
  · rw [← start.prev]
    cases h.hasPreviousQuoteLevel with
    | false => simp
    | true =>
        simp only [Bool.true_and, beq_iff_eq, if_true, Option.some.injEq]
        exact eq_comm
  · have same : opens { h with quoteLevel := (readLine line).quoteLevel } =
        if prev = some (readLine line).quoteLevel then []
        else (if prev.isSome then [.lineEnd] else []) ++ [.lineBegin (readLine line).quoteLevel] := by
      rw [← start.prev]
      cases h.hasPreviousQuoteLevel with
      | false => simp [opens]
      | true =>
          by_cases same : h.previousQuoteLevel = (readLine line).quoteLevel
          · simp [opens, same]
          · have other : (readLine line).quoteLevel ≠ h.previousQuoteLevel := Ne.symm same
            simp [opens, same, other]
    rw [← same]
    exact opened

theorem opening_eq (g : Content) (m : Line) (level : g.quoteLevel = m.quoteLevel)
    (was : g.wasPreviousQuoteLevel = true ↔ prev = some m.quoteLevel) :
    (if prev = some m.quoteLevel then []
      else (if prev.isSome then [.lineEnd] else []) ++ [.lineBegin m.quoteLevel]) ++
      startBody g.wasPreviousQuoteLevel g.quoteLevel m.body m.ended = opening prev m := by
  by_cases joins : prev = some m.quoteLevel
  · simp [opening, startBody, was.mpr joins, joins, level]
  · have fresh : g.wasPreviousQuoteLevel = false := by
      cases hw : g.wasPreviousQuoteLevel with
      | false => rfl
      | true => exact absurd (was.mp hw) joins
    simp [opening, startBody, fresh, joins]

theorem total_line (start : AtLineStart h delsp prev) (line rest : List Char)
    (oneLine : '\n' ∉ line) :
    ∃ h', AtLineStart h' delsp (waiting (readLine (line, true))) ∧
      total h (line ++ '\n' :: rest) =
        opening prev (readLine (line, true)) ++ (asParsed delsp).chars (readLine (line, true)) ++
          closing (readLine (line, true)) ++ total h' rest := by
  obtain ⟨g, inLine, level, was, opened⟩ := total_lineStart start (line, true) ('\n' :: rest)
    (Or.inr rfl) (by simp)
  obtain ⟨h', start', told⟩ := total_body g delsp inLine (readLine (line, true)).body rest
    (fun hc => oneLine (mem_of_mem_body hc))
  rw [← opening_eq g (readLine (line, true)) level was]
  rw [level] at start' told
  refine ⟨h', start', ?_⟩
  rw [opened, told, level]
  simp only [List.append_assoc]
  rfl

theorem total_lastLine (start : AtLineStart h delsp prev) (line : List Char) (ne : line ≠ [])
    (oneLine : '\n' ∉ line) :
    total h line =
      opening prev (readLine (line, false)) ++ (asParsed delsp).chars (readLine (line, false)) ++
        [.lineEnd] := by
  obtain ⟨g, inLine, level, was, opened⟩ := total_lineStart start (line, false) [] (Or.inl rfl)
    (by simpa using ne)
  have told := total_body_end g delsp inLine (readLine (line, false)).body
    (fun hc => oneLine (mem_of_mem_body hc))
  have whole : (asParsed delsp).chars (readLine (line, false)) =
      (readLine (line, false)).body.map .char := by
    simp [Rules.chars, asParsed, readLine]
  simp only [List.append_nil] at opened
  rw [← opening_eq g (readLine (line, false)) level was, whole, opened, told]
  simp only [List.append_assoc]
  rfl

theorem total_none (start : AtLineStart h delsp prev) : total h [] = told delsp prev [] := by
  rw [told, ← start.prev]
  cases has : h.hasPreviousQuoteLevel with
  | false => simp [contentEnd, start.handler, has]
  | true => simp [contentEnd, start.handler, has]

theorem total_lines (ls : List (List Char)) (last : List Char) (oneLine : ∀ l ∈ ls, '\n' ∉ l)
    (oneLine' : '\n' ∉ last) (start : AtLineStart h delsp prev) :
    total h (ls.flatMap (· ++ ['\n']) ++ last) =
      told delsp prev ((ls.map (·, true) ++ cutLine last).map readLine) := by
  induction ls generalizing h prev with
  | nil =>
      by_cases empty : last = []
      · simpa [empty, cutLine] using total_none start
      · have whole := total_lastLine start last empty oneLine'
        have hard : closing (readLine (last, false)) = [.lineEnd] := by simp [closing, readLine]
        have fixed : waiting (readLine (last, false)) = none := by simp [waiting, readLine]
        simp [cutLine, empty, told, hard, fixed, whole]
  | cons l ls ih =>
      obtain ⟨h', start', first⟩ := total_line start l (ls.flatMap (· ++ ['\n']) ++ last)
        (oneLine l (by simp))
      have later := ih (fun l' hl' => oneLine l' (by simp [hl'])) start'
      have split : (l :: ls).flatMap (· ++ ['\n']) ++ last =
          l ++ '\n' :: (ls.flatMap (· ++ ['\n']) ++ last) := by simp
      rw [split, first, later]
      rfl

end Lines

theorem parse_eq (delsp : Bool) (pieces : List (List Char)) :
    (parse true delsp pieces).map flatten = some (reading (asParsed delsp) pieces.flatten) := by
  obtain ⟨ls, last, oneLine, oneLine', text⟩ := exists_lines (collapseCrlf pieces.flatten)
  have start : AtLineStart (rfc3676parserInit true delsp).toContent delsp none :=
    ⟨rfl, rfl, by simp [rfc3676parserInit], rfl⟩
  rw [parse_eq_total, reading, physicalLines, text, total_lines ls last oneLine oneLine' start,
    splitLines_lines ls last oneLine oneLine', told_eq_events]

end Cone.Rfc3676Lines
