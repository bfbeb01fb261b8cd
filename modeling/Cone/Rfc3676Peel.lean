import Cone.FlowedText
import Cone.Rfc3676Parser

/-! # The flowed text parser, character by character

The handlers consume runs of characters, withhold some and pass them on later.  Here each is
given the meaning of one character, and the calls on longer pieces are shown to agree with it,
so that neither the cuts of the text nor the buffer sizes matter. -/
set_option autoImplicit false
namespace Cone.Rfc3676Peel

open Cone.Lib.PushParser Cone.Rfc3676Parser
open Cone.FlowedText (Event)

section Flat
variable {S : Type}

def callEvents : Call → List Event
  | .lineBegin quoteLevel => [.lineBegin quoteLevel]
  | .lineContents uc => uc.map .char
  | .lineFlowedNotify => [.flowed]
  | .lineEnd => [.lineEnd]

def flatten (calls : List Call) : List Event := calls.flatMap callEvents

@[simp] theorem flatten_nil : flatten [] = [] := rfl

@[simp] theorem flatten_cons (call : Call) (calls : List Call) :
    flatten (call :: calls) = callEvents call ++ flatten calls := rfl

@[simp] theorem flatten_append (calls calls' : List Call) :
    flatten (calls ++ calls') = flatten calls ++ flatten calls' := by
  simp [flatten]

@[simp] theorem flatten_ite (p : Prop) [Decidable p] (calls calls' : List Call) :
    flatten (if p then calls else calls') = if p then flatten calls else flatten calls' := by
  split
  · rfl
  · rfl

def flat (r : Handled S Call) : Handled S Event := r.map fun h => (h.1, h.2.1, flatten h.2.2)

@[simp] theorem flat_some (n : Nat) (s : S) (calls : List Call) :
    flat (some (n, s, calls)) = some (n, s, flatten calls) := rfl

@[simp] theorem flat_before (calls : List Call) (r : Handled S Call) :
    flat (before calls r) = before (flatten calls) (flat r) := by
  cases r with
  | none => rfl
  | some h => simp [flat, before]

theorem feed_flat {A : Type} (f : S → List A → Handled S Call) (fuel : Nat) (s : S) (cs : List A) :
    feed (fun s cs => flat (f s cs)) fuel s cs =
      (feed f fuel s cs).map fun r => (r.1, flatten r.2) := by
  induction fuel generalizing s cs with
  | zero =>
      cases cs with
      | nil => rfl
      | cons c cs => rfl
  | succ fuel ih =>
      cases cs with
      | nil => rfl
      | cons c cs =>
          simp only [feed]
          cases call : f s (c :: cs) with
          | none => rfl
          | some h =>
              obtain ⟨n, s', calls⟩ := h
              simp only [flat_some, ih]
              cases feed f fuel s' ((c :: cs).drop n) with
              | none => rfl
              | some r => simp

end Flat

section OneCharacter
variable (h : Content) (c : Char)

def scanChar : Content × List Event :=
  if c = '\n' then ({ h with contentHandler := .startOfLine }, [.lineEnd])
  else if c = ' ' ∧ h.isflowed then ({ h with contentHandler := .seenContentSp }, [])
  else (h, [.char c])

def spaceChar : Content × List Event :=
  if c = '\n' then
    ({ h with
        hasPreviousQuoteLevel := true
        previousQuoteLevel := h.quoteLevel
        contentHandler := .startOfLine },
      if h.isdelsp then [] else [.char ' '])
  else also [.char ' '] (scanChar { h with contentHandler := .scanContentLine } c)

def notSignatureChar : Content × List Event :=
  let h' := { h with contentHandler := .scanContentLine }
  also (if h.wasPreviousQuoteLevel then [.flowed] else [])
    (if h.isflowed ∧ 3 ≤ h.sigBlockIndex then also [.char '-', .char '-'] (spaceChar h' c)
    else also ((sigBlock.take h.sigBlockIndex).map .char) (scanChar h' c))

def signatureEndChar : Content × List Event :=
  if c = '\n' then
    ({ h with wasPreviousQuoteLevel := false, contentHandler := .startOfLine },
      (if h.wasPreviousQuoteLevel then [.lineEnd, .lineBegin h.quoteLevel] else []) ++
        [.char '-', .char '-', .char ' ', .lineEnd])
  else notSignatureChar h c

def signatureChar : Content × List Event :=
  if some c = sigBlock[h.sigBlockIndex]? then
    ({ h with
        sigBlockIndex := h.sigBlockIndex + 1
        contentHandler :=
          if h.sigBlockIndex + 1 = sigBlock.length then .seenSigBlock else h.contentHandler },
      [])
  else notSignatureChar h c

def startContentChar : Content × List Event :=
  let h' := { h with contentHandler := .checkSignatureBlock, sigBlockIndex := 0 }
  if c = '\n' ∧ h.wasPreviousQuoteLevel then
    also [.lineEnd, .lineBegin h.quoteLevel]
      (signatureChar { h' with wasPreviousQuoteLevel := false } c)
  else signatureChar h' c

def countedChar : Content × List Event :=
  let joins := h.hasPreviousQuoteLevel && h.quoteLevel == h.previousQuoteLevel
  let h' := { h with wasPreviousQuoteLevel := joins, hasPreviousQuoteLevel := false }
  also
    (if joins then []
    else (if h.hasPreviousQuoteLevel then [.lineEnd] else []) ++ [.lineBegin h.quoteLevel])
    (if !h.isflowed then scanChar { h' with contentHandler := .scanContentLine } c
    else if c = ' ' then ({ h' with contentHandler := .startContentLine }, [])
    else startContentChar { h' with contentHandler := .startContentLine } c)

def countChar : Content × List Event :=
  if c = '>' ∧ h.isflowed then ({ h with quoteLevel := h.quoteLevel + 1 }, [])
  else countedChar { h with contentHandler := .countedQuoteLevel } c

def contentChar : Content × List Event :=
  match h.contentHandler with
  | .startOfLine => countChar { h with contentHandler := .countQuoteLevel, quoteLevel := 0 } c
  | .countQuoteLevel => countChar h c
  | .countedQuoteLevel => countedChar h c
  | .startContentLine => startContentChar h c
  | .checkSignatureBlock => signatureChar h c
  | .seenSigBlock => signatureEndChar h c
  | .scanContentLine => scanChar h c
  | .seenContentSp => spaceChar h c

end OneCharacter

section Agreement
variable (h : Content) (c : Char)

def contentCall (h : Content) (cs : List Char) : Handled Content Event := flat (content h (some cs))

theorem scanContentLine_agrees (scanning : h.contentHandler = .scanContentLine) :
    Agrees contentCall (fun cs => flat (scanContentLine h (some cs))) c (scanChar h c) := by
  by_cases nl : c = '\n'
  · apply Agrees.of_one
    intro ds
    simp [scanContentLine, scanChar, nl, deref, oneIf, callEvents]
  by_cases sp : c = ' ' ∧ h.isflowed
  · apply Agrees.of_one
    intro ds
    simp [scanContentLine, scanChar, sp, deref]
  have text : (decide (c ≠ '\n') && (decide (c ≠ ' ') || !h.isflowed)) = true := by
    simp only [not_and, Bool.not_eq_true] at sp
    by_cases hc : c = ' '
    · simp [hc, sp hc]
    · simp [nl, hc]
  have step : scanChar h c = (h, [.char c]) := by rw [scanChar, if_neg nl, if_neg sp]
  rw [step]
  constructor
  · simp only [scanContentLine, Option.getD_some, List.takeWhile_cons, text, if_true]
    simp [callEvents]
  · intro d ds
    have long : flat (scanContentLine h (some (c :: d :: ds))) =
        some ((((d :: ds).takeWhile fun c => c ≠ '\n' && (c ≠ ' ' || !h.isflowed)).length + 1), h,
          .char c :: ((d :: ds).takeWhile fun c => c ≠ '\n' && (c ≠ ' ' || !h.isflowed)).map .char) := by
      rw [scanContentLine, Option.getD_some, List.takeWhile_cons, if_pos text]
      simp [callEvents]
    cases run : (d :: ds).takeWhile fun c => c ≠ '\n' && (c ≠ ' ' || !h.isflowed) with
    | nil =>
        left
        refine ⟨h, ?_, rfl⟩
        rw [long, run]
        rfl
    | cons e es =>
        right
        refine ⟨es.length, h, (e :: es).map .char, ?_, ?_⟩
        · simp only [contentCall, content, scanning, scanContentLine, Option.getD_some, run]
          simp [callEvents]
        · rw [long, run]
          rfl

theorem seenContentSp_agrees :
    Agrees contentCall (fun cs => flat (seenContentSp h (some cs))) c (spaceChar h c) := by
  by_cases nl : c = '\n'
  · apply Agrees.of_one
    intro ds
    cases del : h.isdelsp with
    | false => simp [seenContentSp, spaceChar, nl, deref, oneIf, del, callEvents]
    | true => simp [seenContentSp, spaceChar, nl, deref, oneIf, del]
  · have scan := scanContentLine_agrees { h with contentHandler := .scanContentLine } c rfl
    rw [spaceChar, if_neg nl]
    apply (scan.before [.char ' ']).of_eq
    intro ds
    simp [seenContentSp, deref, nl, callEvents]

theorem flat_seenNotsigBlock (ptr : Option (List Char)) :
    flat (seenNotsigBlock h ptr) =
      before (if h.wasPreviousQuoteLevel then [.flowed] else [])
        (if h.isflowed ∧ 3 ≤ h.sigBlockIndex then
          before [.char '-', .char '-']
            (flat (seenContentSp { h with contentHandler := .scanContentLine } ptr))
        else
          before ((sigBlock.take h.sigBlockIndex).map .char)
            (flat (scanContentLine { h with contentHandler := .scanContentLine } ptr))) := by
  rcases index : h.sigBlockIndex with _ | _ | _ | i
  · simp [seenNotsigBlock, index, scanning, callEvents]
  · simp [seenNotsigBlock, index, feed, scanning, scanContentLine, sigBlock, callEvents]
  · simp [seenNotsigBlock, index, feed, scanning, scanContentLine, sigBlock, callEvents]
  · cases fl : h.isflowed with
    | false =>
        simp [seenNotsigBlock, index, feed, scanning, scanContentLine, sigBlock, callEvents, fl]
    | true =>
        simp [seenNotsigBlock, index, feed, scanning, scanContentLine, sigBlock, callEvents, fl, deref]
        rfl

theorem seenNotsigBlock_agrees :
    Agrees contentCall (fun cs => flat (seenNotsigBlock h (some cs))) c (notSignatureChar h c) := by
  by_cases sp : h.isflowed ∧ 3 ≤ h.sigBlockIndex
  · simp only [notSignatureChar, if_pos sp]
    apply (((seenContentSp_agrees { h with contentHandler := .scanContentLine } c).before
      [.char '-', .char '-']).before _).of_eq
    intro ds
    rw [flat_seenNotsigBlock, if_pos sp]
  · simp only [notSignatureChar, if_neg sp]
    apply (((scanContentLine_agrees { h with contentHandler := .scanContentLine } c rfl).before
      ((sigBlock.take h.sigBlockIndex).map .char)).before _).of_eq
    intro ds
    rw [flat_seenNotsigBlock, if_neg sp]

theorem seenSigBlock_agrees :
    Agrees contentCall (fun cs => flat (seenSigBlock h (some cs))) c (signatureEndChar h c) := by
  by_cases nl : c = '\n'
  · apply Agrees.of_one
    intro ds
    simp [seenSigBlock, signatureEndChar, nl, deref, oneIf, callEvents, sigBlock]
  · rw [signatureEndChar, if_neg nl]
    apply (seenNotsigBlock_agrees h c).of_eq
    intro ds
    simp [seenSigBlock, deref, nl]

theorem checkSignatureBlock_agrees :
    Agrees contentCall (fun cs => flat (checkSignatureBlock h (some cs))) c (signatureChar h c) := by
  by_cases sig : some c = sigBlock[h.sigBlockIndex]?
  · apply Agrees.of_one
    intro ds
    simp [checkSignatureBlock, signatureChar, deref, ← sig]
  · rw [signatureChar, if_neg sig]
    apply (seenNotsigBlock_agrees h c).of_eq
    intro ds
    simp [checkSignatureBlock, deref, sig]

theorem startContentLine_agrees :
    Agrees contentCall (fun cs => flat (startContentLine h (some cs))) c (startContentChar h c) := by
  by_cases unflow : c = '\n' ∧ h.wasPreviousQuoteLevel
  · rw [startContentChar, if_pos unflow]
    apply ((checkSignatureBlock_agrees _ c).before [.lineEnd, .lineBegin h.quoteLevel]).of_eq
    intro ds
    simp [startContentLine, deref, unflow, callEvents]
  · rw [startContentChar, if_neg unflow]
    apply (checkSignatureBlock_agrees _ c).of_eq
    intro ds
    simp only [startContentLine, deref, Option.bind_some, List.head?_cons, Option.some.injEq]
    rw [if_neg unflow]

theorem countedQuoteLevel_agrees :
    Agrees contentCall (fun cs => flat (countedQuoteLevel h (some cs))) c (countedChar h c) := by
  unfold countedChar
  cases fl : h.isflowed with
  | false =>
      apply ((scanContentLine_agrees _ c rfl).before _).of_eq
      intro ds
      simp [countedQuoteLevel, fl, callEvents]
  | true =>
      by_cases sp : c = ' '
      · apply Agrees.of_one
        intro ds
        simp [countedQuoteLevel, deref, fl, sp, callEvents, also]
      · simp only [Bool.not_true, Bool.false_eq_true, if_false, if_neg sp]
        apply ((startContentLine_agrees _ c).before _).of_eq
        intro ds
        simp [countedQuoteLevel, deref, fl, sp, callEvents]

theorem countQuoteLevel_quotes (cs : List Char) (i : Nat)
    (run : (cs.takeWhile fun c => c = '>' && h.isflowed).length = i + 1) :
    countQuoteLevel h (some cs) =
      some (i + 1,
        { h with
          quoteLevel := h.quoteLevel + (i + 1)
          contentHandler :=
            if i + 1 = cs.length then h.contentHandler else .countedQuoteLevel },
        []) := by
  simp only [countQuoteLevel, run]
  by_cases all : i + 1 = cs.length
  · simp [all]
  · simp [all]

theorem countQuoteLevel_agrees (counting : h.contentHandler = .countQuoteLevel) :
    Agrees contentCall (fun cs => flat (countQuoteLevel h (some cs))) c (countChar h c) := by
  by_cases quote : c = '>' ∧ h.isflowed
  · have counts : (decide (c = '>') && h.isflowed) = true := by simp [quote]
    rw [countChar, if_pos quote]
    constructor
    · simp [countQuoteLevel, quote]
    · intro d ds
      have long : ∀ i, ((d :: ds).takeWhile fun c => c = '>' && h.isflowed).length = i →
          ((c :: d :: ds).takeWhile fun c => c = '>' && h.isflowed).length = i + 1 := by
        intro i run
        rw [List.takeWhile_cons, if_pos counts, List.length_cons, run]
      cases run : ((d :: ds).takeWhile fun c => c = '>' && h.isflowed).length with
      | zero =>
          left
          refine ⟨{ h with contentHandler := .countedQuoteLevel, quoteLevel := h.quoteLevel + 1 }, ?_, ?_⟩
          · rw [countQuoteLevel_quotes h _ 0 (long 0 run)]
            simp
          · simp [contentCall, content, counting, countQuoteLevel, run]
      | succ i =>
          right
          refine ⟨i, { h with
            quoteLevel := h.quoteLevel + (i + 1 + 1)
            contentHandler := if i + 1 + 1 = (c :: d :: ds).length then h.contentHandler
              else .countedQuoteLevel }, [], ?_, ?_⟩
          · have dispatch : contentCall { h with quoteLevel := h.quoteLevel + 1 } (d :: ds) =
                flat (countQuoteLevel { h with quoteLevel := h.quoteLevel + 1 } (some (d :: ds))) := by
              simp only [contentCall, content, counting]
            rw [dispatch, countQuoteLevel_quotes { h with quoteLevel := h.quoteLevel + 1 } _ i run]
            simp [Nat.add_comm, Nat.add_left_comm]
          · rw [countQuoteLevel_quotes h _ (i + 1) (long (i + 1) run)]
            rfl
  · rw [countChar, if_neg quote]
    apply (countedQuoteLevel_agrees _ c).of_eq
    intro ds
    have stops : (decide (c = '>') && h.isflowed) = false := by simpa using quote
    simp [countQuoteLevel, stops]

theorem content_peels : Peels contentCall contentChar := by
  intro h c
  unfold contentChar
  cases handler : h.contentHandler with
  | startOfLine =>
      apply (countQuoteLevel_agrees _ c rfl).of_eq
      intro ds
      simp only [contentCall, content, handler, startOfLine]
  | countQuoteLevel =>
      apply (countQuoteLevel_agrees h c handler).of_eq
      intro ds
      simp only [contentCall, content, handler]
  | countedQuoteLevel =>
      apply (countedQuoteLevel_agrees h c).of_eq
      intro ds
      simp only [contentCall, content, handler]
  | startContentLine =>
      apply (startContentLine_agrees h c).of_eq
      intro ds
      simp only [contentCall, content, handler]
  | checkSignatureBlock =>
      apply (checkSignatureBlock_agrees h c).of_eq
      intro ds
      simp only [contentCall, content, handler]
  | seenSigBlock =>
      apply (seenSigBlock_agrees h c).of_eq
      intro ds
      simp only [contentCall, content, handler]
  | scanContentLine =>
      apply (scanContentLine_agrees h c handler).of_eq
      intro ds
      simp only [contentCall, content, handler]
  | seenContentSp =>
      apply (seenContentSp_agrees h c).of_eq
      intro ds
      simp only [contentCall, content, handler]

end Agreement

section LineLayer
variable (h : Parser) (c : Char)

def lineChar : Parser × List Event :=
  match h.lineHandler with
  | .scanCrlf =>
    if c = '\r' then ({ h with lineHandler := .scanCrlfSeenCr }, [])
    else
      let r := contentChar h.toContent c
      ({ h with toContent := r.1 }, r.2)
  | .scanCrlfSeenCr =>
    let r := run contentChar h.toContent (if c = '\n' then [] else ['\r'])
    also r.2
      (if c = '\r' then ({ h with toContent := r.1, lineHandler := .scanCrlfSeenCr }, [])
      else
        let r' := contentChar r.1 c
        ({ toContent := r'.1, lineHandler := .scanCrlf }, r'.2))

def lineCall (h : Parser) (cs : List Char) : Handled Parser Event := flat (line h (some cs))

theorem contents_eq_run (cs : List Char) :
    (contents h cs).map (fun r => (r.1, flatten r.2)) =
      some ({ h with toContent := (run contentChar h.toContent cs).1 },
        (run contentChar h.toContent cs).2) := by
  have fed := feed_eq_run content_peels cs h.toContent cs.length (Nat.le_refl _)
  unfold contentCall at fed
  rw [feed_flat] at fed
  rw [contents]
  cases got : feed (fun h cs => content h (some cs)) cs.length h.toContent cs with
  | none => simp [got] at fed
  | some r =>
      rw [got] at fed
      have same := Option.some.inj fed
      simp [← same]

theorem flat_scanCrlf_text (cs text : List Char) (span : cs.takeWhile (· ≠ '\r') = text)
    (ne : text ≠ []) :
    flat (scanCrlf h (some cs)) =
      some (text.length, { h with toContent := (run contentChar h.toContent text).1 },
        (run contentChar h.toContent text).2) := by
  have fed := contents_eq_run h text
  simp only [scanCrlf, span, if_pos ne]
  cases got : contents h text with
  | none => simp [got] at fed
  | some r =>
      rw [got] at fed
      have same := Option.some.inj fed
      simp [flat, ← same]

theorem scanCrlf_agrees (scanning : h.lineHandler = .scanCrlf) :
    Agrees lineCall (fun cs => flat (scanCrlf h (some cs))) c (lineChar h c) := by
  have step : lineChar h c =
      if c = '\r' then ({ h with lineHandler := .scanCrlfSeenCr }, [])
      else ({ h with toContent := (contentChar h.toContent c).1 }, (contentChar h.toContent c).2) := by
    rw [lineChar, scanning]
  rw [step]
  by_cases cr : c = '\r'
  · apply Agrees.of_one
    intro ds
    simp [scanCrlf, cr]
  · rw [if_neg cr]
    have span : ∀ ds : List Char, (c :: ds).takeWhile (· ≠ '\r') = c :: ds.takeWhile (· ≠ '\r') := by
      intro ds
      simp [cr]
    constructor
    · rw [flat_scanCrlf_text h _ _ (span []) (by simp)]
      simp
    · intro d ds
      rw [flat_scanCrlf_text h _ _ (span (d :: ds)) (by simp)]
      cases later : (d :: ds).takeWhile (· ≠ '\r') with
      | nil =>
          left
          refine ⟨{ h with toContent := (contentChar h.toContent c).1 }, ?_, rfl⟩
          simp
      | cons e es =>
          right
          refine ⟨es.length,
            { h with toContent := (run contentChar (contentChar h.toContent c).1 (e :: es)).1 },
            (run contentChar (contentChar h.toContent c).1 (e :: es)).2, ?_, ?_⟩
          · simp only [lineCall, line, scanning]
            rw [flat_scanCrlf_text _ _ _ later (by simp)]
            rfl
          · rfl

theorem flat_scanCrlfSeenCr (cs : List Char) (notNl : cs.head? ≠ some '\n') :
    flat (scanCrlfSeenCr h (some cs)) =
      before (run contentChar h.toContent ['\r']).2
        (flat (scanCrlf
          { toContent := (run contentChar h.toContent ['\r']).1, lineHandler := .scanCrlf }
          (some cs))) := by
  have fed := contents_eq_run { h with lineHandler := .scanCrlf } ['\r']
  have looks : deref (some cs) ≠ some '\n' := notNl
  simp only [scanCrlfSeenCr, if_pos looks]
  cases got : contents { h with lineHandler := .scanCrlf } ['\r'] with
  | none => simp [got] at fed
  | some r =>
      rw [got] at fed
      have same := Option.some.inj fed
      simp only [Prod.mk.injEq] at same
      simp [same]

theorem scanCrlfSeenCr_agrees (seen : h.lineHandler = .scanCrlfSeenCr) :
    Agrees lineCall (fun cs => flat (scanCrlfSeenCr h (some cs))) c (lineChar h c) := by
  by_cases nl : c = '\n'
  · have notCr : ¬c = '\r' := by simp [nl]
    have scan := scanCrlf_agrees { h with lineHandler := .scanCrlf } c rfl
    have step : lineChar h c = lineChar { h with lineHandler := .scanCrlf } c := by
      simp [lineChar, seen, nl, also]
    rw [step]
    apply scan.of_eq
    intro ds
    simp [scanCrlfSeenCr, deref, nl]
  · have scan := scanCrlf_agrees
      { toContent := (run contentChar h.toContent ['\r']).1, lineHandler := .scanCrlf } c rfl
    have step : lineChar h c = also (run contentChar h.toContent ['\r']).2 (lineChar
        { toContent := (run contentChar h.toContent ['\r']).1, lineHandler := .scanCrlf } c) := by
      simp [lineChar, seen, nl]
    rw [step]
    apply (scan.before _).of_eq
    intro ds
    exact flat_scanCrlfSeenCr h (c :: ds) (by simpa using nl)

theorem line_peels : Peels lineCall lineChar := by
  intro h c
  cases handler : h.lineHandler with
  | scanCrlf =>
      apply (scanCrlf_agrees h c handler).of_eq
      intro ds
      simp only [lineCall, line, handler]
  | scanCrlfSeenCr =>
      apply (scanCrlfSeenCr_agrees h c handler).of_eq
      intro ds
      simp only [lineCall, line, handler]

theorem parseUnicode_eq_run (cs : List Char) (fuel : Nat) (enough : cs.length ≤ fuel) :
    (parseUnicode fuel h cs).map (fun r => (r.1, flatten r.2)) = some (run lineChar h cs) := by
  induction fuel generalizing h cs with
  | zero =>
      cases cs with
      | nil => rfl
      | cons c cs => simp at enough
  | succ fuel ih =>
      cases cs with
      | nil => rfl
      | cons c cs =>
          have fed := feed_eq_run line_peels ((c :: cs).take ucs4buf) h
            ((c :: cs).take ucs4buf).length (Nat.le_refl _)
          unfold lineCall at fed
          rw [feed_flat] at fed
          have fewer : ((c :: cs).drop ucs4buf).length ≤ fuel := by
            simp only [List.length_cons] at enough
            simp only [List.length_drop, List.length_cons, ucs4buf]
            omega
          simp only [parseUnicode]
          cases got : feed (fun h cs => line h (some cs)) ((c :: cs).take ucs4buf).length h
              ((c :: cs).take ucs4buf) with
          | none =>
              rw [got] at fed
              cases fed
          | some r =>
              rw [got] at fed
              have same := Option.some.inj fed
              have rest := ih r.1 _ fewer
              have whole := run_append lineChar h ((c :: cs).take ucs4buf) ((c :: cs).drop ucs4buf)
              rw [List.take_append_drop, ← same] at whole
              cases left : parseUnicode fuel r.1 ((c :: cs).drop ucs4buf) with
              | none => simp [left] at rest
              | some r' =>
                  rw [left] at rest
                  have same' := Option.some.inj rest
                  simp [left, whole, ← same']

theorem rfc3676parser_eq_run (pieces : List (List Char)) :
    (rfc3676parser h pieces).map (fun r => (r.1, flatten r.2)) =
      some (run lineChar h pieces.flatten) := by
  induction pieces generalizing h with
  | nil => rfl
  | cons cs pieces ih =>
      have first := parseUnicode_eq_run h cs cs.length (Nat.le_refl _)
      simp only [rfc3676parser, List.flatten_cons]
      rw [run_append]
      cases got : parseUnicode cs.length h cs with
      | none => simp [got] at first
      | some r =>
          rw [got] at first
          have same := Option.some.inj first
          have rest := ih r.1
          rw [← same]
          cases left : rfc3676parser r.1 pieces with
          | none => simp [left] at rest
          | some r' =>
              rw [left] at rest
              have same' := Option.some.inj rest
              simp [left, ← same']

end LineLayer

end Cone.Rfc3676Peel
