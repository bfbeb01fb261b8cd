import Cone.CdecodeSplits
import Cone.Lib.Leftover

/-! # The transfer decoders of the IMAP driver

`mail::decodeqp` of qp.C and `mail::decodebase64` of base64.C, and what they deliver of a
well-formed text next to `rfc2045_cdecode`. -/
set_option autoImplicit false
namespace Cone.TransferDecoders

open Cone.Ctype Cone.TransferRoundTrip Cone.CdecodeLines Cone.CdecodeSplits
open Cone.Cdecode (qpLoop decode64 decodeQuad decodeQuads tou)
open Cone.Lib.QuotedPrintable (EQ)
open Cone.Lib.Leftover

section Decodeqp

abbrev Text := List UInt8

def xdigits : Text := str "0123456789ABCDEFabcdef"

def xdigit (c : UInt8) : Option Nat :=
  (strchr (xdigits ++ [NUL]) c).map fun n => if n ≥ 16 then n - 6 else n

def afterCR : Text → Option (Text × Text)
  | [] => none
  | c :: text =>
    if c = NL then some ([], text)
    else
      match xdigit c with
      | none => some ([], text)
      | some a1 =>
        match text with
        | [] => none
        | c :: text =>
          match xdigit c with
          | none => some ([], text)
          | some a2 => some ([UInt8.ofNat (a1 * 16 + a2)], text)

/-- What follows a `=`. -/
def escaped : Text → Option (Text × Text)
  | [] => none
  | c :: text => if c = CR then afterCR text else afterCR (c :: text)

/-- The loop of `decode`: `decodedString`, and the leftovers. -/
def decodeText : Nat → Text → Text × Text
  | 0, b => ([], b)
  | fuel + 1, b =>
    match b.dropWhile (· ≠ EQ) with
    | [] => (b, [])
    | c :: text =>
      match escaped text with
      | none => (b.takeWhile (· ≠ EQ), c :: text)
      | some (decoded, text) =>
        let r := decodeText fuel text
        (b.takeWhile (· ≠ EQ) ++ decoded ++ r.1, r.2)

/-- `decodeBuffer`, and what was handed to `decoded`. -/
abbrev Decoder := Text × Text

def decodeqp (d : Decoder) (text : Text) : Decoder :=
  let text := d.1 ++ text
  let r := decodeText (text.length + 1) text
  (r.2, d.2 ++ r.1)

end Decodeqp

section Decodebase64
variable (BUFSIZ : Nat)

def decodeGroups : Text → Text → Text → Text × Text
  | d :: e :: f :: g :: b, workbuf, decodedbuf =>
    if (workbuf ++ decodeQuad d e f g).length ≥ BUFSIZ - 10 then
      decodeGroups b [] (decodedbuf ++ (workbuf ++ decodeQuad d e f g))
    else decodeGroups b (workbuf ++ decodeQuad d e f g) decodedbuf
  | left, workbuf, decodedbuf => (decodedbuf ++ workbuf, left)

def decodebase64 (d : Decoder) (text : Text) : Decoder :=
  let r := decodeGroups BUFSIZ (d.1 ++ text.filter (decode64 · ≠ 100)) [] []
  (r.2, d.2 ++ r.1)

def delivered (te : TransferEncoding) (calls : List Text) : Text :=
  match te with
  | .quotedPrintable => (calls.foldl decodeqp ([], [])).2
  | .base64 => (calls.foldl (decodebase64 BUFSIZ) ([], [])).2

end Decodebase64

section WellFormed

inductive Token where
  | literal (c : UInt8)
  | escape (c1 c2 : UInt8)
  | softBreak (padding : Text) (crlf : Bool)
  deriving DecidableEq, Repr

def newline (crlf : Bool) : Text := if crlf then [CR, NL] else [NL]

def Token.render : Token → Text
  | .literal c => [c]
  | .escape c1 c2 => [EQ, c1, c2]
  | .softBreak padding crlf => EQ :: padding ++ newline crlf

def hexValue (c : UInt8) : Nat := ((strchr Ctype.xdigit (tou c)).getD 0)

def Token.value : Token → Text
  | .literal c => [c]
  | .escape c1 c2 => [UInt8.ofNat (hexValue c1 * 16 + hexValue c2)]
  | .softBreak _ _ => []

def Token.Valid : Token → Prop
  | .literal c => c ≠ EQ
  | .escape c1 c2 => c1 ∈ xdigits ∧ c2 ∈ xdigits
  | .softBreak padding _ => ∀ c ∈ padding, c = SP ∨ c = TAB

instance (t : Token) : Decidable t.Valid :=
  match t with
  | .literal c => inferInstanceAs (Decidable (c ≠ EQ))
  | .escape c1 c2 => inferInstanceAs (Decidable (c1 ∈ xdigits ∧ c2 ∈ xdigits))
  | .softBreak padding _ => inferInstanceAs (Decidable (∀ c ∈ padding, c = SP ∨ c = TAB))

inductive Encoded where
  | quotedPrintable (tokens : List Token)
  | base64 (text : Text)
  deriving DecidableEq, Repr

def Encoded.encoding : Encoded → TransferEncoding
  | .quotedPrintable _ => .quotedPrintable
  | .base64 _ => .base64

def Encoded.text : Encoded → Text
  | .quotedPrintable tokens => tokens.flatMap Token.render
  | .base64 text => text

def LinesFit (text : Text) : Prop := ∀ line, line <:+: text → NL ∉ line → line.length ≤ 1024

def Encoded.Valid : Encoded → Prop
  | .quotedPrintable tokens => (∀ t ∈ tokens, t.Valid) ∧ LinesFit (tokens.flatMap Token.render)
  | .base64 _ => True

def Encoded.Padded : Encoded → Prop
  | .quotedPrintable tokens => ∃ padding crlf, .softBreak padding crlf ∈ tokens ∧ padding ≠ []
  | .base64 _ => False

end WellFormed

section DecodeqpSpec
variable {text rest decoded : Text}

theorem afterCR_append (h : afterCR text = some (decoded, rest)) (b : Text) :
    afterCR (text ++ b) = some (decoded, rest ++ b) ∧ rest.length < text.length := by
  cases text with
  | nil => cases h
  | cons c text =>
      simp only [afterCR, List.cons_append] at h ⊢
      by_cases hnl : c = NL
      · rw [if_pos hnl, Option.some.injEq, Prod.mk.injEq] at h
        obtain ⟨rfl, rfl⟩ := h
        rw [if_pos hnl]
        exact ⟨rfl, Nat.lt_succ_self _⟩
      · rw [if_neg hnl] at h ⊢
        cases hc : xdigit c with
        | none =>
            simp only [hc, Option.some.injEq, Prod.mk.injEq] at h
            obtain ⟨rfl, rfl⟩ := h
            exact ⟨rfl, Nat.lt_succ_self _⟩
        | some a1 =>
            simp only [hc] at h
            cases text with
            | nil => cases h
            | cons d text =>
                simp only [List.cons_append, List.length_cons] at h ⊢
                cases hd : xdigit d with
                | none =>
                    simp only [hd, Option.some.injEq, Prod.mk.injEq] at h
                    obtain ⟨rfl, rfl⟩ := h
                    exact ⟨rfl, by omega⟩
                | some a2 =>
                    simp only [hd, Option.some.injEq, Prod.mk.injEq] at h
                    obtain ⟨rfl, rfl⟩ := h
                    exact ⟨rfl, by omega⟩

theorem escaped_append (h : escaped text = some (decoded, rest)) (b : Text) :
    escaped (text ++ b) = some (decoded, rest ++ b) ∧ rest.length < text.length := by
  cases text with
  | nil => cases h
  | cons c text =>
      rw [List.cons_append]
      rw [escaped] at h ⊢
      by_cases hcr : c = CR
      · rw [if_pos hcr] at h ⊢
        obtain ⟨happend, hlt⟩ := afterCR_append h b
        exact ⟨happend, Nat.lt_succ_of_lt hlt⟩
      · rw [if_neg hcr] at h ⊢
        exact afterCR_append h b

theorem decodeText_fuel (fuel : Nat) (text : Text) (h : text.length < fuel) :
    decodeText fuel text = decodeText (text.length + 1) text := by
  induction fuel using Nat.strongRecOn generalizing text with
  | ind fuel ih =>
      cases fuel with
      | zero => omega
      | succ fuel =>
          rw [decodeText, decodeText]
          cases hdrop : text.dropWhile (· ≠ EQ) with
          | nil => rfl
          | cons c after =>
              have hle : (c :: after).length ≤ text.length :=
                hdrop ▸ (List.dropWhile_sublist _).length_le
              rw [List.length_cons] at hle
              cases hescaped : escaped after with
              | none => simp only [hescaped]
              | some found =>
                  obtain ⟨decoded, rest⟩ := found
                  have hlt := (escaped_append hescaped []).2
                  have hleft := ih fuel (Nat.lt_succ_self _) rest (by omega)
                  have hright := ih text.length h rest (by omega)
                  simp only [hescaped, hleft, hright]

/-- The loop with enough turns. -/
def decodeAll (text : Text) : Text × Text := decodeText (text.length + 1) text

theorem decodeAll_nil : decodeAll [] = ([], []) := rfl

theorem decodeAll_literal {c : UInt8} (hc : c ≠ EQ) (text : Text) :
    decodeAll (c :: text) = (c :: (decodeAll text).1, (decodeAll text).2) := by
  have hdrop : (c :: text).dropWhile (· ≠ EQ) = text.dropWhile (· ≠ EQ) := by simp [hc]
  have htake : (c :: text).takeWhile (· ≠ EQ) = c :: text.takeWhile (· ≠ EQ) := by simp [hc]
  have hfuel : decodeAll text = decodeText (text.length + 2) text :=
    (decodeText_fuel (text.length + 2) text (by omega)).symm
  rw [hfuel, decodeAll, List.length_cons, decodeText, decodeText, hdrop, htake]
  cases hcut : text.dropWhile (· ≠ EQ) with
  | nil => rfl
  | cons d after =>
      cases hescaped : escaped after with
      | none => simp only [hescaped]
      | some found => simp only [hescaped, List.cons_append]

theorem takeWhile_EQ (text : Text) : (EQ :: text).takeWhile (· ≠ EQ) = [] := by simp

theorem dropWhile_EQ (text : Text) : (EQ :: text).dropWhile (· ≠ EQ) = EQ :: text := by simp

theorem decodeAll_cut (h : escaped text = none) : decodeAll (EQ :: text) = ([], EQ :: text) := by
  rw [decodeAll, decodeText, dropWhile_EQ, takeWhile_EQ]
  simp only [h]

theorem decodeAll_escaped (h : escaped text = some (decoded, rest)) :
    decodeAll (EQ :: text) = (decoded ++ (decodeAll rest).1, (decodeAll rest).2) := by
  have hlt := (escaped_append h []).2
  have hfuel := decodeText_fuel (EQ :: text).length rest (by rw [List.length_cons]; omega)
  rw [decodeAll, decodeText, dropWhile_EQ, takeWhile_EQ]
  simp only [h, hfuel, List.nil_append]
  rfl

theorem decodeAll_resumes : Resumes decodeAll := by
  intro a b
  induction hn : a.length using Nat.strongRecOn generalizing a with
  | ind n ih =>
      cases a with
      | nil => simp [decodeAll_nil]
      | cons c a =>
          rw [List.length_cons] at hn
          by_cases hc : c = EQ
          · subst hc
            cases hescaped : escaped a with
            | none => rw [decodeAll_cut hescaped, List.nil_append]
            | some found =>
                obtain ⟨decoded, rest⟩ := found
                obtain ⟨happend, hlt⟩ := escaped_append hescaped b
                rw [decodeAll_escaped hescaped, List.cons_append, decodeAll_escaped happend,
                  ih rest.length (by omega) rest rfl, List.append_assoc]
          · rw [List.cons_append, decodeAll_literal hc, decodeAll_literal hc,
              ih a.length (by omega) a rfl, List.cons_append]

theorem delivered_quotedPrintable (BUFSIZ : Nat) (calls : List Text) :
    delivered BUFSIZ .quotedPrintable calls = (decodeAll calls.flatten).1 := by
  have hrun := decodeAll_resumes.foldl_call calls (d := ([], [])) decodeAll_nil
  exact congrArg Prod.snd hrun

end DecodeqpSpec

section TokensSpec
variable {t : Token} {tokens : List Token}

theorem hex_facts : ∀ c ∈ xdigits, c ≠ CR ∧ c ≠ NL ∧ c ≠ EQ ∧ c ≠ NUL ∧ isspace c = false ∧
    xdigit c = some (hexValue c) ∧ strchr Ctype.xdigit (tou c) = some (hexValue c) := by
  decide +kernel

/-- What `decodeqp` makes of a token: of the padding it drops one byte, and the line end stays. -/
def Token.decoded : Token → Text
  | .softBreak (_ :: padding) crlf => padding ++ newline crlf
  | t => t.value

theorem decodeAll_literals {u : Text} (hu : EQ ∉ u) (rest : Text) :
    decodeAll (u ++ rest) = (u ++ (decodeAll rest).1, (decodeAll rest).2) := by
  induction u with
  | nil => rfl
  | cons c u ih =>
      obtain ⟨hc, hu⟩ := not_or.1 (mt List.mem_cons.2 hu)
      rw [List.cons_append, decodeAll_literal (Ne.symm hc), ih hu, List.cons_append]

theorem decodeAll_token (ht : t.Valid) (rest : Text) :
    decodeAll (t.render ++ rest) =
      (t.decoded ++ (decodeAll rest).1, (decodeAll rest).2) := by
  cases t with
  | literal c => exact decodeAll_literal ht rest
  | escape c1 c2 =>
      obtain ⟨hcr, hnl, -, -, -, hc1, -⟩ := hex_facts c1 ht.1
      obtain ⟨-, -, -, -, -, hc2, -⟩ := hex_facts c2 ht.2
      have hescaped : escaped (c1 :: c2 :: rest) =
          some ([UInt8.ofNat (hexValue c1 * 16 + hexValue c2)], rest) := by
        simp only [escaped, afterCR, if_neg hcr, if_neg hnl, hc1, hc2]
      exact decodeAll_escaped hescaped
  | softBreak padding crlf =>
      cases padding with
      | nil =>
          have hescaped : escaped (newline crlf ++ rest) = some ([], rest) := by
            cases crlf <;> rfl
          exact decodeAll_escaped hescaped
      | cons c padding =>
          obtain ⟨hc, hpadding⟩ := List.forall_mem_cons.1 ht
          have hescaped : escaped (c :: (padding ++ (newline crlf ++ rest))) =
              some ([], padding ++ (newline crlf ++ rest)) := by
            rcases hc with rfl | rfl <;> rfl
          have hliteral : EQ ∉ padding ++ newline crlf := by
            rw [List.mem_append, not_or]
            refine ⟨fun mem => ?_, by cases crlf <;> decide⟩
            rcases hpadding EQ mem with h | h <;> exact absurd h (by decide)
          have hcut : Token.render (.softBreak (c :: padding) crlf) ++ rest =
              EQ :: c :: (padding ++ (newline crlf ++ rest)) := by
            simp [Token.render]
          rw [hcut, decodeAll_escaped hescaped, List.nil_append, ← List.append_assoc,
            decodeAll_literals hliteral]
          rfl

theorem decodeAll_tokens (h : ∀ t ∈ tokens, t.Valid) :
    decodeAll (tokens.flatMap Token.render) = (tokens.flatMap Token.decoded, []) := by
  induction tokens with
  | nil => rfl
  | cons t tokens ih =>
      obtain ⟨ht, hrest⟩ := List.forall_mem_cons.1 h
      rw [List.flatMap_cons, decodeAll_token ht, ih hrest, List.flatMap_cons]

def Token.Hard : Token → Prop
  | .softBreak _ _ => False
  | _ => True

theorem qpLoop_tokens (h : ∀ t ∈ tokens, t.Valid ∧ t.Hard) (rest : Text) :
    qpLoop (tokens.flatMap Token.render ++ rest) =
      tokens.flatMap Token.value ++ qpLoop rest := by
  induction tokens with
  | nil => rfl
  | cons t tokens ih =>
      obtain ⟨⟨ht, hhard⟩, hrest⟩ := List.forall_mem_cons.1 h
      rw [List.flatMap_cons, List.flatMap_cons, List.append_assoc, List.append_assoc, ← ih hrest]
      cases t with
      | literal c => exact qpLoop_literal c _ ht
      | escape c1 c2 =>
          obtain ⟨-, -, -, hnul, hspace, -, hc1⟩ := hex_facts c1 ht.1
          obtain ⟨-, -, -, hnul', -, -, hc2⟩ := hex_facts c2 ht.2
          simp [Token.render, Token.value, qpLoop, show EQ = byte '=' from rfl, hnul, hspace, hc1,
            hnul', hc2]
      | softBreak padding crlf => exact hhard.elim

theorem lineByLine_run {u : Text} (hu : NL ∉ u) (w rest : Text) :
    lineByLine w (u ++ rest) = lineByLine (w ++ u) rest := by
  induction u generalizing w with
  | nil => simp
  | cons c u ih =>
      obtain ⟨hc, hu⟩ := not_or.1 (mt List.mem_cons.2 hu)
      rw [List.cons_append, lineByLine, if_pos (Ne.symm hc), ih hu, List.append_assoc]
      rfl

theorem lineByLine_newline (w rest : Text) :
    lineByLine w (NL :: rest) = qpLoop (w ++ [NL]) ++ lineByLine [] rest := by
  rw [lineByLine, if_neg (not_not.2 rfl)]

theorem softBreak_render {padding : Text} (crlf : Bool) (h : ∀ c ∈ padding, c = SP ∨ c = TAB) :
    ∃ u x a, NL ∉ EQ :: u ∧ Token.render (.softBreak padding crlf) = (EQ :: u) ++ [NL] ∧
      u ++ [NL] = x :: a ∧ isspace x = true := by
  have hpadding : NL ∉ padding := by
    intro mem
    rcases h NL mem with h | h <;> exact absurd h (by decide)
  have hnl : NL ∉ EQ :: (padding ++ if crlf then [CR] else []) := by
    cases crlf <;> simp [hpadding, show NL ≠ EQ by decide, show NL ≠ CR by decide]
  have hrender : Token.render (.softBreak padding crlf) =
      (EQ :: (padding ++ if crlf then [CR] else [])) ++ [NL] := by
    cases crlf <;> simp [Token.render, newline]
  cases padding with
  | nil =>
      cases crlf with
      | false => exact ⟨_, NL, [], hnl, hrender, rfl, by decide⟩
      | true => exact ⟨_, CR, [NL], hnl, hrender, rfl, by decide⟩
  | cons c padding =>
      refine ⟨_, c, _, hnl, hrender, rfl, ?_⟩
      rcases h c (List.mem_cons_self ..) with rfl | rfl <;> decide

theorem lineByLine_tokens {front : List Token} (hfront : ∀ t ∈ front, t.Valid ∧ t.Hard)
    (h : ∀ t ∈ tokens, t.Valid) :
    lineByLine (front.flatMap Token.render) (tokens.flatMap Token.render) =
      front.flatMap Token.value ++ tokens.flatMap Token.value := by
  induction tokens generalizing front with
  | nil =>
      have hend := qpLoop_tokens hfront []
      simpa [lineByLine] using hend
  | cons t tokens ih =>
      obtain ⟨ht, hrest⟩ := List.forall_mem_cons.1 h
      -- a token within the line joins the front
      have hinside (hhard : t.Hard) (hnl : NL ∉ t.render) :
          lineByLine (front.flatMap Token.render) (t.render ++ tokens.flatMap Token.render) =
            front.flatMap Token.value ++ (t.value ++ tokens.flatMap Token.value) := by
        have hjoin := @ih (front ++ [t])
          (List.forall_mem_append.2 ⟨hfront, List.forall_mem_singleton.2 ⟨ht, hhard⟩⟩) hrest
        simp only [List.flatMap_append, List.flatMap_singleton, List.append_assoc] at hjoin
        rw [lineByLine_run hnl, hjoin]
      have hnext := @ih [] (fun _ no => absurd no List.not_mem_nil) hrest
      rw [List.flatMap_nil, List.flatMap_nil, List.nil_append] at hnext
      rw [List.flatMap_cons, List.flatMap_cons]
      cases t with
      | literal c =>
          by_cases hc : c = NL
          · subst hc
            rw [Token.render, List.singleton_append, lineByLine_newline, hnext,
              qpLoop_tokens hfront, qpLoop_literal NL [] (by decide), qpLoop_nil,
              List.append_assoc]
            rfl
          · exact hinside trivial (by simpa [Token.render, eq_comm] using hc)
      | escape c1 c2 =>
          refine hinside trivial ?_
          have h1 := (hex_facts c1 ht.1).2.1
          have h2 := (hex_facts c2 ht.2).2.1
          simp [Token.render, h1.symm, h2.symm, show NL ≠ EQ by decide]
      | softBreak padding crlf =>
          obtain ⟨u, x, a, hnl, hrender, hu, hx⟩ := softBreak_render crlf ht
          have hspace : (x = NUL || isspace x) = true := by rw [hx, Bool.or_true]
          have hdropped : qpLoop (EQ :: (u ++ [NL])) = [] := by
            rw [hu]
            exact qpLoop_space _ _ hspace
          rw [hrender, List.append_assoc, lineByLine_run hnl, List.singleton_append,
            lineByLine_newline, hnext, List.append_assoc, qpLoop_tokens hfront, List.cons_append,
            hdropped, List.append_nil]
          rfl

end TokensSpec

section CdecodeSpec
variable {tokens : List Token} {calls : List Text}

theorem lastLine_infix {w : Text} (hw : NL ∉ w) (s : Text) :
    NL ∉ lastLine w s ∧ lastLine w s <:+ w ++ s := by
  induction s generalizing w with
  | nil => exact ⟨hw, by rw [lastLine, List.append_nil]⟩
  | cons c s ih =>
      rw [lastLine]
      by_cases hc : c = NL
      · obtain ⟨hnl, hinfix⟩ := @ih [] List.not_mem_nil
        rw [if_neg (not_not.2 hc)]
        refine ⟨hnl, hinfix.trans ?_⟩
        rw [List.nil_append, ← List.singleton_append, ← List.append_assoc]
        exact List.suffix_append _ s
      · have hnext : NL ∉ w ++ [c] := by
          simpa [hw] using Ne.symm hc
        obtain ⟨hnl, hinfix⟩ := ih hnext
        rw [if_pos hc]
        refine ⟨hnl, ?_⟩
        rwa [List.append_assoc] at hinfix

theorem buffers_short {w : Text} (hw : NL ∉ w) (hfit : LinesFit (w ++ calls.flatten)) :
    ∀ b ∈ buffers w calls, b.length ≤ 1024 := by
  induction calls generalizing w with
  | nil => nofun
  | cons s calls ih =>
      obtain ⟨hnl, hsuffix⟩ := lastLine_infix hw s
      have hshort : (lastLine w s).length ≤ 1024 := by
        refine hfit _ (hsuffix.isInfix.trans ?_) hnl
        rw [List.flatten_cons, ← List.append_assoc]
        exact (List.prefix_append _ _).isInfix
      have hflush : flushRest (lastLine w s) = lastLine w s := by
        rw [flushRest, if_neg (by omega)]
      intro b mem
      rcases List.mem_cons.1 mem with rfl | mem
      · exact hshort
      · rw [hflush] at mem
        refine ih hnl (fun line hline => hfit line (hline.trans ?_)) b mem
        obtain ⟨front, hfront⟩ := hsuffix
        rw [List.flatten_cons, ← List.append_assoc, ← hfront, List.append_assoc]
        exact (List.suffix_append _ _).isInfix

theorem decode_tokens (hvalid : ∀ t ∈ tokens, t.Valid)
    (hfit : LinesFit (tokens.flatMap Token.render))
    (hcalls : calls.flatten = tokens.flatMap Token.render) :
    decode .quotedPrintable calls = (0, tokens.flatMap Token.value) := by
  have hclean : Clean calls := by
    intro b mem hlong
    have hshort := buffers_short List.not_mem_nil (by rwa [List.nil_append, hcalls]) b mem
    omega
  have hlines := @lineByLine_tokens tokens [] nofun hvalid
  rw [decode_clean calls hclean, hcalls]
  exact congrArg (Prod.mk 0) hlines

theorem value_length_le (t : Token) : t.value.length ≤ t.decoded.length := by
  cases t with
  | literal c => exact Nat.le_refl _
  | escape c1 c2 => exact Nat.le_refl _
  | softBreak padding crlf => exact Nat.zero_le _

theorem decoded_eq_value_iff :
    tokens.flatMap Token.decoded = tokens.flatMap Token.value ↔
      ¬(Encoded.quotedPrintable tokens).Padded := by
  have hle (tokens : List Token) :
      (tokens.flatMap Token.value).length ≤ (tokens.flatMap Token.decoded).length := by
    induction tokens with
    | nil => exact Nat.le_refl 0
    | cons t tokens ih =>
        simp only [List.flatMap_cons, List.length_append]
        exact Nat.add_le_add (value_length_le t) ih
  constructor
  · rintro heq ⟨padding, crlf, mem, hpadding⟩
    obtain ⟨front, back, rfl⟩ := List.append_of_mem mem
    have hlength := congrArg List.length heq
    simp only [List.flatMap_append, List.flatMap_cons, List.length_append] at hlength
    have hfront := hle front
    have hback := hle back
    obtain ⟨c, padding, rfl⟩ := List.exists_cons_of_ne_nil hpadding
    have hend : 0 < (newline crlf).length := by cases crlf <;> decide
    simp only [Token.decoded, Token.value, List.length_append, List.length_nil] at hlength
    omega
  · intro hnone
    refine List.flatMap_congr fun t mem => ?_
    cases t with
    | literal c => rfl
    | escape c1 c2 => rfl
    | softBreak padding crlf =>
        cases padding with
        | nil => rfl
        | cons c padding => exact absurd ⟨_, crlf, mem, List.cons_ne_nil c padding⟩ hnone

end CdecodeSpec

section Base64Spec
variable {BUFSIZ : Nat}

theorem decodeGroups_eq (b workbuf decodedbuf : Text) :
    decodeGroups BUFSIZ b workbuf decodedbuf =
      (decodedbuf ++ workbuf ++ (decodeQuads b).1, (decodeQuads b).2) := by
  induction b using Cone.Cdecode.decodeQuads.induct generalizing workbuf decodedbuf with
  | case1 d e f g b ih =>
      rw [decodeGroups, decodeQuads]
      split
      · rw [ih]
        simp only [List.append_nil, List.append_assoc]
      · rw [ih]
        simp only [List.append_assoc]
  | case2 left short =>
      rw [decodeQuads.eq_2 left short, decodeGroups.eq_2 _ _ _ _ short, List.append_nil]

theorem kept_eq (text : Text) : text.filter (decode64 · ≠ 100) = keepSignificant text := by
  have hbyte : ∀ c : UInt8, decide (decode64 c ≠ 100) = decide (decode64 c < 100) :=
    forall_byte (by decide +kernel)
  rw [keepSignificant]
  exact List.filter_congr fun c _ => hbyte c

theorem decodebase64_eq (d : Decoder) (text : Text) :
    decodebase64 BUFSIZ d text = call decodeQuads d (keepSignificant text) := by
  rw [decodebase64, decodeGroups_eq, kept_eq]
  rfl

theorem delivered_base64 (calls : List Text) :
    delivered BUFSIZ .base64 calls = (decodeQuads (keepSignificant calls.flatten)).1 := by
  have hcalls : calls.foldl (decodebase64 BUFSIZ) ([], []) =
      (calls.map keepSignificant).foldl (call decodeQuads) ([], []) := by
    rw [List.foldl_map]
    exact congrArg (fun f => calls.foldl f ([], [])) (funext₂ decodebase64_eq)
  have hflatten : (calls.map keepSignificant).flatten = keepSignificant calls.flatten :=
    List.filter_flatten.symm
  have hresumes : Resumes decodeQuads := decodeQuads_append
  rw [delivered, hcalls, hresumes.foldl_call _ rfl, hflatten]
  rfl

end Base64Spec

section Main

/-- The padding of a soft line break is what `decodeqp` does not drop. -/
theorem transfer_decoders_agree_iff (BUFSIZ : Nat) (e : Encoded) (hvalid : e.Valid)
    (calls calls' : List Text) (hcalls : calls.flatten = e.text)
    (hcalls' : calls'.flatten = e.text) :
    delivered BUFSIZ e.encoding calls = (decode e.encoding calls').2 ↔ ¬e.Padded := by
  cases e with
  | quotedPrintable tokens =>
      have himap : delivered BUFSIZ .quotedPrintable calls = tokens.flatMap Token.decoded := by
        rw [delivered_quotedPrintable, hcalls, Encoded.text, decodeAll_tokens hvalid.1]
      have hfile := decode_tokens hvalid.1 hvalid.2 hcalls'
      rw [Encoded.encoding, himap, hfile]
      exact decoded_eq_value_iff
  | base64 text =>
      rw [Encoded.encoding, delivered_base64, decode_base64, hcalls, hcalls']
      exact iff_of_true rfl id

/-- `"a=3D=\r\nb"`, cut in different places. -/
theorem transfer_decoders_agree_sample :
    delivered 8192 .quotedPrintable [str "a=3", str "D=\x0d", str "\nb"] =
      (decode .quotedPrintable [str "a=3D=", str "\x0d\nb"]).2 := by
  have hfit : LinesFit (str "a=3D=\x0d\nb") := fun line hline _ =>
    hline.length_le.trans (by decide)
  refine (transfer_decoders_agree_iff 8192 (.quotedPrintable
      [.literal (byte 'a'), .escape (byte '3') (byte 'D'), .softBreak [] true, .literal (byte 'b')])
    ⟨by decide +kernel, hfit⟩ _ _ (by decide) (by decide)).2 ?_
  rintro ⟨padding, crlf, mem, hpadding⟩
  simp at mem
  exact hpadding mem.1

/-- `"a= \nb"`: a line end is left in the text. -/
theorem padding_stays :
    (Encoded.quotedPrintable
        [.literal (byte 'a'), .softBreak [SP] false, .literal (byte 'b')]).Valid ∧
      (Encoded.quotedPrintable
        [.literal (byte 'a'), .softBreak [SP] false, .literal (byte 'b')]).text = str "a= \nb" ∧
      delivered 8192 .quotedPrintable [str "a= \nb"] = str "a\nb" ∧
      (decode .quotedPrintable [str "a= \nb"]).2 = str "ab" ∧
      delivered 8192 .quotedPrintable [str "a= \nb"] ≠
        (decode .quotedPrintable [str "a= \nb"]).2 := by
  have hfit : LinesFit (str "a= \nb") := fun line hline _ => hline.length_le.trans (by decide)
  exact ⟨⟨by decide +kernel, hfit⟩, by decide, by decide, by decide, by decide⟩

end Main
end Cone.TransferDecoders
