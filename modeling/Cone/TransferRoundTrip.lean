import Cone.EncodeSpec
import Cone.Cdecode
import Mathlib.Data.List.TakeWhile

/-! # Decoding what was encoded

The decoder is fed a well-formed text in pieces.  Between calls its work buffer is the part of
the current line that has not been decoded, and the text not yet decoded is that buffer and what
is still to come: the same text in tokens, however the pieces were cut. -/
set_option autoImplicit false
namespace Cone.TransferRoundTrip

open Cone.Ctype Cone.Lib.Radix64 Cone.Lib.ReturnCode Cone.Lib.QuotedPrintable
open Cone.Encode (EncodeInfo libmailEncode libmailEncodeStart libmailEncodeEnd base64Quads
  spaceAfter spaceAfter_false_iff held)
open Cone.Cdecode

/-! ## Quoted-printable -/

theorem tou_hexDigit (n : Nat) (h : n < 16) :
    strchr xdigit (tou (hexDigit n)) = some n ∧ isspace (hexDigit n) = false := by
  have all : ∀ n : Fin 16,
      strchr xdigit (tou (hexDigit n)) = some n.val ∧ isspace (hexDigit n) = false := by
    decide +kernel
  exact all ⟨n, h⟩

@[simp] theorem qpLoop_nil : qpLoop [] = [] := rfl

theorem qpLoop_literal (c : UInt8) (rest : List UInt8) (h : c ≠ EQ) :
    qpLoop (c :: rest) = c :: qpLoop rest := by
  rw [qpLoop.eq_def]
  exact if_pos h

theorem qpLoop_escape (c : UInt8) (rest : List UInt8) :
    qpLoop ((Token.escape c).render ++ rest) = c :: qpLoop rest := by
  have hc := c.toNat_lt
  have hi := tou_hexDigit (c.toNat / 16) (by omega)
  have lo := tou_hexDigit (c.toNat % 16) (by omega)
  have hi0 := (hexDigit_facts (c.toNat / 16) (by omega)).2.2.1
  have lo0 := (hexDigit_facts (c.toNat % 16) (by omega)).2.2.1
  have byteEq : UInt8.ofNat (c.toNat / 16 * 16 + c.toNat % 16) = c := by
    rw [show c.toNat / 16 * 16 + c.toNat % 16 = c.toNat by omega]
    exact UInt8.ofNat_toNat
  simp [Token.render, qpLoop, show EQ = byte '=' from rfl, hi, lo, hi0, lo0, byteEq]

theorem qpLoop_softBreak (rest : List UInt8) :
    qpLoop (Token.softBreak.render ++ rest) = [] := by
  simp [Token.render, qpLoop, show EQ = byte '=' from rfl, show isspace NL = true by decide]

theorem qpLoop_render (ts : List Token) (rest : List UInt8) (plain : ∀ t ∈ ts, t.Plain)
    (hard : Token.softBreak ∉ ts) : qpLoop (render ts ++ rest) = value ts ++ qpLoop rest := by
  induction ts with
  | nil => rfl
  | cons t ts ih =>
      have tail := ih (fun u hu => plain u (List.mem_cons_of_mem t hu))
        (fun h => hard (List.mem_cons_of_mem t h))
      rw [render_cons, List.append_assoc, value_cons, List.append_assoc, ← tail]
      cases t with
      | literal c => exact qpLoop_literal c _ (plain _ (List.mem_cons_self ..)).1
      | escape c => exact qpLoop_escape c _
      | softBreak => exact absurd (List.mem_cons_self ..) hard

theorem qpLoop_line (front : List Token) (last : Token) (plain : ∀ t ∈ front ++ [last], t.Plain)
    (hard : Token.softBreak ∉ front) :
    qpLoop (render (front ++ [last])) = value (front ++ [last]) := by
  rw [List.forall_mem_append] at plain
  rw [render_append, qpLoop_render front _ plain.1 hard, value_append]
  cases last with
  | literal c =>
      have h := qpLoop_literal c [] (plain.2 _ (List.mem_cons_self ..)).1
      simpa [Token.render, Token.value] using h
  | escape c => simpa [Token.value] using qpLoop_escape c []
  | softBreak => simpa [Token.value] using qpLoop_softBreak []

abbrev Part := Rfc2045 (List UInt8)

structure QpPending (p : Part) (rest : List UInt8) (todo : List Token) : Prop where
  collects : p.udecodeFunc = collect
  decodeFunc : p.decodeFunc = .decodeQp
  noNewline : NL ∉ p.workbuf
  text : p.workbuf ++ rest = render todo
  plain : ∀ t ∈ todo, t.Plain

theorem doDecodeQp_collect (p : Part) (hc : p.udecodeFunc = collect) (w : List UInt8) :
    doDecodeQp { p with workbuf := w } =
      (0, { p with workbuf := [], miscDecodePtr := p.miscDecodePtr ++ qpLoop w }) := by
  simp [doDecodeQp, udecode, hc]

theorem heldBack_split (w : List UInt8) :
    w.take (w.length - (heldBack w).length) ++ heldBack w = w := by
  have hsuffix : heldBack w <:+ w :=
    (List.dropWhile_suffix _).trans (List.drop_suffix _ _)
  obtain ⟨kept, hkept⟩ := hsuffix
  have hlen : w.length - (heldBack w).length = kept.length := by
    have := congrArg List.length hkept
    simp only [List.length_append] at this
    omega
  rw [hlen]
  conv_lhs => arg 1; rw [← hkept]
  rw [List.take_left' rfl, hkept]

/-- The long-line flush cuts the work buffer where no escape is left open. -/
theorem heldBack_fits (w : List UInt8) (long : 1024 < w.length) :
    (∃ v, heldBack w = EQ :: v) ∨
      (heldBack w = [] ∧ ∀ u v, w = u ++ EQ :: v → 2 ≤ v.length) := by
  cases hb : heldBack w with
  | cons c v =>
      have head := List.head?_dropWhile_not (fun c => decide (c ≠ byte '='))
        (w.drop (w.length - 5))
      rw [show List.dropWhile _ _ = heldBack w from rfl, hb] at head
      have hc : c = byte '=' := by simpa using head
      exact Or.inl ⟨v, by rw [hc]; rfl⟩
  | nil =>
      refine Or.inr ⟨rfl, ?_⟩
      intro u v huv
      by_contra short
      have inTail : EQ ∈ w.drop (w.length - 5) := by
        have hlen := congrArg List.length huv
        simp only [List.length_append, List.length_cons] at hlen
        have hdrop : w.drop (w.length - 5) = u.drop (w.length - 5) ++ EQ :: v := by
          conv_lhs => arg 2; rw [huv]
          rw [List.drop_append_of_le_length (by omega)]
        rw [hdrop]
        exact List.mem_append_right _ (List.mem_cons_self ..)
      have none : ∀ c ∈ w.drop (w.length - 5), decide (c ≠ byte '=') = true :=
        List.dropWhile_eq_nil_iff.mp hb
      exact absurd rfl (of_decide_eq_true (none EQ inTail))

theorem flushLongLine_pending (p : Part) (rest : List UInt8) (todo : List Token)
    (h : QpPending p rest todo) :
    ∃ p' todo', flushLongLine p = (0, p') ∧ QpPending p' rest todo' ∧
      p'.miscDecodePtr ++ value todo' = p.miscDecodePtr ++ value todo := by
  by_cases long : p.workbuf.length > 1024
  · have split := heldBack_split p.workbuf
    set buf := heldBack p.workbuf with hbuf
    set kept := p.workbuf.take (p.workbuf.length - buf.length) with hkept
    have noKept : NL ∉ kept := fun hm => h.noNewline (List.mem_of_mem_take hm)
    have noBuf : NL ∉ buf := fun hm => h.noNewline (split ▸ List.mem_append_right kept hm)
    have text : kept ++ (buf ++ rest) = render todo := by
      rw [← List.append_assoc, split, h.text]
    have fits : (buf ++ rest).head? = some EQ ∨ ∀ u v, kept = u ++ EQ :: v → 2 ≤ v.length := by
      rcases heldBack_fits p.workbuf long with ⟨v, hv⟩ | ⟨hnil, hfar⟩
      · exact Or.inl (by rw [hbuf, hv]; rfl)
      · rw [← hbuf] at hnil
        rw [hnil, List.append_nil] at split
        exact Or.inr (by rw [split]; exact hfar)
    obtain ⟨front, after, rfl, hfront, hrest, hard⟩ := cut_in_line todo kept (buf ++ rest) noKept text fits
    have plain := List.forall_mem_append.mp h.plain
    have noZero : NUL ∉ buf := fun hm =>
      render_ne_nul after plain.2 (hrest ▸ List.mem_append_left rest hm)
    have back : buf.takeWhile (· ≠ NUL) = buf := by
      rw [List.takeWhile_eq_self_iff]
      intro c hc
      simpa using fun e : c = NUL => noZero (e ▸ hc)
    have decoded : qpLoop kept = value front := by
      rw [hfront]
      simpa [qpLoop] using qpLoop_render front [] plain.1 hard
    refine ⟨{ p with workbuf := [] ++ buf, miscDecodePtr := p.miscDecodePtr ++ qpLoop kept }, after,
      ?_, ⟨h.collects, h.decodeFunc, noBuf, hrest, plain.2⟩, ?_⟩
    · rw [flushLongLine, if_pos long]
      simp only [← hbuf, ← hkept]
      rw [doDecodeQp_collect p h.collects, andThen_ok, back]
    · simp [decoded]
  · exact ⟨p, todo, by rw [flushLongLine, if_neg long], h, rfl⟩

theorem decodeQpLoop_pending (s run : List UInt8) (p : Part) (rest : List UInt8)
    (todo : List Token) (noNewline : NL ∉ run)
    (h : QpPending { p with workbuf := p.workbuf ++ run } (s ++ rest) todo) :
    ∃ p' todo', decodeQpLoop run s p = (0, p') ∧ QpPending p' rest todo' ∧
      p'.miscDecodePtr ++ value todo' = p.miscDecodePtr ++ value todo := by
  induction s generalizing run p todo with
  | nil =>
      by_cases empty : run = []
      · subst empty
        refine ⟨p, todo, by rw [decodeQpLoop, if_pos rfl], ?_, rfl⟩
        simpa using h
      · obtain ⟨p', todo', hrun, h', hv⟩ := flushLongLine_pending _ rest todo (by simpa using h)
        exact ⟨p', todo', by rw [decodeQpLoop, if_neg empty, hrun], h', hv⟩
  | cons c s ih =>
      by_cases nl : c = NL
      · subst nl
        have htext : (p.workbuf ++ run) ++ NL :: (s ++ rest) = render todo := by
          simpa using h.text
        obtain ⟨line, after, rfl, hline, hrest, front, last, rfl, hard⟩ :=
          cut_after_newline todo (p.workbuf ++ run) (s ++ rest) h.noNewline htext
        have plain := List.forall_mem_append.mp h.plain
        have decoded : qpLoop (p.workbuf ++ run ++ [NL]) = value (front ++ [last]) := by
          rw [hline]
          exact qpLoop_line front last plain.1 hard
        obtain ⟨p', todo', hrun, h', hv⟩ := ih []
          { p with workbuf := [], miscDecodePtr := p.miscDecodePtr ++ value (front ++ [last]) } after
          (by simp) ⟨h.collects, h.decodeFunc, by simp, by simpa using hrest, plain.2⟩
        refine ⟨p', todo', ?_, h', ?_⟩
        · rw [decodeQpLoop, if_neg (by simp), doDecodeQp_collect p h.collects, andThen_ok, decoded]
          exact hrun
        · rw [hv]
          simp
      · have noNewline' : NL ∉ p.workbuf ++ (run ++ [c]) := by
          rw [← List.append_assoc, List.mem_append, not_or, List.mem_singleton]
          exact ⟨h.noNewline, Ne.symm nl⟩
        obtain ⟨p', todo', hrun, h', hv⟩ := ih (run ++ [c]) p todo
          (by simpa using ⟨noNewline, Ne.symm nl⟩)
          ⟨h.collects, h.decodeFunc, noNewline', by simpa using h.text, h.plain⟩
        exact ⟨p', todo', by rw [decodeQpLoop, if_pos nl, hrun], h', hv⟩

/-! ## base64 -/

theorem base64char_facts (n : Nat) (h : n < 64) :
    decode64 (Encode.base64char n) = n ∧ Encode.base64char n ≠ byte '=' ∧
      Encode.base64char n ≠ NL := by
  have all : ∀ n : Fin 64, decode64 (Encode.base64char n) = n.val ∧
      Encode.base64char n ≠ byte '=' ∧ Encode.base64char n ≠ NL := by decide +kernel
  exact all ⟨n, h⟩

/-- The bytes `do_decode_base64` keeps. -/
def keepSignificant (s : List UInt8) : List UInt8 := s.filter fun c => decode64 c < 100

theorem keepSignificant_dropNewlines (s : List UInt8) :
    keepSignificant (s.filter (· ≠ NL)) = keepSignificant s := by
  rw [keepSignificant, keepSignificant, List.filter_filter]
  apply List.filter_congr
  intro c _
  by_cases nl : c = NL
  · subst nl
    rfl
  · simp [nl]

theorem decodeQuads_append (a b : List UInt8) :
    decodeQuads (a ++ b) =
      ((decodeQuads a).1 ++ (decodeQuads ((decodeQuads a).2 ++ b)).1,
        (decodeQuads ((decodeQuads a).2 ++ b)).2) := by
  induction a using decodeQuads.induct with
  | case1 c0 c1 c2 c3 rest ih =>
      simp only [List.cons_append, decodeQuads, ih, List.append_assoc]
  | case2 rest short => rw [decodeQuads.eq_2 rest short, List.nil_append]

theorem keepSignificant_quads (x : List UInt8) :
    keepSignificant (base64Quads x) = base64Quads x := by
  have sig : ∀ n, n < 64 → decide (decode64 (Encode.base64char n) < 100) = true := by
    intro n h
    rw [(base64char_facts n h).1]
    exact decide_eq_true (by omega)
  have eqs : decide (decode64 (byte '=') < 100) = true := by decide
  induction x using Cone.Encode.base64Quads.induct with
  | case1 => rfl
  | case2 a =>
      have h0 := sextet0_lt a.toNat_lt
      have h1 := sextet1_lt (a := a.toNat) (b := 0) (by omega)
      simp [keepSignificant, base64Quads, sig _ h0, sig _ h1, eqs]
  | case3 a b =>
      have h0 := sextet0_lt a.toNat_lt
      have h1 := sextet1_lt (a := a.toNat) b.toNat_lt
      have h2 := sextet2_lt (b := b.toNat) (c := 0) (by omega)
      simp [keepSignificant, base64Quads, sig _ h0, sig _ h1, sig _ h2, eqs]
  | case4 a b c rest ih =>
      have h0 := sextet0_lt a.toNat_lt
      have h1 := sextet1_lt (a := a.toNat) b.toNat_lt
      have h2 := sextet2_lt (b := b.toNat) c.toNat_lt
      have h3 := sextet3_lt (c := c.toNat)
      rw [keepSignificant] at ih ⊢
      simp only [base64Quads, List.filter_cons, sig _ h0, sig _ h1, sig _ h2, sig _ h3, if_true, ih]

theorem ofNat_of_mod {n : Nat} {c : UInt8} (h : n % 256 = c.toNat) : UInt8.ofNat n = c := by
  apply UInt8.toNat_inj.mp
  rw [UInt8.toNat_ofNat']
  exact h

/-- The decoder undoes each quantum, and the padding says how much of it counts. -/
theorem decodeQuads_base64Quads (x : List UInt8) : decodeQuads (base64Quads x) = (x, []) := by
  induction x using Cone.Encode.base64Quads.induct with
  | case1 => rfl
  | case2 a =>
      have h0 := base64char_facts _ (sextet0_lt a.toNat_lt)
      have h1 := base64char_facts _ (sextet1_lt (a := a.toNat) (b := 0) (by omega))
      have ha := octet0_sextets (a := a.toNat) (b := 0) (by omega)
      simp [base64Quads, decodeQuads, decodeQuad, h0.1, h1.1, ha]
  | case3 a b =>
      have h0 := base64char_facts _ (sextet0_lt a.toNat_lt)
      have h1 := base64char_facts _ (sextet1_lt (a := a.toNat) b.toNat_lt)
      have h2 := base64char_facts _ (sextet2_lt (b := b.toNat) (c := 0) (by omega))
      have ha := octet0_sextets (a := a.toNat) b.toNat_lt
      have hb := ofNat_of_mod (octet1_sextets (a := a.toNat) (c := 0) b.toNat_lt (by omega))
      simp [base64Quads, decodeQuads, decodeQuad, h0.1, h1.1, h2.1, h2.2.1, ha, hb]
  | case4 a b c rest ih =>
      have h0 := base64char_facts _ (sextet0_lt a.toNat_lt)
      have h1 := base64char_facts _ (sextet1_lt (a := a.toNat) b.toNat_lt)
      have h2 := base64char_facts _ (sextet2_lt (b := b.toNat) c.toNat_lt)
      have h3 := base64char_facts _ (sextet3_lt (c := c.toNat))
      have ha := octet0_sextets (a := a.toNat) b.toNat_lt
      have hb := ofNat_of_mod (octet1_sextets (a := a.toNat) b.toNat_lt c.toNat_lt)
      have hc := ofNat_of_mod (octet2_sextets (b := b.toNat) c.toNat_lt)
      simp [base64Quads, decodeQuads, decodeQuad, h0.1, h1.1, h2.1, h2.2.1, h3.1, h3.2.1, ha, hb,
        hc, ih]

structure Base64Pending (p : Part) (rest : List UInt8) (x : List UInt8) : Prop where
  collects : p.udecodeFunc = collect
  decodeFunc : p.decodeFunc = .decodeBase64
  text : p.miscDecodePtr ++ (decodeQuads (keepSignificant (p.workbuf ++ rest))).1 = x

theorem keepSignificant_append (a b : List UInt8) :
    keepSignificant (a ++ b) = keepSignificant a ++ keepSignificant b := List.filter_append ..

theorem decodeQuads_leftover_significant (w : List UInt8) :
    keepSignificant (decodeQuads (keepSignificant w)).2 = (decodeQuads (keepSignificant w)).2 := by
  have suffix : ∀ s : List UInt8, (decodeQuads s).2 <:+ s := by
    intro s
    induction s using decodeQuads.induct with
    | case1 c0 c1 c2 c3 rest ih =>
        simp only [decodeQuads]
        exact ih.trans (List.suffix_append [c0, c1, c2, c3] rest)
    | case2 rest short => rw [decodeQuads.eq_2 rest short]
  rw [keepSignificant, List.filter_eq_self]
  intro c hc
  exact (List.mem_filter.mp ((suffix _).subset hc)).2

theorem doDecodeBase64_pending (p : Part) (rest x : List UInt8) (h : Base64Pending p rest x) :
    ∃ p', doDecodeBase64 p = (0, p') ∧ Base64Pending p' rest x := by
  refine ⟨(doDecodeBase64 p).2, rfl, ?_⟩
  have delivered : (doDecodeBase64 p).2 =
      { p with
        workbuf := (decodeQuads (keepSignificant p.workbuf)).2
        miscDecodePtr := p.miscDecodePtr ++ (decodeQuads (keepSignificant p.workbuf)).1 } := by
    simp [doDecodeBase64, udecode, h.collects, keepSignificant]
  rw [delivered]
  refine ⟨h.collects, h.decodeFunc, ?_⟩
  have htext := h.text
  rw [keepSignificant_append, decodeQuads_append] at htext
  rw [keepSignificant_append, decodeQuads_leftover_significant, ← htext, List.append_assoc]

theorem decodeBase64_pending (s : List UInt8) (p : Part) (rest x : List UInt8)
    (h : Base64Pending p (s ++ rest) x) :
    ∃ p', decodeBase64 s p = (0, p') ∧ Base64Pending p' rest x := by
  have grown : Base64Pending { p with workbuf := p.workbuf ++ s } rest x :=
    ⟨h.collects, h.decodeFunc, by simpa using h.text⟩
  by_cases full : (p.workbuf ++ s).length > 256
  · obtain ⟨p', run, h'⟩ := doDecodeBase64_pending _ rest x grown
    exact ⟨p', by rw [decodeBase64, if_pos full, run], h'⟩
  · exact ⟨_, by rw [decodeBase64, if_neg full], grown⟩

/-! ## Whole conversations -/

inductive TransferEncoding where
  | quotedPrintable
  | base64
  deriving DecidableEq, Repr

def TransferEncoding.name : TransferEncoding → List UInt8
  | .quotedPrintable =>
    ['q', 'u', 'o', 't', 'e', 'd', '-', 'p', 'r', 'i', 'n', 't', 'a', 'b', 'l', 'e'].map byte
  | .base64 => ['b', 'a', 's', 'e', '6', '4'].map byte

def encodeCalls {σ : Type} : List (List UInt8) → EncodeInfo σ → Int × EncodeInfo σ
  | [], info => (0, info)
  | ptr :: calls, info => andThen (libmailEncode info ptr) (encodeCalls calls)

def encode (te : TransferEncoding) (calls : List (List UInt8)) : Int × List UInt8 :=
  let r := andThen (encodeCalls calls (libmailEncodeStart te.name collect [])) libmailEncodeEnd
  (r.1, r.2.callbackArg)

def decodeCalls {σ : Type} : List (List UInt8) → Rfc2045 σ → Int × Rfc2045 σ
  | [], p => (0, p)
  | s :: calls, p => andThen (rfc2045Cdecode p s) (decodeCalls calls)

def decode (te : TransferEncoding) (calls : List (List UInt8)) : Int × List UInt8 :=
  let r := andThen (decodeCalls calls (rfc2045CdecodeStart (some te.name) collect []))
    rfc2045CdecodeEnd
  (r.1, r.2.miscDecodePtr)

section Encoding
open Cone.Encode

theorem encodeCalls_tokens (calls : List (List UInt8)) (info : Info)
    (hc : info.callbackFunc = collect) (hqp : info.encodingFunc = .quotedPrintable) :
    ∃ info' ts, encodeCalls calls info = (0, info') ∧ info'.callbackFunc = collect ∧
      info'.encodingFunc = .quotedPrintable ∧
      written info' = written info ++ render ts ∧ (∀ t ∈ ts, t.Plain) ∧
      info'.prevSpace = spaceAfter info.prevSpace calls.flatten ∧
      value ts ++ held info'.prevSpace = held info.prevSpace ++ calls.flatten := by
  induction calls generalizing info with
  | nil => exact ⟨info, [], rfl, hc, hqp, by simp, by simp, rfl, by simp⟩
  | cons ptr calls ih =>
      obtain ⟨info₁, ts₁, run₁, hc₁, henc₁, hw₁, plain₁, hsp₁, hv₁⟩ :=
        quotedPrintable_tokens ptr info hc
      obtain ⟨info', ts, run, hc', hqp', hw, plain, hsp, hv⟩ := ih info₁ hc₁ (henc₁.trans hqp)
      refine ⟨info', ts₁ ++ ts, ?_, hc', hqp', ?_, ?_, ?_, ?_⟩
      · rw [encodeCalls, libmailEncode, hqp]
        simp only [run₁, andThen_ok, run]
      · rw [hw, hw₁, render_append, List.append_assoc]
      · exact List.forall_mem_append.mpr ⟨plain₁, plain⟩
      · rw [hsp, hsp₁, List.flatten_cons, spaceAfter_append]
      · rw [value_append, List.append_assoc, hv, ← List.append_assoc, hv₁]
        simp

theorem encodeCalls_base64Lines (calls : List (List UInt8)) (info : Info) (consumed : List UInt8)
    (h : Base64Lines info consumed) :
    ∃ info', encodeCalls calls info = (0, info') ∧
      Base64Lines info' (consumed ++ calls.flatten) := by
  induction calls generalizing info consumed with
  | nil => exact ⟨info, rfl, by simpa using h⟩
  | cons ptr calls ih =>
      obtain ⟨info₁, run₁, h₁⟩ := base64_lines ptr info consumed h
      obtain ⟨info', run, h'⟩ := ih info₁ _ h₁
      refine ⟨info', ?_, by simpa using h'⟩
      rw [encodeCalls, libmailEncode, h.encodingFunc]
      simp only [run₁, andThen_ok, run]

theorem flushOut_collect (info : Info) (hc : info.callbackFunc = collect) :
    ∃ info', (if info.outputBuffer = [] then ((0 : Int), info) else callOut info) = (0, info') ∧
      info'.callbackArg = written info := by
  by_cases empty : info.outputBuffer = []
  · exact ⟨info, if_pos empty, by rw [written, empty, List.append_nil]⟩
  · exact ⟨_, by rw [if_neg empty, callOut_collect info hc], rfl⟩

theorem encode_quotedPrintable (calls : List (List UInt8)) :
    ∃ ts, encode .quotedPrintable calls = (0, render ts) ∧ (∀ t ∈ ts, t.Plain) ∧
      value ts ++ held (spaceAfter false calls.flatten) = calls.flatten := by
  obtain ⟨info, ts, run, hc, hqp, hw, plain, hsp, hv⟩ :=
    encodeCalls_tokens calls (libmailEncodeStart TransferEncoding.quotedPrintable.name collect []) rfl
      (by decide)
  obtain ⟨info', flush, out⟩ := flushOut_collect info hc
  have fin : libmailEncodeEnd info = (0, info') := by
    rw [libmailEncodeEnd, encodingFuncEnd, hqp]
    simpa using flush
  refine ⟨ts, ?_, plain, ?_⟩
  · simp only [encode, run, andThen_ok, fin, out, hw]
    rfl
  · rw [hsp] at hv
    exact hv

theorem encode_base64 (calls : List (List UInt8)) :
    ∃ out, encode .base64 calls = (0, out) ∧
      keepSignificant out = base64Quads calls.flatten := by
  have start : Base64Lines (libmailEncodeStart TransferEncoding.base64.name collect []) [] :=
    ⟨rfl, by decide, [], rfl, by simp, rfl⟩
  obtain ⟨info, run, h⟩ := encodeCalls_base64Lines calls _ [] start
  obtain ⟨info₁, run₁, hc₁, text⟩ := base64End_lines info _ h
  obtain ⟨info', flush, out⟩ := flushOut_collect info₁ hc₁
  refine ⟨written info₁, ?_, ?_⟩
  · have fin : libmailEncodeEnd info = (0, info') := by
      rw [libmailEncodeEnd, encodingFuncEnd, h.encodingFunc]
      simpa [run₁] using flush
    simp only [encode, run, andThen_ok, fin, out]
  · rw [← keepSignificant_dropNewlines, text, keepSignificant_dropNewlines, keepSignificant_quads,
      List.nil_append]

end Encoding

section Decoding

theorem decodeCalls_qpPending (chunks : List (List UInt8)) (p : Part) (todo : List Token)
    (h : QpPending p chunks.flatten todo) :
    ∃ p' todo', decodeCalls chunks p = (0, p') ∧ QpPending p' [] todo' ∧
      p'.miscDecodePtr ++ value todo' = p.miscDecodePtr ++ value todo := by
  induction chunks generalizing p todo with
  | nil => exact ⟨p, todo, rfl, by simpa using h, rfl⟩
  | cons s chunks ih =>
      obtain ⟨p₁, todo₁, run₁, h₁, hv₁⟩ :=
        decodeQpLoop_pending s [] p chunks.flatten todo (by simp) (by simpa using h)
      obtain ⟨p', todo', run, h', hv⟩ := ih p₁ todo₁ h₁
      refine ⟨p', todo', ?_, h', hv.trans hv₁⟩
      have one : rfc2045Cdecode p s = (0, p₁) := by
        rw [rfc2045Cdecode, h.decodeFunc]
        by_cases empty : s = []
        · subst empty
          rw [if_pos rfl]
          exact run₁
        · rw [if_neg empty]
          exact run₁
      rw [decodeCalls, one, andThen_ok, run]

theorem decode_quotedPrintable (ts : List Token) (plain : ∀ t ∈ ts, t.Plain)
    (chunks : List (List UInt8)) (text : chunks.flatten = render ts) :
    decode .quotedPrintable chunks = (0, value ts) := by
  obtain ⟨p, todo, run, h, hv⟩ := decodeCalls_qpPending chunks
    (rfc2045CdecodeStart (some TransferEncoding.quotedPrintable.name) collect []) ts
    ⟨rfl, by decide, by simp [rfc2045CdecodeStart], by simpa [rfc2045CdecodeStart] using text, plain⟩
  -- the last line has no line end, hence no soft break
  have htext : p.workbuf = render todo := by simpa using h.text
  have hard : Token.softBreak ∉ todo := by
    intro hm
    refine h.noNewline (htext ▸ List.mem_flatMap.mpr ⟨_, hm, ?_⟩)
    simp [Token.render]
  have last : qpLoop p.workbuf = value todo := by
    rw [htext]
    simpa using qpLoop_render todo [] h.plain hard
  have fin : rfc2045CdecodeEnd p =
      (0, { p with workbuf := [], miscDecodePtr := p.miscDecodePtr ++ value todo }) := by
    have dispatch : rfc2045CdecodeEnd p = doDecodeQp p := by rw [rfc2045CdecodeEnd, h.decodeFunc]
    rw [dispatch, ← last]
    exact doDecodeQp_collect p h.collects p.workbuf
  simp only [decode, run, andThen_ok, fin, hv]
  rfl

theorem decodeCalls_base64Pending (chunks : List (List UInt8)) (p : Part) (x : List UInt8)
    (h : Base64Pending p chunks.flatten x) :
    ∃ p', decodeCalls chunks p = (0, p') ∧ Base64Pending p' [] x := by
  induction chunks generalizing p with
  | nil => exact ⟨p, rfl, by simpa using h⟩
  | cons s chunks ih =>
      have one : ∃ p₁, rfc2045Cdecode p s = (0, p₁) ∧ Base64Pending p₁ chunks.flatten x := by
        by_cases empty : s = []
        · exact ⟨p, by rw [rfc2045Cdecode, if_pos empty], by simpa [empty] using h⟩
        · obtain ⟨p₁, run₁, h₁⟩ := decodeBase64_pending s p chunks.flatten x (by simpa using h)
          refine ⟨p₁, ?_, h₁⟩
          rw [rfc2045Cdecode, if_neg empty, h.decodeFunc]
          exact run₁
      obtain ⟨p₁, run₁, h₁⟩ := one
      obtain ⟨p', run, h'⟩ := ih p₁ h₁
      exact ⟨p', by rw [decodeCalls, run₁, andThen_ok, run], h'⟩

theorem decode_base64 (chunks : List (List UInt8)) :
    decode .base64 chunks = (0, (decodeQuads (keepSignificant chunks.flatten)).1) := by
  obtain ⟨p, run, h⟩ := decodeCalls_base64Pending chunks
    (rfc2045CdecodeStart (some TransferEncoding.base64.name) collect []) _
    ⟨rfl, by decide, rfl⟩
  have fin : rfc2045CdecodeEnd p = doDecodeBase64 p := by rw [rfc2045CdecodeEnd, h.decodeFunc]
  have delivered : (doDecodeBase64 p).2.miscDecodePtr =
      p.miscDecodePtr ++ (decodeQuads (keepSignificant p.workbuf)).1 := by
    simp [doDecodeBase64, udecode, h.collects, keepSignificant]
  have htext := h.text
  rw [List.append_nil] at htext
  simp only [decode, run, andThen_ok, fin, delivered, htext]
  rfl

end Decoding

/-- The round trip is exact unless quoted-printable is given text that ends in a space:
`quoted_printable` returns from the end call without the space it holds back. -/
theorem decode_encode_iff (te : TransferEncoding) (calls chunks : List (List UInt8))
    (text : chunks.flatten = (encode te calls).2) :
    decode te chunks = (0, calls.flatten) ↔
      ¬(te = .quotedPrintable ∧ calls.flatten.getLast? = some SP) := by
  cases te with
  | quotedPrintable =>
      obtain ⟨ts, henc, plain, hv⟩ := encode_quotedPrintable calls
      rw [henc] at text
      rw [decode_quotedPrintable ts plain chunks text, ← spaceAfter_false_iff]
      cases hlast : spaceAfter false calls.flatten with
      | true =>
          rw [hlast] at hv
          simp [← hv, held]
      | false =>
          rw [hlast] at hv
          simp [← hv, held]
  | base64 =>
      obtain ⟨out, henc, hsig⟩ := encode_base64 calls
      rw [henc] at text
      rw [decode_base64 chunks, text, hsig, decodeQuads_base64Quads]
      simp

/-- `"a= b"` as quoted-printable, encoded in two calls and decoded in two. -/
theorem decode_encode_iff_sample :
    decode .quotedPrintable [[97, 61, 51], [68, 32, 98]] = (0, [[97, 61], [32, 98]].flatten) ↔
      ¬(TransferEncoding.quotedPrintable = .quotedPrintable ∧
        [[97, 61], [32, 98]].flatten.getLast? = some SP) :=
  decode_encode_iff .quotedPrintable [[97, 61], [32, 98]] [[97, 61, 51], [68, 32, 98]] (by decide)

/-- A lone space comes back as nothing. -/
theorem lone_space_lost :
    ¬ ∀ (te : TransferEncoding) (calls chunks : List (List UInt8)),
      chunks.flatten = (encode te calls).2 → decode te chunks = (0, calls.flatten) := by
  intro roundTrip
  have h := roundTrip .quotedPrintable [[SP]] [] (by decide)
  revert h
  decide

end Cone.TransferRoundTrip
