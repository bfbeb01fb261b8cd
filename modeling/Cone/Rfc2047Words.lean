import Cone.Rfc2047Encode
import Cone.Rfc822Tokenize

/-! # Encoded words in an address header

The encoded words of `rfc2047_encode_str` in any charset, and what the address tokenizer makes
of them.  The scan for `?=` takes the end of `?Q?` and an `=` that begins the content for the end
of the word.  `fromU` is `libmail_u_convert_fromu_tobuf` to the charset. -/
set_option autoImplicit false
namespace Cone.Rfc2047Words

open Cone.Ctype Cone.Encode Cone.Rfc2047Encode Cone.Rfc822Tokenize

/-- `(*encoder)(p, psize, charset, ..)` as it is called for one encoded word. -/
structure EncodedWord where
  method : Method
  ptr : List UInt8
  deriving DecidableEq, Repr

section Functions
variable (qpAllow : UInt8 → Bool) (graphemeBreak : Char → Char → Bool)
variable (charset : List UInt8) (fromU : List Char → List UInt8)

def EncodedWord.content (e : EncodedWord) : List UInt8 := contentOf qpAllow e.method e.ptr

def EncodedWord.text (e : EncodedWord) : List UInt8 :=
  [byte '=', byte '?'] ++ charset ++ [byte '?', methodLetter e.method, byte '?'] ++
    e.content qpAllow ++ [byte '?', byte '=']

/-- The parts that `do_encode_words_method` cuts the characters into. -/
def chunks : Nat → Nat → List Char → List (List Char)
  | 0, _, _ => []
  | _ + 1, _, [] => []
  | fuel + 1, offset, c :: uc =>
    let j := wordSize graphemeBreak offset (c :: uc)
    (c :: uc).take j :: chunks fuel 0 ((c :: uc).drop j)

def methodWords (method : Method) (offset : Nat) (uc : List Char) : List EncodedWord :=
  (chunks graphemeBreak uc.length offset uc).map fun u => ⟨method, fromU u⟩

def methodText (method : Method) (offset : Nat) (uc : List Char) : List UInt8 :=
  [byte ' '].intercalate
    ((methodWords graphemeBreak fromU method offset uc).map (EncodedWord.text qpAllow charset))

def chosen (offset : Nat) (uc : List Char) : Method :=
  let q := methodText qpAllow graphemeBreak charset fromU .encodeqp offset uc
  let b64 := methodText qpAllow graphemeBreak charset fromU .encodebase64 offset uc
  if q.length < b64.length then .encodeqp else .encodebase64

/-- The encoded words that `rfc2047_encode_callback` emits. -/
def emitted : Nat → Nat → List Char → List EncodedWord
  | 0, _, _ => []
  | _ + 1, _, [] => []
  | fuel + 1, offset, c :: uc =>
    if isSpace c then emitted fuel offset uc
    else
      let r := encodeWords qpAllow (c :: uc)
      let words := (c :: uc).take r.2
      (if r.1 then
        methodWords graphemeBreak fromU (chosen qpAllow graphemeBreak charset fromU offset words)
          offset words
      else []) ++ emitted fuel 0 ((c :: uc).drop r.2)

/-- The encoded words of `rfc2047_encode_str`. -/
def emittedWords (str : List Char) : List EncodedWord :=
  emitted qpAllow graphemeBreak charset fromU str.length 27 str

end Functions

/-! ## The text they stand in -/

section Utf8
variable (qpAllow : UInt8 → Bool) (graphemeBreak : Char → Char → Bool)

end Utf8

/-! ## The scan for the end of the word -/

def charsetChar (c : UInt8) : Bool :=
  0x20 < c && c < 0x7F &&
    c ∉ ['(', ')', '<', '>', '@', ',', ';', ':', '"', '/', '[', ']', '?', '.', '='].map byte

def passes (c : UInt8) : Bool := c ≠ byte '?' && c ∉ rfc822Specials && !isspace c

theorem encodedWordLen_passes (u p : List UInt8) (h : ∀ c ∈ u, passes c = true) :
    encodedWordLen (u ++ p) = (encodedWordLen p).map (· + u.length) := by
  induction u with
  | nil => simp
  | cons c u ih =>
      have hc : c ≠ byte '?' ∧ c ∉ rfc822Specials ∧ isspace c = false := by
        simpa [passes, and_assoc] using h c (by simp)
      have later := ih fun d hd => h d (List.mem_cons_of_mem _ hd)
      have step : encodedWordLen (c :: (u ++ p)) = (encodedWordLen (u ++ p)).map (· + 1) := by
        rw [encodedWordLen.eq_def]
        simp [hc.1, hc.2.1, hc.2.2]
      rw [List.cons_append, step, later, Option.map_map]
      congr 1

theorem encodedWordLen_question (p : List UInt8) (h : p.head? ≠ some (byte '=')) :
    encodedWordLen (byte '?' :: p) = (encodedWordLen p).map (· + 1) := by
  rw [encodedWordLen.eq_def]
  simp [h]

theorem encodedWordLen_end (p : List UInt8) :
    encodedWordLen (byte '?' :: byte '=' :: p) = some 2 := by
  rw [encodedWordLen.eq_def]
  simp

theorem tables :
    (rfc822Specials.all fun c => c ≠ byte '?' && c ≠ byte '=' &&
        (c = byte '\\' || !charsetChar c)) = true ∧
      (xdigit ++ base64tab ++ ['*', '-', '=', '_', '\x00'].map byte).all passes = true ∧
        charsetChar (byte '?') = false := by
  decide +kernel

theorem encodedWordLen_special (c : UInt8) (p : List UInt8) (special : c ∈ rfc822Specials) :
    encodedWordLen (c :: p) = none := by
  have plain := List.all_eq_true.mp tables.1 c special
  simp only [Bool.and_eq_true, decide_eq_true_eq] at plain
  rw [encodedWordLen.eq_def]
  simp [plain.1, special]

theorem charsetChar_passes (c : UInt8) (h : charsetChar c = true) (back : c ≠ byte '\\') :
    passes c = true := by
  have plain : c ∉ byte '?' :: rfc822Specials := by
    intro hc
    rcases List.mem_cons.mp hc with rfl | special
    · rw [tables.2.2] at h
      cases h
    · have known := List.all_eq_true.mp tables.1 c special
      simp [back, h] at known
  have notSpace : isspace c = false := by
    have printing : 0x20 < c := by
      simp only [charsetChar, Bool.and_eq_true, decide_eq_true_eq] at h
      exact h.1.1
    have low : 32 < c.toNat := UInt8.lt_iff_toNat_lt.mp printing
    have notBlank : c ≠ SP := by
      rintro rfl
      exact absurd low (by decide)
    have high : ¬ c ≤ CR := by
      intro le
      have : c.toNat ≤ 13 := UInt8.le_iff_toNat_le.mp le
      omega
    simp [isspace, notBlank, high]
  rw [List.mem_cons, not_or] at plain
  simp [passes, plain.1, plain.2, notSpace]

theorem base64char_mem (n : Nat) : base64char n ∈ base64tab ∨ base64char n = NUL := by
  by_cases inside : n < base64tab.length
  · left
    rw [base64char, List.getD_eq_getElem?_getD, List.getElem?_eq_getElem inside]
    exact List.getElem_mem inside
  · right
    rw [base64char, List.getD_eq_getElem?_getD, List.getElem?_eq_none (by omega)]
    rfl

theorem base64char_passes (n : Nat) : passes (base64char n) = true := by
  have all := List.all_eq_true.mp tables.2.1
  rcases base64char_mem n with inTab | zero
  · exact all _ (List.mem_append_left _ (List.mem_append_right _ inTab))
  · rw [zero]
    decide

theorem base64Quads_passes (ptr : List UInt8) : ∀ c ∈ base64Quads ptr, passes c = true := by
  have pad : passes (byte '=') = true := by decide
  induction ptr using base64Quads.induct with
  | case1 => simp [base64Quads]
  | case2 a => simp [base64Quads, base64char_passes, pad]
  | case3 a b => simp [base64Quads, base64char_passes, pad]
  | case4 a b c rest ih =>
      simp only [base64Quads, List.forall_mem_cons]
      exact ⟨base64char_passes _, base64char_passes _, base64char_passes _, base64char_passes _, ih⟩

theorem xdigit_getD_passes (n : Nat) : passes (xdigit.getD n 0) = true := by
  have all := List.all_eq_true.mp tables.2.1
  by_cases inside : n < xdigit.length
  · rw [List.getD_eq_getElem?_getD, List.getElem?_eq_getElem inside]
    exact all _ (List.mem_append_left _ (List.mem_append_left _ (List.getElem_mem inside)))
  · rw [List.getD_eq_getElem?_getD, List.getElem?_eq_none (by omega)]
    decide

theorem qpByte_passes (c : UInt8) : ∀ b ∈ qpByte qpAllowWord c, passes b = true := by
  have all := List.all_eq_true.mp tables.2.1
  have equals : passes (byte '=') = true := by decide
  rw [qpByte]
  by_cases blank : c = byte ' '
  · have underscore : passes (byte '_') = true := by decide
    rw [if_pos blank]
    simpa using underscore
  · rw [if_neg blank]
    by_cases encoded : doEncodeByte qpAllowWord c = true
    · rw [if_pos encoded]
      simp only [List.forall_mem_cons]
      exact ⟨equals, xdigit_getD_passes _, xdigit_getD_passes _, by simp⟩
    · rw [if_neg encoded]
      have allowed : qpAllowWord c = true := by
        have h := Bool.eq_false_iff.mpr encoded
        simp only [doEncodeByte, Bool.or_eq_false_iff, Bool.not_eq_false'] at h
        exact h.2
      intro b hb
      obtain rfl := List.mem_singleton.mp hb
      simp only [qpAllowWord, Bool.or_eq_true, decide_eq_true_eq] at allowed
      refine all b ?_
      rcases allowed with (inTab | mark) | zero
      · exact List.mem_append_left _ (List.mem_append_right _ inTab)
      · have more : ['*', '-', '=', '_'].map byte ⊆ ['*', '-', '=', '_', '\x00'].map byte :=
          List.map_subset byte (by simp)
        exact List.mem_append_right _ (more mark)
      · rw [zero]
        exact List.mem_append_right _ (List.mem_map.mpr ⟨'\x00', by simp, rfl⟩)

theorem content_passes (e : EncodedWord) : ∀ c ∈ e.content qpAllowWord, passes c = true := by
  rw [EncodedWord.content]
  cases e.method with
  | encodeqp =>
      intro c hc
      obtain ⟨b, -, hb⟩ := List.mem_flatMap.mp hc
      exact qpByte_passes b c hb
  | encodebase64 => exact base64Quads_passes e.ptr

theorem methodLetter_passes (m : Method) : passes (methodLetter m) = true := by
  cases m <;> decide

/-! ## One atom -/

def OneAtom (word : List UInt8) : Prop :=
  ∀ (fuel : Nat) (inbracket : Bool) (i : Nat) (rest : List UInt8),
    tokenizeAt (fuel + 1) inbracket i (word ++ rest) =
      (tokenizeAt fuel inbracket (i + word.length) rest).token
        ⟨0, ⟨some i, word ++ rest⟩, word.length⟩

theorem tokenizeAt_equals (fuel : Nat) (inbracket : Bool) (i : Nat) (q : List UInt8) :
    tokenizeAt (fuel + 1) inbracket i (byte '=' :: q) =
      match encodedWordAt (byte '=' :: q) with
      | some n =>
        (tokenizeAt fuel inbracket (i + n) ((byte '=' :: q).drop n)).token
          ⟨0, ⟨some i, byte '=' :: q⟩, n⟩
      | none =>
        (tokenizeAt fuel inbracket (i + 1) q).token ⟨byte '=', ⟨some i, byte '=' :: q⟩, 1⟩ := by
  rw [tokenizeAt, if_neg (by decide), if_neg (by decide), if_neg (by decide), if_neg (by decide),
    if_pos (by decide), if_pos rfl]
  cases encodedWordAt (byte '=' :: q) with
  | none =>
      simp only
      rw [if_neg (by cases inbracket <;> decide), nullAddress_of_ne (by decide)]
      rfl
  | some n => rfl

theorem oneAtom_iff (q : List UInt8) :
    OneAtom (byte '=' :: q) ↔
      ∀ rest, encodedWordAt (byte '=' :: q ++ rest) = some (byte '=' :: q).length := by
  constructor
  · intro atom rest
    have step := atom 0 false 0 rest
    rw [List.cons_append, tokenizeAt_equals] at step
    rw [List.cons_append]
    cases found : encodedWordAt (byte '=' :: (q ++ rest)) with
    | none =>
        rw [found] at step
        have first := congrArg (fun s => s.tokens.head?.map Token.token) step
        simp only [Scan.tokens_token, List.head?_cons, Option.map_some, Option.some.injEq] at first
        exact absurd first (by decide)
    | some n =>
        rw [found] at step
        have first := congrArg (fun s => s.tokens.head?.map Token.len) step
        simpa using first
  · intro found fuel inbracket i rest
    have here := found rest
    rw [List.cons_append] at here ⊢
    rw [tokenizeAt_equals, here]
    simp

def EncodedWord.tail (charset : List UInt8) (e : EncodedWord) : List UInt8 :=
  charset ++ byte '?' :: methodLetter e.method :: byte '?' ::
    (e.content qpAllowWord ++ [byte '?', byte '='])

theorem text_tail (charset : List UInt8) (e : EncodedWord) :
    e.text qpAllowWord charset = byte '=' :: byte '?' :: e.tail charset := by
  simp [EncodedWord.text, EncodedWord.tail]

theorem encodedWordLen_content (content rest : List UInt8)
    (plain : ∀ c ∈ content, passes c = true) :
    encodedWordLen (byte '?' :: (content ++ byte '?' :: byte '=' :: rest)) =
      if content.head? = some (byte '=') then some 2 else some (content.length + 3) := by
  by_cases equals : content.head? = some (byte '=')
  · rw [if_pos equals]
    cases content with
    | nil => cases equals
    | cons c content =>
        obtain rfl : c = byte '=' := by simpa using equals
        exact encodedWordLen_end _
  · have next : (content ++ byte '?' :: byte '=' :: rest).head? ≠ some (byte '=') := by
      cases content with
      | nil => simp +decide
      | cons c content => simpa using equals
    rw [if_neg equals, encodedWordLen_question _ next, encodedWordLen_passes _ _ plain,
      encodedWordLen_end]
    simp only [Option.map_some, Option.some.injEq]
    omega

theorem encodedWordLen_tail (charset : List UInt8) (e : EncodedWord) (rest : List UInt8)
    (plain : ∀ c ∈ charset, passes c = true) :
    encodedWordLen (e.tail charset ++ rest) =
      if (e.content qpAllowWord).head? = some (byte '=') then some (charset.length + 4)
      else some (e.tail charset).length := by
  have letter := methodLetter_passes e.method
  have notEquals : methodLetter e.method ≠ byte '=' := by
    cases e.method <;> decide
  have shape : e.tail charset ++ rest = charset ++ byte '?' :: ([methodLetter e.method] ++
      byte '?' :: (e.content qpAllowWord ++ byte '?' :: byte '=' :: rest)) := by
    simp [EncodedWord.tail]
  rw [shape, encodedWordLen_passes _ _ plain, encodedWordLen_question _ (by simpa using notEquals),
    encodedWordLen_passes [methodLetter e.method] _ (by simpa using letter),
    encodedWordLen_content _ _ (content_passes e)]
  by_cases equals : (e.content qpAllowWord).head? = some (byte '=')
  · rw [if_pos equals, if_pos equals]
    simp only [Option.map_some, Option.some.injEq, List.length_singleton]
    omega
  · rw [if_neg equals, if_neg equals]
    simp only [Option.map_some, Option.some.injEq, EncodedWord.tail, List.length_append,
      List.length_cons, List.length_nil]
    omega

theorem encodedWordLen_backslash (charset p : List UInt8)
    (token : ∀ c ∈ charset, charsetChar c = true) (back : byte '\\' ∈ charset) :
    encodedWordLen (charset ++ p) = none := by
  obtain ⟨u, v, rfl, first⟩ := List.eq_append_cons_of_mem back
  have plain : ∀ c ∈ u, passes c = true := fun c hc =>
    charsetChar_passes c (token c (List.mem_append_left _ hc)) fun e => first (e ▸ hc)
  rw [List.append_assoc, encodedWordLen_passes u _ plain, List.cons_append,
    encodedWordLen_special _ _ (by decide)]
  rfl

theorem oneAtom_text_iff (charset : List UInt8) (e : EncodedWord)
    (token : ∀ c ∈ charset, charsetChar c = true) :
    OneAtom (e.text qpAllowWord charset) ↔
      byte '\\' ∉ charset ∧ (e.content qpAllowWord).head? ≠ some (byte '=') := by
  have scan : ∀ rest, encodedWordAt (byte '=' :: byte '?' :: e.tail charset ++ rest) =
      (encodedWordLen (e.tail charset ++ rest)).map (· + 2) := fun rest => by
    rw [List.cons_append, List.cons_append, encodedWordAt, if_pos rfl]
  rw [text_tail, oneAtom_iff]
  simp only [scan]
  by_cases back : byte '\\' ∈ charset
  · have none : ∀ rest, encodedWordLen (e.tail charset ++ rest) = none := by
      intro rest
      rw [EncodedWord.tail, List.append_assoc]
      exact encodedWordLen_backslash charset _ token back
    simp [none, back]
  · have plain : ∀ c ∈ charset, passes c = true := fun c hc =>
      charsetChar_passes c (token c hc) fun e => back (e ▸ hc)
    have found := fun rest => encodedWordLen_tail charset e rest plain
    by_cases equals : (e.content qpAllowWord).head? = some (byte '=')
    · have short : ∀ rest, encodedWordLen (e.tail charset ++ rest) = some (charset.length + 4) :=
        fun rest => by rw [found, if_pos equals]
      simp only [short, equals]
      simp [EncodedWord.tail]
    · have whole : ∀ rest, encodedWordLen (e.tail charset ++ rest) =
          some (e.tail charset).length := fun rest => by rw [found, if_neg equals]
      simp [whole, back, equals]

/-- Of the encoded words that `rfc2047_encode_str` emits, the tokenizer makes one atom each, if
and only if the charset has no backslash and the content does not begin with an `=`. -/
theorem emitted_one_atom_iff (graphemeBreak : Char → Char → Bool) (charset : List UInt8)
    (fromU : List Char → List UInt8) (str : List Char)
    (token : ∀ c ∈ charset, charsetChar c = true) :
    ∀ e ∈ emittedWords qpAllowWord graphemeBreak charset fromU str,
      OneAtom (e.text qpAllowWord charset) ↔
        byte '\\' ∉ charset ∧ (e.content qpAllowWord).head? ≠ some (byte '=') :=
  fun e _ => oneAtom_text_iff charset e token

def equalsText : List Char := ['=', 'a', 'a', 'a']

theorem equalsText_facts :
    charset.all charsetChar = true ∧
      (⟨.encodeqp, utf8 equalsText⟩ : EncodedWord) ∈
        emittedWords qpAllowWord (fun _ _ => true) charset utf8 equalsText ∧
      (EncodedWord.content qpAllowWord ⟨.encodeqp, utf8 equalsText⟩).head? = some (byte '=') := by
  decide +kernel

theorem emitted_one_atom_sample :
    OneAtom (EncodedWord.text qpAllowWord charset ⟨.encodeqp, utf8 equalsText⟩) ↔
      byte '\\' ∉ charset ∧
        (EncodedWord.content qpAllowWord ⟨.encodeqp, utf8 equalsText⟩).head? ≠ some (byte '=') :=
  emitted_one_atom_iff (fun _ _ => true) charset utf8 equalsText
    (List.all_eq_true.mp equalsText_facts.1) ⟨.encodeqp, utf8 equalsText⟩ equalsText_facts.2.1

/-- `=?utf-8?Q?=3Daaa?=`: the tokenizer's word ends after `?Q?=`. -/
theorem escape_first_cut :
    ¬ ∀ (graphemeBreak : Char → Char → Bool) (charset : List UInt8)
        (fromU : List Char → List UInt8) (str : List Char),
      (∀ c ∈ charset, charsetChar c = true) →
        ∀ e ∈ emittedWords qpAllowWord graphemeBreak charset fromU str,
          OneAtom (e.text qpAllowWord charset) := by
  intro all
  obtain ⟨token, inWords, escape⟩ := equalsText_facts
  have atom := all _ _ _ _ (List.all_eq_true.mp token) _ inWords
  exact ((oneAtom_text_iff charset _ (List.all_eq_true.mp token)).mp atom).2 escape

end Cone.Rfc2047Words
