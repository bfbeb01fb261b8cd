import Cone.Rfc2047Decode
import Cone.Rfc2047Encode

/-! # Encoded words, written and read again

What `rfc2047_encode_str` writes is white space, words without a `=` or `?`, and runs of encoded
words.  Two runs are never side by side, so the white space that `rfc2047_decoder` drops is what
the encoder put inside of a run. -/
set_option autoImplicit false
namespace Cone.Rfc2047RoundTrip

open Cone.Ctype Cone.Lib.Radix64 Cone.Encode Cone.Rfc2231 Cone.Rfc2047Encode Cone.Rfc2047Decode

/-! ## One encoded word -/

section Word
variable {qpAllow : UInt8 → Bool}

theorem nyb_digits : ∀ c : UInt8, UInt8.ofNat
    (nyb (xdigit.getD (c.toNat / 16 % 16) 0) * 16 + nyb (xdigit.getD (c.toNat % 16) 0)) = c :=
  forall_byte (by decide +kernel)

theorem decodeqp_plain {c : UInt8} (hc : c ≠ byte '=') (ptr : List UInt8) :
    decodeqp (c :: ptr) = (if c = byte '_' then byte ' ' else c) :: decodeqp ptr := by
  rw [decodeqp.eq_def]
  exact if_neg hc

theorem decodeqp_escape (a b : UInt8) (ptr : List UInt8) :
    decodeqp (byte '=' :: a :: b :: ptr) = UInt8.ofNat (nyb a * 16 + nyb b) :: decodeqp ptr := by
  rw [decodeqp.eq_def]
  exact if_pos rfl

theorem decodeqp_byte (c : UInt8) (ptr : List UInt8) :
    decodeqp (qpByte qpAllow c ++ ptr) = c :: decodeqp ptr := by
  by_cases hspace : c = byte ' '
  · rw [qpByte, if_pos hspace, List.singleton_append, decodeqp_plain (by decide), if_pos rfl, hspace]
  · by_cases henc : doEncodeByte qpAllow c = true
    · rw [qpByte, if_neg hspace, if_pos henc]
      simp only [List.cons_append, List.nil_append]
      rw [decodeqp_escape, nyb_digits]
    · have hne : c ≠ byte '=' ∧ c ≠ byte '_' := by
        simp only [doEncodeByte, Bool.or_eq_true, decide_eq_true_eq, not_or] at henc
        tauto
      rw [qpByte, if_neg hspace, if_neg henc, List.singleton_append, decodeqp_plain hne.1,
        if_neg hne.2]

theorem decodeqp_content (ptr : List UInt8) : decodeqp (ptr.flatMap (qpByte qpAllow)) = ptr := by
  induction ptr with
  | nil => rfl
  | cons c ptr ih => rw [List.flatMap_cons, decodeqp_byte, ih]

theorem base64char_decode (n : Nat) (h : n < 64) :
    decode64 (base64char n) = n ∧ base64char n ≠ byte '=' ∧ base64char n ≠ byte '?' := by
  have hall : ∀ n : Fin 64, decode64 (base64char n) = n.val ∧ base64char n ≠ byte '=' ∧
      base64char n ≠ byte '?' := by decide +kernel
  exact hall ⟨n, h⟩

theorem ofNat_eq_of_mod {n : Nat} {c : UInt8} (h : n % 256 = c.toNat) : UInt8.ofNat n = c := by
  apply UInt8.toNat_inj.mp
  rw [UInt8.toNat_ofNat']
  exact h

theorem decodebase64_quads (ptr : List UInt8) : decodebase64 (base64Quads ptr) = ptr := by
  induction ptr using base64Quads.induct with
  | case1 => rfl
  | case2 a =>
      have h0 := base64char_decode _ (sextet0_lt a.toNat_lt)
      have h1 := base64char_decode (sextet1 a.toNat 0) (sextet1_lt (by omega))
      have ha : octet0 (sextet0 a.toNat) (sextet1 a.toNat 0) = a.toNat :=
        octet0_sextets (by omega)
      simp [base64Quads, decodebase64, h0.1, h1.1, ha]
  | case3 a b =>
      have h0 := base64char_decode _ (sextet0_lt a.toNat_lt)
      have h1 := base64char_decode (sextet1 a.toNat b.toNat) (sextet1_lt b.toNat_lt)
      have h2 := base64char_decode (sextet2 b.toNat 0) (sextet2_lt (by omega))
      have ha : octet0 (sextet0 a.toNat) (sextet1 a.toNat b.toNat) = a.toNat :=
        octet0_sextets b.toNat_lt
      have hb : UInt8.ofNat (octet1 (sextet1 a.toNat b.toNat) (sextet2 b.toNat 0)) = b :=
        ofNat_eq_of_mod (octet1_sextets b.toNat_lt (by omega))
      simp [base64Quads, decodebase64, h0.1, h1.1, h2.1, h2.2.1, ha, hb]
  | case4 a b c rest ih =>
      have h0 := base64char_decode _ (sextet0_lt a.toNat_lt)
      have h1 := base64char_decode (sextet1 a.toNat b.toNat) (sextet1_lt b.toNat_lt)
      have h2 := base64char_decode (sextet2 b.toNat c.toNat) (sextet2_lt c.toNat_lt)
      have h3 := base64char_decode (sextet3 c.toNat) sextet3_lt
      have ha : octet0 (sextet0 a.toNat) (sextet1 a.toNat b.toNat) = a.toNat :=
        octet0_sextets b.toNat_lt
      have hb : UInt8.ofNat (octet1 (sextet1 a.toNat b.toNat) (sextet2 b.toNat c.toNat)) = b :=
        ofNat_eq_of_mod (octet1_sextets b.toNat_lt c.toNat_lt)
      have hc : UInt8.ofNat (octet2 (sextet2 b.toNat c.toNat) (sextet3 c.toNat)) = c :=
        ofNat_eq_of_mod (octet2_sextets c.toNat_lt)
      simp [base64Quads, decodebase64, h0.1, h1.1, h2.1, h2.2.1, h3.1, h3.2.1, ha, hb, hc, ih]

theorem mark_notMem_qp (ptr : List UInt8) : byte '?' ∉ ptr.flatMap (qpByte qpAllow) := by
  have hdigit : byte '?' ∉ xdigit := by decide
  have hget : ∀ n < 16, xdigit.getD n 0 ∈ xdigit := by decide
  intro hmem
  obtain ⟨c, _, hc⟩ := List.mem_flatMap.mp hmem
  rw [qpByte] at hc
  split at hc
  · revert hc
    decide
  · split at hc
    · simp only [List.mem_cons, List.not_mem_nil, or_false] at hc
      rcases hc with hc | hc | hc
      · exact absurd hc (by decide)
      · exact hdigit (hc ▸ hget _ (Nat.mod_lt _ (by decide)))
      · exact hdigit (hc ▸ hget _ (Nat.mod_lt _ (by decide)))
    · rename_i henc
      obtain rfl := List.mem_singleton.mp hc
      exact henc (by simp [doEncodeByte])

theorem mark_notMem_quads (ptr : List UInt8) : byte '?' ∉ base64Quads ptr := by
  have hne : ∀ n, n < 64 → byte '?' ≠ base64char n := fun n hn =>
    (base64char_decode n hn).2.2.symm
  have hpad : byte '?' ≠ byte '=' := by decide
  induction ptr using base64Quads.induct with
  | case1 => simp [base64Quads]
  | case2 a =>
      simp [base64Quads, hne _ (sextet0_lt a.toNat_lt),
        hne (sextet1 a.toNat 0) (sextet1_lt (by omega)), hpad]
  | case3 a b =>
      simp [base64Quads, hne _ (sextet0_lt a.toNat_lt),
        hne (sextet1 a.toNat b.toNat) (sextet1_lt b.toNat_lt),
        hne (sextet2 b.toNat 0) (sextet2_lt (by omega)), hpad]
  | case4 a b c rest ih =>
      simp [base64Quads, hne _ (sextet0_lt a.toNat_lt),
        hne (sextet1 a.toNat b.toNat) (sextet1_lt b.toNat_lt),
        hne (sextet2 b.toNat c.toNat) (sextet2_lt c.toNat_lt), hne (sextet3 c.toNat) sextet3_lt, ih]

theorem splitAtEnd_content {content : List UInt8} (hmark : byte '?' ∉ content) (rest : List UInt8) :
    splitAtEnd (content ++ byte '?' :: byte '=' :: rest) = some (content, rest) := by
  induction content with
  | nil => rfl
  | cons c content ih =>
      have hc : c ≠ byte '?' := fun he => hmark (he ▸ List.mem_cons_self)
      rw [List.cons_append, splitAtEnd, if_neg fun h => hc h.1,
        ih fun hm => hmark (List.mem_cons_of_mem _ hm)]
      rfl

/-- A word that the encoder wrote is read as its text, whatever follows it. -/
theorem decodeAtom_encoder (method : Method) (ptr rest : List UInt8) :
    decodeAtom (encoder qpAllow method ptr ++ rest) = some (⟨charset, [], ptr⟩, rest) := by
  have hcharset : ∀ str, splitAtMark (charset ++ byte '?' :: str) = some (charset, str) :=
    fun _ => rfl
  have hletter : ∀ str, splitAtMark (methodLetter method :: byte '?' :: str) =
      some ([methodLetter method], str) := by
    intro str
    cases method <;> rfl
  have hmark : byte '?' ∉ contentOf qpAllow method ptr := by
    cases method with
    | encodeqp => exact mark_notMem_qp ptr
    | encodebase64 => exact mark_notMem_quads ptr
  have hshape : encoder qpAllow method ptr ++ rest = byte '=' :: byte '?' :: (charset ++ byte '?' ::
      methodLetter method :: byte '?' :: (contentOf qpAllow method ptr ++
        byte '?' :: byte '=' :: rest)) := by
    simp [encoder]
  rw [hshape, decodeAtom, if_pos ⟨rfl, rfl⟩, hcharset]
  simp only [hletter, splitAtEnd_content hmark]
  cases method with
  | encodeqp =>
      rw [contentOf, decodeqp_content]
      rfl
  | encodebase64 =>
      rw [contentOf, decodebase64_quads]
      rfl

end Word

/-! ## Reading a text -/

def Reads (text out : List UInt8) : Prop :=
  ∀ fuel, text.length ≤ fuel → (decoder fuel text).flatMap Call.content = out

theorem reads_nil : Reads [] [] := by
  intro fuel _
  cases fuel <;> rfl

theorem reads_plain {c : UInt8} (hc : c ≠ byte '=') {text out : List UInt8}
    (h : Reads text out) : Reads (c :: text) (c :: out) := by
  intro fuel hfuel
  cases fuel with
  | zero => simp at hfuel
  | succ fuel =>
      have hrest := h (fuel + 1) (by simp at hfuel; omega)
      have hsplit : splitAtWord (c :: text) = (c :: (splitAtWord text).1, (splitAtWord text).2) := by
        rw [splitAtWord, if_neg fun h => hc h.1]
      rw [decoder] at hrest
      rw [decoder, hsplit, List.flatMap_append, ← hrest, List.flatMap_append]
      by_cases hempty : (splitAtWord text).1 = []
      · simp [hempty, plainCall]
      · simp [hempty, plainCall]

theorem reads_plains {w : List UInt8} (hw : ∀ c ∈ w, c ≠ byte '=') {text out : List UInt8}
    (h : Reads text out) : Reads (w ++ text) (w ++ out) := by
  induction w with
  | nil => exact h
  | cons c w ih =>
      exact reads_plain (hw c List.mem_cons_self) (ih fun d hd => hw d (List.mem_cons_of_mem _ hd))

section Stream
variable {qpAllow : UInt8 → Bool}

theorem reads_word {method : Method} {ptr rest out : List UInt8} (h : Reads (skipBetween rest) out) :
    Reads (encoder qpAllow method ptr ++ rest) (ptr ++ out) := by
  intro fuel hfuel
  have hlen : (skipBetween rest).length ≤ rest.length := by
    rw [skipBetween]
    split
    · exact (List.dropWhile_sublist _).length_le
    · exact le_refl _
  have hpos : 2 ≤ (encoder qpAllow method ptr).length := by simp [encoder]
  have hsplit : splitAtWord (encoder qpAllow method ptr ++ rest) =
      ([], encoder qpAllow method ptr ++ rest) := by
    simp [encoder, splitAtWord]
  cases fuel with
  | zero =>
      rw [List.length_append] at hfuel
      omega
  | succ fuel =>
      rw [List.length_append] at hfuel
      have hne : encoder qpAllow method ptr ++ rest ≠ [] := by simp [encoder]
      rw [decoder, hsplit]
      simp only [if_neg hne, decodeAtom_encoder, if_true, List.nil_append, List.flatMap_cons,
        h fuel (by omega)]

theorem skipBetween_self {rest : List UInt8}
    (h : decodeAtom (rest.dropWhile between) = none) : skipBetween rest = rest := by
  rw [skipBetween]
  simp [h]

theorem skipBetween_word (method : Method) (ptr rest : List UInt8) :
    skipBetween (byte ' ' :: (encoder qpAllow method ptr ++ rest)) =
      encoder qpAllow method ptr ++ rest := by
  have hdrop : (byte ' ' :: (encoder qpAllow method ptr ++ rest)).dropWhile between =
      encoder qpAllow method ptr ++ rest := by
    have hspace : between (byte ' ') = true := by decide
    have hstop : between (byte '=') = false := by decide
    simp [encoder, hspace, hstop]
  rw [skipBetween]
  simp [hdrop, decodeAtom_encoder]

theorem reads_run (method : Method) {ptrs : List (List UInt8)} (hptrs : ptrs ≠ [])
    {rest out : List UInt8} (hnext : decodeAtom (rest.dropWhile between) = none)
    (h : Reads rest out) :
    Reads ([byte ' '].intercalate (ptrs.map (encoder qpAllow method)) ++ rest)
      (ptrs.flatten ++ out) := by
  induction ptrs with
  | nil => exact absurd rfl hptrs
  | cons ptr ptrs ih =>
      cases ptrs with
      | nil =>
          rw [← skipBetween_self hnext] at h
          simpa using reads_word h
      | cons ptr' ptrs =>
          have htail := ih (by simp)
          rw [List.map_cons] at htail
          rw [List.map_cons, List.map_cons]
          have hsep : [byte ' '].intercalate (encoder qpAllow method ptr ::
                encoder qpAllow method ptr' :: ptrs.map (encoder qpAllow method)) =
              encoder qpAllow method ptr ++ byte ' ' ::
                [byte ' '].intercalate (encoder qpAllow method ptr' ::
                  ptrs.map (encoder qpAllow method)) := by
            simp [List.intercalate]
          obtain ⟨tail, htext⟩ : ∃ tail, [byte ' '].intercalate (encoder qpAllow method ptr' ::
              ptrs.map (encoder qpAllow method)) ++ rest =
                encoder qpAllow method ptr' ++ tail := by
            cases ptrs with
            | nil => exact ⟨rest, by simp [List.intercalate]⟩
            | cons q ptrs => exact ⟨_, by simp [List.intercalate]; rfl⟩
          rw [htext] at htail
          rw [hsep, List.append_assoc, List.cons_append, htext, List.flatten_cons,
            List.append_assoc]
          refine reads_word ?_
          rw [skipBetween_word]
          exact htail

end Stream

/-! ## The encoder's output -/

theorem utf8_append (a b : List Char) : utf8 (a ++ b) = utf8 a ++ utf8 b := List.flatMap_append

theorem utf8_flatten (chunks : List (List Char)) :
    (chunks.map utf8).flatten = utf8 chunks.flatten := by
  induction chunks with
  | nil => rfl
  | cons uc chunks ih => rw [List.map_cons, List.flatten_cons, ih, List.flatten_cons, utf8_append]

section Output
variable (qpAllow : UInt8 → Bool) (graphemeBreak : Char → Char → Bool)

theorem graphemeCut_pos (uc : List Char) {j : Nat} (hj : 0 < j) (i : Nat) :
    0 < graphemeCut graphemeBreak uc j i := by
  induction i with
  | zero => exact hj
  | succ i ih =>
      rw [graphemeCut]
      split
      · exact Nat.succ_pos i
      · exact ih

theorem wordSize_pos {offset : Nat} (hoffset : offset ≤ 27) (c : Char) (uc : List Char) :
    0 < wordSize graphemeBreak offset (c :: uc) := by
  rw [wordSize]
  split
  · exact Nat.succ_pos _
  · exact graphemeCut_pos graphemeBreak _ (by rw [foldLength]; omega) _

theorem exists_encodedWords (method : Method) (fuel : Nat) {offset : Nat} (hoffset : offset ≤ 27)
    (uc : List Char) (hfuel : uc.length ≤ fuel) :
    ∃ chunks : List (List Char), chunks.flatten = uc ∧ (uc ≠ [] → chunks ≠ []) ∧
      encodedWords qpAllow graphemeBreak method fuel offset uc =
        (chunks.map utf8).map (encoder qpAllow method) := by
  induction fuel generalizing offset uc with
  | zero =>
      obtain rfl := List.length_eq_zero_iff.mp (by omega : uc.length = 0)
      exact ⟨[], rfl, by simp, rfl⟩
  | succ fuel ih =>
      cases uc with
      | nil => exact ⟨[], rfl, by simp, rfl⟩
      | cons c uc =>
          have hpos := wordSize_pos graphemeBreak hoffset c uc
          obtain ⟨chunks, hflat, _, hwords⟩ := ih (Nat.zero_le _)
            ((c :: uc).drop (wordSize graphemeBreak offset (c :: uc)))
            (by simp at hfuel ⊢; omega)
          refine ⟨(c :: uc).take (wordSize graphemeBreak offset (c :: uc)) :: chunks, ?_, by simp, ?_⟩
          · rw [List.flatten_cons, hflat, List.take_append_drop]
          · rw [encodedWords, hwords]
            rfl

theorem reads_doEncodeWords {offset : Nat} (hoffset : offset ≤ 27) {uc : List Char} (huc : uc ≠ [])
    {rest out : List UInt8} (hnext : decodeAtom (rest.dropWhile between) = none)
    (h : Reads rest out) :
    Reads (doEncodeWords qpAllow graphemeBreak true offset uc ++ rest) (utf8 uc ++ out) := by
  have hmethod : ∀ method, Reads
      (doEncodeWordsMethod qpAllow graphemeBreak method offset uc ++ rest) (utf8 uc ++ out) := by
    intro method
    obtain ⟨chunks, rfl, hne, hwords⟩ := exists_encodedWords qpAllow graphemeBreak method uc.length
      hoffset uc (le_refl _)
    rw [doEncodeWordsMethod, hwords, ← utf8_flatten]
    exact reads_run method (by simpa using hne huc) hnext h
  rw [doEncodeWords, if_pos rfl]
  dsimp only
  split
  · exact hmethod .encodeqp
  · exact hmethod .encodebase64

/-! ## Where a run ends -/

def StartsPlain (uc : List Char) : Prop := (encodeWord qpAllow (uc.dropWhile isSpace)).1 = false

theorem encodeWord_ne_nil {uc : List Char} (h : (encodeWord qpAllow uc).1 = true) :
    0 < (encodeWord qpAllow uc).2.length := by
  rw [List.length_pos_iff]
  intro hnil
  simp only [encodeWord] at h hnil
  rw [hnil] at h
  simp at h

theorem startsPlain_moreWords (fuel : Nat) (uc : List Char) (hfuel : uc.length ≤ fuel) :
    StartsPlain qpAllow (uc.drop (moreWords qpAllow fuel uc)) := by
  induction fuel generalizing uc with
  | zero =>
      obtain rfl := List.length_eq_zero_iff.mp (by omega : uc.length = 0)
      rfl
  | succ fuel ih =>
      rw [moreWords]
      by_cases hword : (encodeWord qpAllow (uc.dropWhile isSpace)).1 = true
      · have hpos := encodeWord_ne_nil qpAllow hword
        simp only [if_pos hword]
        rw [← List.drop_drop]
        refine ih _ ?_
        rw [List.length_drop]
        omega
      · simp only [if_neg hword, List.drop_zero]
        simpa [StartsPlain] using hword

theorem startsPlain_encodeWords {uc : List Char} (h : (encodeWord qpAllow uc).1 = true) :
    encodeWords qpAllow uc = (true, (encodeWords qpAllow uc).2) ∧ 0 < (encodeWords qpAllow uc).2 ∧
      StartsPlain qpAllow (uc.drop (encodeWords qpAllow uc).2) := by
  have hpos := encodeWord_ne_nil qpAllow h
  have heq : encodeWords qpAllow uc = (true, (encodeWord qpAllow uc).2.length +
      moreWords qpAllow uc.length (uc.drop (encodeWord qpAllow uc).2.length)) := by
    rw [encodeWords]
    exact if_pos h
  rw [heq]
  refine ⟨rfl, by simp only; omega, ?_⟩
  simp only
  rw [← List.drop_drop]
  exact startsPlain_moreWords qpAllow _ _ (by rw [List.length_drop]; omega)

theorem byte_of_between {c : Char} (hc : c.toNat ≤ 0x7F) (h : between (byte c) = true) :
    isSpace c = true := by
  have hbyte : ∀ d : Char, d.toNat ≤ 0x7F → byte c = byte d → c = d := by
    intro d hd heq
    have hnat := congrArg UInt8.toNat heq
    simp only [byte, UInt8.toNat_ofNat'] at hnat
    exact Char.toNat_inj.mp (by omega)
  simp only [between, Bool.or_eq_true, decide_eq_true_eq] at h
  simp only [isSpace, Bool.or_eq_true, decide_eq_true_eq]
  rcases h with ((h | h) | h) | h
  · exact .inr (hbyte ' ' (by decide) h)
  · exact .inl (.inl (.inl (hbyte '\t' (by decide) h)))
  · exact .inl (.inl (.inr (hbyte '\r' (by decide) h)))
  · exact .inl (.inr (hbyte '\n' (by decide) h))

theorem plain_char {c : Char} (h : doEncodeWord qpAllow c = false) :
    String.utf8EncodeChar c = [byte c] ∧ byte c ≠ byte '=' ∧ c.toNat ≤ 0x7F := by
  simp only [doEncodeWord, Bool.or_eq_false_iff, decide_eq_false_iff_not, Nat.not_lt] at h
  obtain ⟨hascii, hbyte⟩ := h
  refine ⟨?_, ?_, hascii⟩
  · have hsize : c.utf8Size = 1 := Char.utf8Size_eq_one_iff.mpr hascii
    exact String.utf8EncodeChar_eq_singleton hsize
  · intro heq
    rw [heq] at hbyte
    simp [doEncodeByte] at hbyte

theorem plain_word {word : List Char} (h : word.any (doEncodeWord qpAllow) = false) :
    utf8 word = word.map byte ∧ ∀ b ∈ utf8 word, b ≠ byte '=' := by
  have hchars : ∀ c ∈ word, String.utf8EncodeChar c = [byte c] ∧ byte c ≠ byte '=' := by
    intro c hc
    have hplain := List.any_eq_false.mp h c hc
    exact ⟨(plain_char qpAllow (by simpa using hplain)).1,
      (plain_char qpAllow (by simpa using hplain)).2.1⟩
  have hmap : utf8 word = word.map byte := by
    rw [utf8, List.flatMap_congr (g := fun c => [byte c]) (fun c hc => (hchars c hc).1),
      ← List.map_eq_flatMap]
  refine ⟨hmap, fun b hb => ?_⟩
  rw [hmap] at hb
  obtain ⟨c, hc, rfl⟩ := List.mem_map.mp hb
  exact (hchars c hc).2

theorem decodeAtom_plain {c : UInt8} (hc : c ≠ byte '=') (text : List UInt8) :
    decodeAtom (c :: text) = none := by
  cases text with
  | nil => rfl
  | cons d text =>
      rw [decodeAtom]
      exact if_neg fun h => hc h.1

theorem encodeWords_plain {uc : List Char} (h : (encodeWord qpAllow uc).1 = false) :
    encodeWords qpAllow uc = (false, (uc.takeWhile fun d => !isSpace d).length) := by
  rw [encodeWords, h]
  rfl

theorem isSpace_char {c : Char} (h : isSpace c = true) :
    String.utf8EncodeChar c = [byte c] ∧ byte c ≠ byte '=' ∧ between (byte c) = true := by
  simp only [isSpace, Bool.or_eq_true, decide_eq_true_eq] at h
  rcases h with ((rfl | rfl) | rfl) | rfl <;> decide

/-! ## The round trip -/

theorem reads_encodeCallback (fuel : Nat) {offset : Nat} (hoffset : offset ≤ 27) (uc : List Char)
    (hfuel : uc.length ≤ fuel) :
    Reads (encodeCallback qpAllow graphemeBreak fuel offset uc) (utf8 uc) ∧
      (StartsPlain qpAllow uc → decodeAtom
        ((encodeCallback qpAllow graphemeBreak fuel offset uc).dropWhile between) = none) := by
  induction fuel generalizing offset uc with
  | zero =>
      obtain rfl := List.length_eq_zero_iff.mp (by omega : uc.length = 0)
      exact ⟨reads_nil, fun _ => rfl⟩
  | succ fuel ih =>
      cases uc with
      | nil => exact ⟨reads_nil, fun _ => rfl⟩
      | cons c uc =>
          rw [List.length_cons] at hfuel
          by_cases hspace : isSpace c = true
          · obtain ⟨hutf8, hne, hbetween⟩ := isSpace_char hspace
            obtain ⟨hreads, hplain⟩ := ih hoffset uc (by omega)
            rw [encodeCallback, if_pos hspace]
            refine ⟨?_, fun hstart => ?_⟩
            · have hcons := reads_plain hne hreads
              simpa [utf8, hutf8] using hcons
            · rw [List.dropWhile_cons_of_pos hbetween]
              refine hplain ?_
              simpa [StartsPlain, List.dropWhile_cons, hspace] using hstart
          · rw [encodeCallback, if_neg hspace]
            dsimp only
            cases hword : (encodeWord qpAllow (c :: uc)).1 with
            | false =>
                have hword' : ((c :: uc).takeWhile fun d => !isSpace d).any
                    (doEncodeWord qpAllow) = false := hword
                have hsplit : (c :: uc).takeWhile (fun d => !isSpace d) ++
                    (c :: uc).dropWhile (fun d => !isSpace d) = c :: uc :=
                  List.takeWhile_append_dropWhile
                rw [encodeWords_plain qpAllow hword]
                have hhead : (c :: uc).takeWhile (fun d => !isSpace d) =
                    c :: uc.takeWhile fun d => !isSpace d :=
                  List.takeWhile_cons_of_pos (by simpa using hspace)
                generalize (c :: uc).takeWhile (fun d => !isSpace d) = word at hword' hsplit hhead ⊢
                generalize (c :: uc).dropWhile (fun d => !isSpace d) = rest at hsplit
                obtain ⟨_, hnoeq⟩ := plain_word qpAllow hword'
                have hlen : rest.length ≤ fuel := by
                  have hlen := congrArg List.length hsplit
                  simp [hhead] at hlen
                  omega
                rw [← hsplit, List.take_left, List.drop_left, utf8_append, doEncodeWords,
                  if_neg Bool.false_ne_true]
                obtain ⟨hreads, _⟩ := ih (Nat.zero_le 27) rest hlen
                refine ⟨reads_plains hnoeq hreads, fun _ => ?_⟩
                -- the word's first byte is neither white space nor the start of an encoded word
                have hc : doEncodeWord qpAllow c = false := by
                  rw [hhead] at hword'
                  exact (by simpa using hword' : _ ∧ _).1
                obtain ⟨hutf8, hne, hascii⟩ := plain_char qpAllow hc
                have hbetween : ¬ between (byte c) = true := fun h =>
                  hspace (byte_of_between hascii h)
                rw [hhead, utf8, List.flatMap_cons, hutf8]
                simp only [List.cons_append, List.nil_append]
                rw [List.dropWhile_cons_of_neg hbetween]
                exact decodeAtom_plain hne _
            | true =>
                obtain ⟨hwords, hpos, hstart⟩ := startsPlain_encodeWords qpAllow hword
                generalize hindex : (encodeWords qpAllow (c :: uc)).2 = index at hwords hpos hstart
                rw [hwords]
                obtain ⟨hreads, hplain⟩ := ih (Nat.zero_le 27) ((c :: uc).drop index)
                  (by rw [List.length_drop, List.length_cons]; omega)
                refine ⟨?_, fun hstarts => ?_⟩
                · have hsplit : utf8 (c :: uc) = utf8 ((c :: uc).take index) ++
                      utf8 ((c :: uc).drop index) := by rw [← utf8_append, List.take_append_drop]
                  rw [hsplit]
                  exact reads_doEncodeWords qpAllow graphemeBreak hoffset
                    (by simp; omega) (hplain hstart) hreads
                · rw [StartsPlain, List.dropWhile_cons_of_neg hspace, hword] at hstarts
                  exact absurd hstarts.symm Bool.false_ne_true

/-- `rfc2047_decoder` undoes `rfc2047_encode_str`, whatever may stand in quoted-printable. -/
theorem decoded_encodeStr (str : List Char) :
    decoded (encodeStr qpAllow graphemeBreak str) = utf8 str := by
  have hreads := (reads_encodeCallback qpAllow graphemeBreak str.length (le_refl 27) str
    (le_refl _)).1
  exact hreads _ (le_refl _)

end Output

example : encodeStr qpAllowWord (fun _ _ => true) ['a', ' ', '=', '?'] =
    (['a', ' ', '=', '?', 'u', 't', 'f', '-', '8', '?', 'B', '?', 'P', 'T', '8', '=', '?', '=']).map
      byte := by
  decide +kernel

end Cone.Rfc2047RoundTrip
