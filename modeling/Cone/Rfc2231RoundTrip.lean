import Cone.Rfc2231Fragments
import Cone.Rfc2231Header

/-! # A parameter written and read again

`rfc2231_attrCreate`, a Content-Disposition line, and `rfc2231_decodeDisposition`: which values
come back. -/
set_option autoImplicit false
namespace Cone.Rfc2231RoundTrip

open Cone.Ctype Cone.Lib.Decimal Cone.Rfc822Tokenize Cone.Rfc2045Header Cone.Rfc2231
open Cone.Rfc2231Fragments Cone.Rfc2231Header

/-! ## Brackets and units -/

/-- Every bracket of the text closes or opens what the one before it opened or closed. -/
def bracketsAlternate : Bool → List UInt8 → Bool
  | _, [] => true
  | inbracket, c :: v => !unpaired inbracket c && bracketsAlternate (bracketAfter inbracket c) v

theorem length_keptBrackets_le (inbracket : Bool) (v : List UInt8) :
    (keptBrackets inbracket v).length ≤ v.length := by
  induction v generalizing inbracket with
  | nil => exact le_refl _
  | cons c v ih =>
      have ih := ih (bracketAfter inbracket c)
      rw [keptBrackets, List.length_append, List.length_cons]
      split
      · rw [List.length_nil]
        omega
      · rw [List.length_singleton]
        omega

theorem keptBrackets_eq_iff (inbracket : Bool) (v : List UInt8) :
    keptBrackets inbracket v = v ↔ bracketsAlternate inbracket v = true := by
  induction v generalizing inbracket with
  | nil => simp [keptBrackets, bracketsAlternate]
  | cons c v ih =>
      by_cases hpair : unpaired inbracket c = true
      · have hlen := length_keptBrackets_le (bracketAfter inbracket c) v
        have hne : keptBrackets inbracket (c :: v) ≠ c :: v := by
          intro he
          have hle := congrArg List.length he
          rw [keptBrackets, if_pos hpair, List.nil_append, List.length_cons] at hle
          omega
        simp [hne, bracketsAlternate, hpair]
      · simp [keptBrackets, bracketsAlternate, hpair, ih]

theorem xdigit_not_bracket : ∀ c ∈ xdigit, c ≠ byte '<' ∧ c ≠ byte '>' := by decide +kernel

theorem keptBrackets_unit {u : List UInt8} (hu : IsUnit u) (inbracket : Bool) :
    keptBrackets inbracket u = [] ∨ keptBrackets inbracket u = u := by
  cases hu with
  | @char c hc =>
      by_cases hpair : unpaired inbracket c = true
      · exact Or.inl (by simp [keptBrackets, hpair])
      · exact Or.inr (by simp [keptBrackets, hpair])
  | @escape a b ha hb =>
      right
      apply keptBrackets_of_noBracket
      intro c hc
      simp only [List.mem_cons, List.not_mem_nil, or_false] at hc
      rcases hc with rfl | rfl | rfl
      · decide
      · exact xdigit_not_bracket c ha
      · exact xdigit_not_bracket c hb

theorem exists_keptUnits (us : List (List UInt8)) (hus : ∀ u ∈ us, IsUnit u) (inbracket : Bool) :
    ∃ vs : List (List UInt8), (∀ v ∈ vs, IsUnit v) ∧ keptBrackets inbracket us.flatten = vs.flatten := by
  induction us generalizing inbracket with
  | nil => exact ⟨[], by simp, rfl⟩
  | cons u us ih =>
      have hu := hus u List.mem_cons_self
      obtain ⟨vs, hvs, hkept⟩ :=
        ih (fun v hv => hus v (List.mem_cons_of_mem _ hv)) (bracketsAfter inbracket u)
      rw [List.flatten_cons, keptBrackets_append, hkept]
      obtain hnone | hall := keptBrackets_unit hu inbracket
      · exact ⟨vs, hvs, by rw [hnone]; rfl⟩
      · refine ⟨u :: vs, ?_, by rw [hall]; rfl⟩
        intro v hv
        obtain rfl | hv := List.mem_cons.mp hv
        · exact hu
        · exact hvs v hv

theorem escape_bracket_facts (c : UInt8) (b : Bool) :
    bracketsAfter b (escape c) = bracketAfter b c ∧
      keptBrackets b (escape c) = if unpaired b c then [] else escape c := by
  by_cases hc : c = byte '<' ∨ c = byte '>'
  · have hplain : escape c = [c] := by
      obtain rfl | rfl := hc
      · rfl
      · rfl
    rw [hplain]
    exact ⟨rfl, by rw [keptBrackets, keptBrackets, List.append_nil]⟩
  · rw [not_or] at hc
    have hkept : ∀ d ∈ escape c, d ≠ byte '<' ∧ d ≠ byte '>' := by
      intro d hd
      rw [escape] at hd
      split at hd
      · simp only [List.mem_cons, List.not_mem_nil, or_false] at hd
        obtain rfl | rfl | rfl := hd
        · decide
        · exact xdigit_not_bracket _ (getD_xdigit_mem _ (Nat.mod_lt _ (by decide)))
        · exact xdigit_not_bracket _ (getD_xdigit_mem _ (Nat.mod_lt _ (by decide)))
      · rwa [List.mem_singleton.mp hd]
    have hpaired : unpaired b c = false := by simp [unpaired, hc.1, hc.2]
    rw [bracketsAfter_of_noBracket hkept, keptBrackets_of_noBracket hkept, bracketAfter,
      if_neg hc.1, if_neg hc.2, hpaired]
    exact ⟨rfl, rfl⟩

theorem keptBrackets_escaped (inbracket : Bool) (value : List UInt8) :
    keptBrackets inbracket (value.flatMap escape) = (keptBrackets inbracket value).flatMap escape := by
  induction value generalizing inbracket with
  | nil => rfl
  | cons c value ih =>
      obtain ⟨hafter, hkept⟩ := escape_bracket_facts c inbracket
      rw [List.flatMap_cons, keptBrackets_append, hafter, hkept, ih, keptBrackets,
        List.flatMap_append]
      split
      · rfl
      · rw [List.flatMap_singleton]

def keptPieces : Bool → List (List UInt8) → List (List UInt8)
  | _, [] => []
  | inbracket, piece :: pieces =>
    keptBrackets inbracket piece :: keptPieces (bracketsAfter inbracket piece) pieces

theorem decodeText_keptPieces (groups : List (List (List UInt8)))
    (hgroups : ∀ g ∈ groups, ∀ u ∈ g, IsUnit u) (inbracket : Bool) :
    (keptPieces inbracket (groups.map List.flatten)).flatMap (decodeText true) =
      decodeText true (keptBrackets inbracket (groups.map List.flatten).flatten) := by
  induction groups generalizing inbracket with
  | nil => rfl
  | cons g groups ih =>
      obtain ⟨vs, hvs, hkept⟩ := exists_keptUnits g (hgroups g List.mem_cons_self) inbracket
      have ih := ih (fun g' hg' => hgroups g' (List.mem_cons_of_mem _ hg'))
        (bracketsAfter inbracket g.flatten)
      rw [List.map_cons, keptPieces, List.flatMap_cons, ih, List.flatten_cons, keptBrackets_append,
        hkept, decodeText_append hvs]

/-! ## The attributes of the fragments -/

def attrOf (p : List UInt8 × List UInt8) : Attr := ⟨p.1, p.2⟩

theorem attrset_new (attrs : List Attr) (name value : List UInt8)
    (hnew : ∀ a ∈ attrs, a.name ≠ name) : attrset attrs name (some value) = attrs ++ [⟨name, value⟩] := by
  induction attrs with
  | nil => rfl
  | cons a attrs ih =>
      rw [attrset, if_neg (hnew a List.mem_cons_self),
        ih fun b hb => hnew b (List.mem_cons_of_mem _ hb)]
      rfl

theorem foldl_keepAttr (ps : List (List UInt8 × List UInt8)) (attrs : List Attr)
    (hnew : ∀ p ∈ ps, ∀ a ∈ attrs, a.name ≠ p.1) (hdistinct : (ps.map Prod.fst).Nodup) :
    ps.foldl keepAttr attrs = attrs ++ ps.map attrOf := by
  induction ps generalizing attrs with
  | nil => simp
  | cons p ps ih =>
      rw [List.map_cons, List.nodup_cons] at hdistinct
      rw [List.foldl_cons, keepAttr, attrset_new attrs p.1 p.2 (hnew p List.mem_cons_self), ih]
      · simp [attrOf]
      · intro q hq a ha
        obtain ha | ha := List.mem_append.mp ha
        · exact hnew q (List.mem_cons_of_mem _ hq) a ha
        · obtain rfl := List.mem_singleton.mp ha
          intro he
          exact hdistinct.1 (List.mem_map.mpr ⟨q, hq, he.symm⟩)
      · exact hdistinct.2

/-- The name and value of a parameter, as `parse_content_header` reads it. -/
def pairOf (p : Parameter) : List UInt8 × List UInt8 := (p.param, p.value)

theorem fragmentName_injective {name : List UInt8} {m n : Nat}
    (h : fragmentName name m = fragmentName name n) : m = n := by
  have htail := List.append_cancel_left h
  exact decimal_injective (List.append_cancel_right (List.cons.inj htail).2)

theorem numbered_names (name : List UInt8) (n : Nat) (pieces : List (List UInt8)) :
    ∀ p ∈ numbered name n pieces, ∃ m, n ≤ m ∧ p.param = fragmentName name m := by
  induction pieces generalizing n with
  | nil => intro p hp; simp [numbered] at hp
  | cons piece pieces ih =>
      intro p hp
      rw [numbered] at hp
      obtain rfl | hp := List.mem_cons.mp hp
      · exact ⟨n, le_refl _, rfl⟩
      · obtain ⟨m, hm, hname⟩ := ih (n + 1) p hp
        exact ⟨m, by omega, hname⟩

theorem numbered_values (name : List UInt8) (n : Nat) (pieces : List (List UInt8)) :
    ∀ p ∈ numbered name n pieces, p.value ∈ pieces := by
  induction pieces generalizing n with
  | nil => intro p hp; simp [numbered] at hp
  | cons piece pieces ih =>
      intro p hp
      rw [numbered] at hp
      obtain rfl | hp := List.mem_cons.mp hp
      · exact List.mem_cons_self
      · exact List.mem_cons_of_mem _ (ih (n + 1) p hp)

theorem numbered_nodup (name : List UInt8) (n : Nat) (pieces : List (List UInt8)) :
    (((numbered name n pieces).map pairOf).map Prod.fst).Nodup := by
  induction pieces generalizing n with
  | nil => simp [numbered]
  | cons piece pieces ih =>
      rw [numbered, List.map_cons, List.map_cons, List.nodup_cons]
      refine ⟨?_, ih (n + 1)⟩
      intro hmem
      rw [List.map_map] at hmem
      obtain ⟨p, hp, he⟩ := List.mem_map.mp hmem
      obtain ⟨m, hm, hname⟩ := numbered_names name (n + 1) pieces p hp
      have heq : fragmentName name m = fragmentName name n := by rw [← hname]; exact he
      have := fragmentName_injective heq
      omega

theorem byte_facts : ∀ c,
    (isdigit c = true → tolower c = c ∧ atomChar c = true ∧ tokenChar c = true) ∧
    (doEncode c = true ∨ (valueChar c && c ≠ NUL) = true) ∧
    (doEncode c = false → (c ≠ NUL ∧ c ≠ byte '"' ∧ c ≠ byte '\\') ∧ c ≠ byte '%' ∧ c ≠ byte '\'') ∧
    tolower (tolower c) = tolower c := forall_byte (by decide +kernel)

theorem digit_facts (c : UInt8) :
    isdigit c = true → tolower c = c ∧ atomChar c = true ∧ tokenChar c = true :=
  (byte_facts c).1

theorem fragmentName_lower (name : List UInt8) (n : Nat) :
    (fragmentName name n).map tolower = fragmentName (name.map tolower) n := by
  have hdec : (decimal n).map tolower = decimal n := by
    refine (List.map_congr_left fun c hc => ?_).trans (List.map_id _)
    exact (digit_facts c (isdigit_of_mem_decimal hc)).1
  have hstar : tolower (byte '*') = byte '*' := by decide
  simp [fragmentName, hdec, hstar]

theorem fragmentName_all {P : UInt8 → Bool} (hstar : P (byte '*') = true)
    (hdigit : ∀ c, isdigit c = true → P c = true) (name : List UInt8) (n : Nat) :
    (fragmentName name n).all P = name.all P := by
  have hdec : (decimal n).all P = true :=
    List.all_eq_true.mpr fun c hc => hdigit c (isdigit_of_mem_decimal hc)
  simp [fragmentName, hdec, hstar]

theorem oneWord_fragmentName (name : List UInt8) (n : Nat) :
    oneWord (fragmentName name n) = name.all atomChar := by
  have hall := fragmentName_all (P := atomChar) (by decide) (fun c hc => (digit_facts c hc).2.1)
    name n
  have hlen : (fragmentName name n).length ≠ 1 := by
    simp only [fragmentName, List.length_append, List.length_cons]
    omega
  have hne : fragmentName name n ≠ [] := by simp [fragmentName]
  simp [oneWord, hlen, hne, hall]

theorem readParams_numbered (name : List UInt8) (inbracket : Bool) (n : Nat)
    (pieces : List (List UInt8)) :
    readParams inbracket (numbered name n pieces) =
      if name.all atomChar then
        (numbered (name.map tolower) n (keptPieces inbracket pieces)).map pairOf
      else [] := by
  induction pieces generalizing inbracket n with
  | nil => cases h : name.all atomChar <;> rfl
  | cons piece pieces ih =>
      rw [numbered, readParams, oneWord_fragmentName, ih, fragmentName_lower]
      by_cases hatom : name.all atomChar = true
      · simp only [if_pos hatom]
        rfl
      · simp only [if_neg hatom]
        rfl

/-! ## The sections put together -/

def sections : Nat → List (List UInt8) → List Param
  | _, [] => []
  | n, piece :: pieces => ⟨n + 1, true, piece⟩ :: sections (n + 1) pieces

theorem insertParam_last (p : Param) (ps : List Param) (hle : ∀ q ∈ ps, q.paramnum ≤ p.paramnum) :
    insertParam p ps = ps ++ [p] := by
  induction ps with
  | nil => rfl
  | cons q ps ih =>
      have hq := hle q List.mem_cons_self
      rw [insertParam, if_neg (by omega), ih fun r hr => hle r (List.mem_cons_of_mem _ hr)]
      rfl

theorem buildAttrList_fragment (name piece : List UInt8) (n : Nat) (ps : List Param) :
    buildAttrList name ps ⟨fragmentName name n, piece⟩ = insertParam ⟨n + 1, true, piece⟩ ps := by
  have hdrop : (fragmentName name n).drop name.length = byte '*' :: (decimal n ++ [byte '*']) :=
    List.drop_left
  have hstart : name.isPrefixOf (fragmentName name n) = true :=
    List.isPrefixOf_iff_prefix.mpr (List.prefix_append _ _)
  have hnum : paramnumOf (byte '*' :: (decimal n ++ [byte '*'])) = n + 1 := by
    have hatoi : atoi (decimal n ++ [byte '*']) = n := atoi_decimal n (by simp; decide)
    rw [paramnumOf, hatoi, if_neg (by omega)]
    omega
  have hstar : endsInStar (fragmentName name n) = true := by
    have hsnoc : fragmentName name n = (name ++ byte '*' :: decimal n) ++ [byte '*'] := by
      simp [fragmentName]
    rw [endsInStar, hsnoc, List.getLast?_concat]
    exact decide_eq_true rfl
  rw [buildAttrList]
  simp only [hdrop, hstart, hnum, hstar]
  simp

theorem foldl_buildAttrList (name : List UInt8) (n : Nat) (pieces : List (List UInt8))
    (ps : List Param) (hle : ∀ q ∈ ps, q.paramnum ≤ n + 1) :
    ((numbered name n pieces).map (attrOf ∘ pairOf)).foldl (buildAttrList name) ps =
      ps ++ sections n pieces := by
  induction pieces generalizing n ps with
  | nil => simp [numbered, sections]
  | cons piece pieces ih =>
      rw [numbered, List.map_cons, List.foldl_cons]
      have hone : buildAttrList name ps ((attrOf ∘ pairOf) ⟨fragmentName name n, piece⟩) =
          ps ++ [⟨n + 1, true, piece⟩] := by
        rw [← insertParam_last _ ps hle]
        exact buildAttrList_fragment name piece n ps
      rw [hone, ih]
      · simp [sections]
      · intro q hq
        obtain hq | hq := List.mem_append.mp hq
        · have := hle q hq
          omega
        · obtain rfl := List.mem_singleton.mp hq
          exact Nat.le_succ _

theorem decode_upper {name : List UInt8} (hname : name.map tolower ≠ name) (attrs : List Attr)
    (hlower : ∀ a ∈ attrs, a.name.map tolower = a.name) : decode attrs name = ⟨[], [], []⟩ := by
  have hnone : ∀ ps, attrs.foldl (buildAttrList name) ps = ps := by
    induction attrs with
    | nil => intro ps; rfl
    | cons a attrs ih =>
        intro ps
        have hstart : ¬ name.isPrefixOf a.name = true := by
          intro hp
          obtain ⟨rest, hrest⟩ := List.isPrefixOf_iff_prefix.mp hp
          have ha := hlower a List.mem_cons_self
          rw [← hrest, List.map_append] at ha
          exact hname (List.append_inj_left ha (by simp))
        rw [List.foldl_cons, ih fun b hb => hlower b (List.mem_cons_of_mem _ hb), buildAttrList]
        simp [hstart]
  rw [decode, hnone]
  rfl

theorem decode_sections (name piece : List UInt8) (pieces : List (List UInt8)) :
    decode ((numbered name 0 (piece :: pieces)).map (attrOf ∘ pairOf)) name =
      ⟨(splitCharset piece).1, (splitCharset piece).2.1,
        decodeText true (splitCharset piece).2.2 ++ pieces.flatMap (decodeText true)⟩ := by
  have hrest : ∀ n, (sections n pieces).flatMap (fun q => decodeText q.encoded q.value) =
      pieces.flatMap (decodeText true) := by
    induction pieces with
    | nil => intro n; rfl
    | cons p pieces ih => intro n; simp [sections, ih]
  rw [decode, foldl_buildAttrList name 0 (piece :: pieces) [] (by simp), List.nil_append, sections]
  cases pieces with
  | nil => simp [paramDecode, sections]
  | cons p pieces =>
      have hrest := hrest 1
      rw [sections] at hrest ⊢
      simp only [paramDecode]
      rw [if_neg (by omega)]
      simp [← hrest]

/-! ## The first fragment -/

def plainTokenChar (c : UInt8) : Bool := tokenChar c && c ≠ byte '\'' && c ≠ byte '%'

def charsetPart (charset language : List UInt8) : List UInt8 :=
  charset ++ byte '\'' :: (language ++ [byte '\''])

theorem le_wholeEscape (q : List UInt8) (l : Nat) : l ≤ wholeEscape q l := by
  rw [wholeEscape]
  split
  · omega
  · split
    · omega
    · split <;> omega

theorem wholeEscape_plain {p rest : List UInt8} (hp : byte '%' ∉ p) {l : Nat} (hl : l < p.length) :
    wholeEscape (p ++ rest) l = l := by
  have hne : ∀ i < p.length, (p ++ rest)[i]? ≠ some (byte '%') := by
    intro i hi he
    rw [List.getElem?_append_left hi] at he
    exact hp (List.mem_of_getElem? he)
  rw [wholeEscape, if_neg (hne l hl), if_neg fun h => hne (l - 1) (by omega) h.2,
    if_neg fun h => hne (l - 2) (by omega) h.2]

section FirstFragment
variable {name charset language : List UInt8}

theorem length_firstName (name : List UInt8) : (fragmentName name 0).length = name.length + 3 := by
  have hzero : decimal 0 = [byte '0'] := by decide
  simp [fragmentName, hzero]

theorem firstFragment_holds (hname : name.length ≤ 60) (rest : List UInt8)
    (hfits : name.length + charset.length + language.length ≤ 65) :
    (charsetPart charset language).length ≤
      fragmentLen (fragmentName name 0) (charsetPart charset language ++ rest) := by
  refine le_trans ?_ (le_wholeEscape _ _)
  rw [length_firstName, if_pos (by omega)]
  simp only [charsetPart, List.length_append, List.length_cons, List.length_nil]
  omega

theorem firstFragment_cuts (hname : name.length ≤ 60) (rest : List UInt8)
    (hplain : byte '%' ∉ charsetPart charset language)
    (hlong : 65 < name.length + charset.length + language.length) :
    fragmentLen (fragmentName name 0) (charsetPart charset language ++ rest) =
      67 - name.length := by
  have hlen : (charsetPart charset language).length = charset.length + language.length + 2 := by
    simp only [charsetPart, List.length_append, List.length_cons, List.length_nil]
    omega
  rw [fragmentLen, length_firstName, if_pos (by omega), List.length_append, hlen,
    Nat.min_eq_right (by omega), wholeEscape_plain hplain (by omega)]
  omega

theorem span_quote {p : List UInt8} (hp : byte '\'' ∉ p) (rest : List UInt8) :
    (p ++ byte '\'' :: rest).takeWhile (· ≠ byte '\'') = p ∧
      (p ++ byte '\'' :: rest).dropWhile (· ≠ byte '\'') = byte '\'' :: rest := by
  have hall : ∀ c ∈ p, decide (c ≠ byte '\'') = true := fun c hc =>
    decide_eq_true fun he => hp (he ▸ hc)
  rw [List.takeWhile_append_of_pos hall, List.dropWhile_append_of_pos hall]
  simp

theorem dropWhile_quote {p : List UInt8} (hp : byte '\'' ∉ p) :
    p.dropWhile (· ≠ byte '\'') = [] := by
  have hall : ∀ c ∈ p, decide (c ≠ byte '\'') = true := fun c hc =>
    decide_eq_true fun he => hp (he ▸ hc)
  have hdrop : (p ++ []).dropWhile (· ≠ byte '\'') = [].dropWhile (· ≠ byte '\'') :=
    List.dropWhile_append_of_pos hall
  simpa using hdrop

theorem splitCharset_part (hcharset : byte '\'' ∉ charset) (hlanguage : byte '\'' ∉ language)
    (rest : List UInt8) :
    splitCharset (charsetPart charset language ++ rest) = (charset, language, rest) := by
  have hsplit : charsetPart charset language ++ rest =
      charset ++ byte '\'' :: (language ++ byte '\'' :: rest) := by simp [charsetPart]
  obtain ⟨htake, hdrop⟩ := span_quote hcharset (language ++ byte '\'' :: rest)
  obtain ⟨htake', hdrop'⟩ := span_quote hlanguage rest
  rw [hsplit, splitCharset, hdrop]
  simp only [hdrop', htake, htake']

theorem splitCharset_cut (hcharset : byte '\'' ∉ charset) (hlanguage : byte '\'' ∉ language)
    {l : Nat} (hl : l < (charsetPart charset language).length) :
    splitCharset ((charsetPart charset language).take l) =
      ([], [], (charsetPart charset language).take l) := by
  by_cases hcs : l ≤ charset.length
  · have htake : (charsetPart charset language).take l = charset.take l :=
      List.take_append_of_le_length hcs
    have hnone := dropWhile_quote fun hc => hcharset (List.mem_of_mem_take (i := l) hc)
    rw [htake, splitCharset, hnone]
  · obtain ⟨m, rfl⟩ : ∃ m, l = charset.length + (m + 1) := ⟨l - charset.length - 1, by omega⟩
    have hm : m ≤ language.length := by
      simp only [charsetPart, List.length_append, List.length_cons, List.length_nil] at hl
      omega
    have htake : (charsetPart charset language).take (charset.length + (m + 1)) =
        charset ++ byte '\'' :: language.take m := by
      rw [charsetPart, List.take_length_add_append, List.take_succ_cons,
        List.take_append_of_le_length hm]
    have hnone := dropWhile_quote fun hc => hlanguage (List.mem_of_mem_take (i := m) hc)
    rw [htake, splitCharset, (span_quote hcharset _).2]
    simp only [hnone]

end FirstFragment

/-! ## What is decoded -/

theorem plainTokenChar_facts : ∀ c, plainTokenChar c = true →
    tokenChar c = true ∧ c ≠ byte '\'' ∧ c ≠ byte '%' := by
  simp [plainTokenChar, and_assoc]

theorem xdigit_valueChar : xdigit.all (fun d => valueChar d && d ≠ NUL) = true := by decide

theorem plain_valueChar (c : UInt8) : doEncode c = true ∨ (valueChar c && c ≠ NUL) = true :=
  (byte_facts c).2.1

theorem escape_chars (c : UInt8) : (escape c).all (fun d => valueChar d && d ≠ NUL) = true := by
  rw [escape]
  split
  · have hdigit : ∀ n < 16, (valueChar (xdigit.getD n 0) && xdigit.getD n 0 ≠ NUL) = true :=
      fun n hn => List.all_eq_true.mp xdigit_valueChar _ (getD_xdigit_mem n hn)
    rw [List.all_cons, List.all_cons, List.all_cons, hdigit _ (Nat.mod_lt _ (by decide)),
      hdigit _ (Nat.mod_lt _ (by decide))]
    decide
  · rename_i hplain
    rw [List.all_cons, (plain_valueChar c).resolve_left hplain]
    rfl

section Extended
variable {value charset language : List UInt8}

theorem extendedValue_eq (value charset language : List UInt8) :
    extendedValue value charset language =
      charsetPart charset language ++ value.flatMap escape := by
  simp [extendedValue, charsetPart]

variable (hcharset : ∀ c ∈ charset, plainTokenChar c = true)
variable (hlanguage : ∀ c ∈ language, plainTokenChar c = true)
include hcharset hlanguage

theorem mem_charsetPart : ∀ c ∈ charsetPart charset language,
    (valueChar c = true ∧ c ≠ NUL) ∧ (c ≠ byte '<' ∧ c ≠ byte '>') ∧ c ≠ byte '%' := by
  have hplain : ∀ c, plainTokenChar c = true →
      (valueChar c = true ∧ c ≠ NUL) ∧ (c ≠ byte '<' ∧ c ≠ byte '>') ∧ c ≠ byte '%' := by
    intro c hc
    obtain ⟨htoken, _, hpercent⟩ := plainTokenChar_facts c hc
    obtain ⟨hval, hkeep, hnul⟩ := tokenChar_facts c htoken
    exact ⟨⟨hval, hnul⟩, hkeep, hpercent⟩
  have hquote : (valueChar (byte '\'') = true ∧ byte '\'' ≠ NUL) ∧
      (byte '\'' ≠ byte '<' ∧ byte '\'' ≠ byte '>') ∧ byte '\'' ≠ byte '%' := by decide
  intro c hc
  simp only [charsetPart, List.mem_append, List.mem_cons, List.not_mem_nil, or_false] at hc
  rcases hc with hc | rfl | hc | rfl
  · exact hplain c (hcharset c hc)
  · exact hquote
  · exact hplain c (hlanguage c hc)
  · exact hquote

theorem extendedValue_units (value : List UInt8) : ∃ us : List (List UInt8), (∀ u ∈ us, IsUnit u) ∧
    us.flatten = extendedValue value charset language := by
  refine ⟨(charsetPart charset language).map (fun c => [c]) ++ value.map escape, ?_, ?_⟩
  · intro u hu
    obtain hu | hu := List.mem_append.mp hu
    · obtain ⟨c, hc, rfl⟩ := List.mem_map.mp hu
      exact .char (mem_charsetPart hcharset hlanguage c hc).2.2
    · obtain ⟨c, _, rfl⟩ := List.mem_map.mp hu
      exact escape_isUnit c
  · rw [List.flatten_append, extendedValue_eq, List.flatMap_def]
    congr 1
    induction charsetPart charset language with
    | nil => rfl
    | cons c p ih => simp [ih]

theorem mem_extendedValue : ∀ c ∈ extendedValue value charset language,
    valueChar c = true ∧ c ≠ NUL := by
  intro c hc
  rw [extendedValue_eq] at hc
  obtain hc | hc := List.mem_append.mp hc
  · exact (mem_charsetPart hcharset hlanguage c hc).1
  · obtain ⟨d, _, hd⟩ := List.mem_flatMap.mp hc
    simpa using List.all_eq_true.mp (escape_chars d) c hd

theorem decodeText_part (q : List UInt8) :
    decodeText true (charsetPart charset language ++ q) =
      charsetPart charset language ++ decodeText true q := by
  have hmem := mem_charsetPart hcharset hlanguage
  have hpercent : byte '%' ∉ charsetPart charset language := fun hc => (hmem _ hc).2.2 rfl
  have hunits : ∀ u ∈ (charsetPart charset language).map (fun c => [c]), IsUnit u := by
    intro u hu
    obtain ⟨c, hc, rfl⟩ := List.mem_map.mp hu
    exact .char (hmem c hc).2.2
  have hflat : ((charsetPart charset language).map fun c => [c]).flatten =
      charsetPart charset language := by
    rw [← List.flatMap_def, List.flatMap_singleton']
  have happend := decodeText_append hunits q
  rwa [hflat, decodeText_of_not_mem true _ hpercent] at happend

theorem decodeText_extendedValue :
    decodeText true (keptBrackets false (extendedValue value charset language)) =
      charsetPart charset language ++ keptBrackets false value := by
  have hkeep : ∀ c ∈ charsetPart charset language, c ≠ byte '<' ∧ c ≠ byte '>' :=
    fun c hc => (mem_charsetPart hcharset hlanguage c hc).2.1
  rw [extendedValue_eq, keptBrackets_append, keptBrackets_of_noBracket hkeep,
    bracketsAfter_of_noBracket hkeep, keptBrackets_escaped, decodeText_part hcharset hlanguage,
    decodeText_value]

theorem decode_fragments {name : List UInt8} (hlen : name.length ≤ 60) {fuel : Nat}
    {ps : List Parameter}
    (h : fragments name fuel 0 (extendedValue value charset language) = some ps) :
    ∃ pieces, ps = numbered name 0 pieces ∧
      pieces.flatten = extendedValue value charset language ∧
      decode ((numbered name 0 (keptPieces false pieces)).map (attrOf ∘ pairOf)) name =
        if name.length + charset.length + language.length ≤ 65 then
          ⟨charset, language, keptBrackets false value⟩
        else ⟨[], [], charsetPart charset language ++ keptBrackets false value⟩ := by
  obtain ⟨us, hus, hflat⟩ := extendedValue_units hcharset hlanguage value
  obtain ⟨groups, hgroups, hps⟩ := fragments_spec name fuel 0 us hus ps (by rwa [hflat])
  have hunits : ∀ g ∈ groups, ∀ u ∈ g, IsUnit u := fun g hg u hu =>
    hus u (hgroups ▸ List.mem_flatten.mpr ⟨g, hg, hu⟩)
  have hpieces : (groups.map List.flatten).flatten = extendedValue value charset language := by
    rw [← hflat, ← hgroups, List.flatten_flatten]
  refine ⟨groups.map List.flatten, hps, hpieces, ?_⟩
  have htotal := decodeText_keptPieces groups hunits false
  rw [hpieces, decodeText_extendedValue hcharset hlanguage] at htotal
  have hmem := mem_charsetPart hcharset hlanguage
  have hkeep : ∀ c ∈ charsetPart charset language, c ≠ byte '<' ∧ c ≠ byte '>' :=
    fun c hc => (hmem c hc).2.1
  have hpercent : byte '%' ∉ charsetPart charset language := fun hc => (hmem _ hc).2.2 rfl
  have hquotes : byte '\'' ∉ charset ∧ byte '\'' ∉ language :=
    ⟨fun hc => (plainTokenChar_facts _ (hcharset _ hc)).2.1 rfl,
      fun hc => (plainTokenChar_facts _ (hlanguage _ hc)).2.1 rfl⟩
  obtain ⟨rest, hhead⟩ := fragments_head (by simp [extendedValue]) h
  cases hpiece : groups.map List.flatten with
  | nil => rw [hps, hpiece] at hhead; contradiction
  | cons piece pieces =>
      obtain rfl : piece = (extendedValue value charset language).take
          (fragmentLen (fragmentName name 0) (extendedValue value charset language)) := by
        rw [hps, hpiece, numbered] at hhead
        exact congrArg Parameter.value (List.cons.inj hhead).1
      rw [hpiece, keptPieces, List.flatMap_cons] at htotal
      rw [keptPieces, decode_sections]
      rw [extendedValue_eq] at htotal ⊢
      by_cases hfits : name.length + charset.length + language.length ≤ 65
      · obtain ⟨m, hm⟩ := Nat.exists_eq_add_of_le
          (firstFragment_holds hlen (value.flatMap escape) hfits)
        rw [hm, List.take_length_add_append, keptBrackets_append,
          keptBrackets_of_noBracket hkeep] at htotal ⊢
        rw [splitCharset_part hquotes.1 hquotes.2, if_pos hfits]
        rw [decodeText_part hcharset hlanguage, List.append_assoc] at htotal
        rw [List.append_cancel_left htotal]
      · have hcut := firstFragment_cuts hlen (value.flatMap escape) hpercent (by omega)
        have hshort : 67 - name.length < (charsetPart charset language).length := by
          simp only [charsetPart, List.length_append, List.length_cons, List.length_nil]
          omega
        rw [hcut, List.take_append_of_le_length (by omega),
          keptBrackets_of_noBracket fun c hc => hkeep c (List.mem_of_mem_take hc)] at htotal ⊢
        rw [splitCharset_cut hquotes.1 hquotes.2 hshort, if_neg hfits, htotal]

end Extended

/-! ## The round trip -/

/-- Which values are read back.  The header parser keeps parameter names in lower case and wants
them to be one word; a value with brackets in it is not quoted or escaped when it is encoded. -/
def Survives (name value charset language : List UInt8) : Prop :=
  value = [] ∨ (name.map tolower = name ∧
    if plainly name value then oneWord name = true
    else name.all atomChar = true ∧ name.length + charset.length + language.length ≤ 65 ∧
      bracketsAlternate false value = true)

def Reread (name value charset language : List UInt8) (d : Decoded) : Prop :=
  d.text = value ∧ (plainly name value = false → d.charset = charset ∧ d.language = language)

theorem plainly_nil {name : List UInt8} (hlen : name.length ≤ 60) : plainly name [] = true := by
  simp [plainly]
  omega

theorem plain_facts (c : UInt8) : doEncode c = false →
    (c ≠ NUL ∧ c ≠ byte '"' ∧ c ≠ byte '\\') ∧ c ≠ byte '%' ∧ c ≠ byte '\'' :=
  (byte_facts c).2.2.1

theorem decode_plain (name : List UInt8) {value : List UInt8}
    (hvalue : ∀ c ∈ value, doEncode c = false) :
    (decode [⟨name, value⟩] name).text = value := by
  have hpercent : byte '%' ∉ value := fun hc => (plain_facts _ (hvalue _ hc)).2.1 rfl
  have hquote : byte '\'' ∉ value := fun hc => (plain_facts _ (hvalue _ hc)).2.2 rfl
  have hsplit : splitCharset value = ([], [], value) := by
    rw [splitCharset, dropWhile_quote hquote]
  have hparams : buildAttrList name [] ⟨name, value⟩ = [⟨0, endsInStar name, value⟩] := by
    simp [buildAttrList, paramnumOf, insertParam]
  rw [decode, List.foldl_cons, hparams, List.foldl_nil]
  simp only [paramDecode]
  cases endsInStar name with
  | false => simp [decodeText_of_not_mem false value hpercent]
  | true => simp [hsplit, decodeText_of_not_mem true value hpercent]

theorem tolower_idem (name : List UInt8) : (name.map tolower).map tolower = name.map tolower := by
  have h := fun c => (byte_facts c).2.2.2
  simp [h]

section RoundTrip
variable (inReformime : Bool) (getaddr : List Token → Option (List UInt8))
variable (outer : List (Option (List UInt8))) {h : Headers}
variable {type name value charset language : List UInt8}

theorem reread_nothing_iff (hlen : name.length ≤ 60) :
    Reread name value charset language ⟨[], [], []⟩ ↔ value = [] := by
  constructor
  · intro h
    exact h.1.symm
  · rintro rfl
    exact ⟨rfl, fun h => absurd (plainly_nil hlen) (by simp [h])⟩

theorem reread_plain_iff (hattr : h.contentDispositionAttr = [])
    (htype : ∀ c ∈ type, tokenChar c = true) (hname : ∀ c ∈ name, tokenChar c = true)
    (hlen : name.length ≤ 60) (hplain : plainly name value = true) :
    Reread name value charset language (decodeDisposition (doHeader inReformime getaddr outer h
        (dispositionLine type [⟨name, byte '"' :: (value ++ [byte '"'])⟩])).headers name) ↔
      Survives name value charset language := by
  have hvalue : ∀ c ∈ value, doEncode c = false := by
    simp only [plainly, Bool.and_eq_true, Bool.not_eq_true', List.any_eq_false] at hplain
    intro c hc
    simpa using hplain.1 c hc
  rw [decodeDisposition, dispositionLine_quoted inReformime getaddr outer h htype hname
    fun c hc => (plain_facts c (hvalue c hc)).1, hattr]
  by_cases hone : oneWord name = true
  · rw [if_pos hone]
    by_cases hlower : name.map tolower = name
    · have htext : Reread name value charset language (decode [⟨name, value⟩] name) :=
        ⟨decode_plain name hvalue, fun he => absurd hplain (by simp [he])⟩
      rw [hlower]
      exact iff_of_true htext (Or.inr ⟨hlower, by rwa [if_pos hplain]⟩)
    · have hattrs : [(name.map tolower, value)].foldl keepAttr [] = [⟨name.map tolower, value⟩] := rfl
      rw [hattrs, decode_upper hlower _ (by simpa using tolower_idem name)]
      refine (reread_nothing_iff hlen).trans ⟨Or.inl, ?_⟩
      rintro (hnil | ⟨hl, _⟩)
      · exact hnil
      · exact absurd hl hlower
  · rw [if_neg hone]
    refine (reread_nothing_iff hlen).trans ⟨Or.inl, ?_⟩
    rintro (hnil | ⟨_, hshape⟩)
    · exact hnil
    · rw [if_pos hplain] at hshape
      exact absurd hshape hone

theorem prefix_append_ne (hcount : (keptBrackets false value).count (byte '\'') =
    value.count (byte '\'')) :
    charsetPart charset language ++ keptBrackets false value ≠ value := by
  intro he
  have hcounts := congrArg (List.count (byte '\'')) he
  simp only [charsetPart, List.count_append, List.count_cons, List.count_nil, hcount,
    beq_self_eq_true, if_true] at hcounts
  omega

theorem count_keptBrackets (inbracket : Bool) (v : List UInt8) :
    (keptBrackets inbracket v).count (byte '\'') = v.count (byte '\'') := by
  induction v generalizing inbracket with
  | nil => rfl
  | cons c v ih =>
      rw [keptBrackets, List.count_append, ih]
      by_cases hpair : unpaired inbracket c = true
      · have hne : c ≠ byte '\'' := by
          rcases (by simpa [unpaired] using hpair : _ ∨ _) with ⟨rfl, _⟩ | ⟨rfl, _⟩ <;> decide
        simp [hpair, hne]
      · simp only [hpair, List.count_cons]
        simp [List.count_cons, Nat.add_comm]

theorem reread_encoded_iff (hattr : h.contentDispositionAttr = [])
    (htype : ∀ c ∈ type, tokenChar c = true) (hname : ∀ c ∈ name, tokenChar c = true)
    (hlen : name.length ≤ 60) (hcharset : ∀ c ∈ charset, plainTokenChar c = true)
    (hlanguage : ∀ c ∈ language, plainTokenChar c = true) (hplain : plainly name value = false)
    {fuel : Nat} {ps : List Parameter}
    (hps : fragments name fuel 0 (extendedValue value charset language) = some ps) :
    Reread name value charset language (decodeDisposition (doHeader inReformime getaddr outer h
        (dispositionLine type ps)).headers name) ↔ Survives name value charset language := by
  have hnil : value ≠ [] := by
    rintro rfl
    exact absurd (plainly_nil hlen) (by simp [hplain])
  obtain ⟨pieces, hnum, hflat, hdecode⟩ := decode_fragments hcharset hlanguage hlen hps
  have hparams : ∀ p ∈ ps, ∀ c ∈ p.param, tokenChar c = true := by
    intro p hp
    obtain ⟨m, _, hm⟩ := numbered_names name 0 pieces p (hnum ▸ hp)
    have hall := fragmentName_all (P := tokenChar) (by decide) (fun c hc => (digit_facts c hc).2.2)
      name m
    rw [hm, ← List.all_eq_true, hall, List.all_eq_true]
    exact hname
  have hvalues : ∀ p ∈ ps, NUL ∉ p.value ∧ ∀ c ∈ p.value, valueChar c = true := by
    intro p hp
    have hmem : ∀ c ∈ p.value, valueChar c = true ∧ c ≠ NUL := by
      intro c hc
      have hin := List.mem_flatten.mpr ⟨p.value, numbered_values name 0 pieces p (hnum ▸ hp), hc⟩
      rw [hflat] at hin
      exact mem_extendedValue hcharset hlanguage c hin
    exact ⟨fun hc => (hmem _ hc).2 rfl, fun c hc => (hmem c hc).1⟩
  rw [decodeDisposition, dispositionLine_fragments inReformime getaddr outer h htype hparams hvalues,
    hattr, hnum, readParams_numbered]
  by_cases hatom : name.all atomChar = true
  · rw [if_pos hatom, foldl_keepAttr _ _ (by simp) (numbered_nodup _ _ _), List.nil_append,
      List.map_map]
    by_cases hlower : name.map tolower = name
    · rw [hlower, hdecode]
      by_cases hfits : name.length + charset.length + language.length ≤ 65
      · rw [if_pos hfits, Survives, if_neg (by simp [hplain]), ← keptBrackets_eq_iff]
        simp [Reread, hnil, hlower, hatom, hfits]
      · rw [if_neg hfits, Survives, if_neg (by simp [hplain])]
        simp [Reread, hnil, hfits, prefix_append_ne (count_keptBrackets false value)]
    · have hnone := decode_upper hlower
        ((numbered (name.map tolower) 0 (keptPieces false pieces)).map (attrOf ∘ pairOf)) ?_
      · rw [hnone, reread_nothing_iff hlen, Survives]
        simp [hlower]
      · intro a ha
        obtain ⟨p, hp, rfl⟩ := List.mem_map.mp ha
        obtain ⟨m, _, hm⟩ := numbered_names _ _ _ p hp
        have hname : (attrOf (pairOf p)).name = fragmentName (name.map tolower) m := hm
        rw [Function.comp, hname, fragmentName_lower, tolower_idem]
  · rw [if_neg hatom]
    refine (reread_nothing_iff hlen).trans ?_
    rw [Survives, if_neg (by simp [hplain])]
    simp [hatom]

/-- A parameter is read back as it was given if and only if `Survives` holds of it. -/
theorem attrCreate_reread_iff (h : Headers) (type name value charset language : List UInt8)
    (hattr : h.contentDispositionAttr = [])
    (htype : ∀ c ∈ type, tokenChar c = true) (hname : ∀ c ∈ name, tokenChar c = true)
    (hlen : name.length ≤ 60) (hcharset : ∀ c ∈ charset, plainTokenChar c = true)
    (hlanguage : ∀ c ∈ language, plainTokenChar c = true) :
    (∃ fuel ps, attrCreate fuel name value charset language = some ps) ∧
      ∀ fuel ps, attrCreate fuel name value charset language = some ps →
        (Reread name value charset language (decodeDisposition
          (doHeader inReformime getaddr outer h (dispositionLine type ps)).headers name) ↔
            Survives name value charset language) := by
  cases hplain : plainly name value with
  | true =>
      have hcreate : ∀ fuel, attrCreate fuel name value charset language =
          some [⟨name, byte '"' :: (value ++ [byte '"'])⟩] := by
        intro fuel
        rw [attrCreate, if_neg (by omega), if_pos hplain]
      refine ⟨⟨0, _, hcreate 0⟩, fun fuel ps hps => ?_⟩
      rw [hcreate] at hps
      obtain rfl := Option.some.inj hps
      exact reread_plain_iff inReformime getaddr outer hattr htype hname hlen hplain
  | false =>
      have hcreate : ∀ fuel, attrCreate fuel name value charset language =
          fragments name fuel 0 (extendedValue value charset language) := by
        intro fuel
        rw [attrCreate, if_neg (by omega), if_neg (by simp [hplain])]
      obtain ⟨us, hus, hflat⟩ := extendedValue_units hcharset hlanguage value
      obtain ⟨fuel, ps, hps⟩ := exists_fragments name us hus
      refine ⟨⟨fuel, ps, by rw [hcreate, ← hflat, hps]⟩, fun fuel ps hps => ?_⟩
      rw [hcreate] at hps
      exact reread_encoded_iff inReformime getaddr outer hattr htype hname hlen hcharset hlanguage
        hplain hps

end RoundTrip

def bytes (s : String) : List UInt8 := s.toList.map byte

instance (name value charset language : List UInt8) (d : Decoded) :
    Decidable (Reread name value charset language d) :=
  inferInstanceAs (Decidable (_ ∧ (_ → _)))

/-- A `<` and a `>` that match are kept. -/
theorem attrCreate_reread_sample :
    ∃ fuel ps, attrCreate fuel (bytes "filename") (bytes "to <a@b>") (bytes "utf-8")
        (bytes "en") = some ps ∧
      Reread (bytes "filename") (bytes "to <a@b>") (bytes "utf-8") (bytes "en")
        (decodeDisposition (doHeader false (fun _ => none) [] Headers.empty
          (dispositionLine (bytes "attachment") ps)).headers (bytes "filename")) := by
  obtain ⟨htype, hname, hlen, hcharset, hlanguage, survives⟩ :
      (∀ c ∈ bytes "attachment", tokenChar c = true) ∧ (∀ c ∈ bytes "filename", tokenChar c = true) ∧
      (bytes "filename").length ≤ 60 ∧ (∀ c ∈ bytes "utf-8", plainTokenChar c = true) ∧
      (∀ c ∈ bytes "en", plainTokenChar c = true) ∧
      Survives (bytes "filename") (bytes "to <a@b>") (bytes "utf-8") (bytes "en") := by
    unfold Survives
    decide +kernel
  obtain ⟨⟨fuel, ps, hps⟩, hiff⟩ := attrCreate_reread_iff false (fun _ => none) []
    Headers.empty (bytes "attachment") (bytes "filename") (bytes "to <a@b>") (bytes "utf-8")
    (bytes "en") rfl htype hname hlen hcharset hlanguage
  exact ⟨fuel, ps, hps, (hiff fuel ps hps).mpr survives⟩

/-- A `>` that closes nothing is neither quoted nor escaped, and the tokenizer drops it. -/
theorem lone_bracket_dropped :
    ∃ ps, attrCreate 1 (bytes "filename") (bytes "a > b") (bytes "utf-8") (bytes "en") = some ps ∧
      (decodeDisposition (doHeader false (fun _ => none) [] Headers.empty
        (dispositionLine (bytes "attachment") ps)).headers (bytes "filename")).text =
          bytes "a  b" ∧
      ¬ Reread (bytes "filename") (bytes "a > b") (bytes "utf-8") (bytes "en")
        (decodeDisposition (doHeader false (fun _ => none) [] Headers.empty
          (dispositionLine (bytes "attachment") ps)).headers (bytes "filename")) := by
  refine ⟨[⟨bytes "filename*0*", bytes "utf-8'en'a%20>%20b"⟩], ?_⟩
  decide +kernel

end Cone.Rfc2231RoundTrip
