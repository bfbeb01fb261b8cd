import Cone.ImapSearch
import Cone.Lib.Words

/-! # How the grammar reads the command

Exactly which program the grammar finds in a command of `mail::imap::searchMessages`, one lemma for
each kind of word. -/
set_option autoImplicit false
namespace Cone.ImapSearch

open Cone.Ctype Cone.Lib.Decimal Cone.Lib.Words
open Cone.ImapBodystructure (Text upper)

section Strings
variable (s rest : Text)

def quotable (s : Text) : Bool :=
  s.all fun c => !(decide (c = NUL) || decide (c = CR) || decide (c = NL) || decide (0x7F < c))

theorem escape_cons (c : UInt8) :
    escape (c :: s) =
      (if c = byte '"' ∨ c = byte '\\' then [byte '\\', c] else [c]) ++ escape s := by
  rw [escape, List.flatMap_cons, escape]

theorem quotable_cons (c : UInt8) :
    quotable (c :: s) =
      (!(decide (c = NUL) || decide (c = CR) || decide (c = NL) || decide (0x7F < c)) &&
        quotable s) := by
  rw [quotable, List.all_cons, quotable]

theorem readQuoted_escape :
    readQuoted (escape s ++ byte '"' :: rest) = if quotable s then some (s, rest) else none := by
  induction s with
  | nil =>
      cases rest with
      | nil => rfl
      | cons d rest => rfl
  | cons c s ih =>
      obtain ⟨d, t, hdt⟩ : ∃ d t, escape s ++ byte '"' :: rest = d :: t := by
        exact List.exists_cons_of_ne_nil (by simp)
      rw [escape_cons, quotable_cons, List.append_assoc]
      by_cases hc : c = byte '"' ∨ c = byte '\\'
      · rw [if_pos hc, List.cons_append, List.cons_append, List.nil_append, readQuoted,
          if_neg (by decide), if_pos rfl, if_pos hc, ih]
        have hplain : (!(decide (c = NUL) || decide (c = CR) || decide (c = NL) ||
            decide (0x7F < c))) = true := by
          obtain rfl | rfl := hc
          · decide
          · decide
        rw [hplain, Bool.true_and]
        by_cases hs : quotable s = true
        · rw [if_pos hs, if_pos hs]
          rfl
        · rw [if_neg hs, if_neg hs]
          rfl
      · rw [if_neg hc, List.cons_append, List.nil_append, hdt, readQuoted,
          if_neg fun h => hc (.inl h), if_neg fun h => hc (.inr h), ← hdt, ih]
        by_cases hbad : c = NUL ∨ c = CR ∨ c = NL ∨ 0x7F < c
        · rw [if_pos hbad, if_neg]
          simpa [or_assoc] using fun h1 h2 h3 h4 => absurd hbad (by simp [h1, h2, h3, h4])
        · rw [if_neg hbad]
          simp only [not_or] at hbad
          by_cases hs : quotable s = true
          · simp [hs, hbad.1, hbad.2.1, hbad.2.2.1, hbad.2.2.2]
          · simp [hs]

theorem readAstring_quoteSimple :
    readAstring (quoteSimple s ++ rest) = if quotable s then some (s, rest) else none := by
  rw [quoteSimple, List.cons_append, List.cons_append, readAstring, if_pos rfl, List.append_assoc,
    List.singleton_append, readQuoted_escape]

theorem takeWhile_decimal (n : Nat) (hrest : ∀ c ∈ rest.head?, isdigit c = false) :
    (decimal n ++ rest).takeWhile isdigit = decimal n :=
  takeWhile_append_stop (fun _ => isdigit_of_mem_decimal) hrest

theorem dropWhile_decimal (n : Nat) (hrest : ∀ c ∈ rest.head?, isdigit c = false) :
    (decimal n ++ rest).dropWhile isdigit = rest :=
  dropWhile_append_stop (fun _ => isdigit_of_mem_decimal) hrest

theorem readDigits_decimal' (n : Nat) : readDigits (decimal n) = n := by
  have h : readDigits (decimal n ++ []) = n := readDigits_decimal n (by simp)
  rwa [List.append_nil] at h

/-- What the grammar takes for an argument of `imapSEARCH`. -/
def arguable (s : Text) : Prop := NUL ∉ s ∧ (s.all isPlain = true ∨ s.length < 2 ^ 32)

instance : Decidable (arguable s) := by
  unfold arguable
  infer_instance

theorem char_facts : ∀ c : UInt8,
    (isPlain c = true →
      (!(decide (c = NUL) || decide (c = CR) || decide (c = NL) || decide (0x7F < c))) = true) ∧
    (isPlain c = true ∧ c ≠ byte '"' ∧ c ≠ byte '\\' ∨
      (if byte 'a' ≤ c ∧ c ≤ byte 'z' then c - 32 else c) < byte 'A' ∨
        byte 'Z' < (if byte 'a' ≤ c ∧ c ≤ byte 'z' then c - 32 else c)) ∧
    (isdigit c = true → (isPlain c = true ∧ c ≠ byte '"' ∧ c ≠ byte '\\') ∧ isAtomChar c = true) :=
  forall_byte (by decide +kernel)

theorem isPlain_quotable (c : UInt8) : isPlain c = true →
    (!(decide (c = NUL) || decide (c = CR) || decide (c = NL) || decide (0x7F < c))) = true :=
  (char_facts c).1

theorem quotable_of_isPlain {s : Text} (hs : s.all isPlain = true) : quotable s = true :=
  List.all_eq_true.mpr fun c hc => isPlain_quotable c (List.all_eq_true.mp hs c hc)

theorem not_mem_of_isPlain {s : Text} (hs : s.all isPlain = true) : NUL ∉ s := by
  intro hmem
  exact absurd (List.all_eq_true.mp hs _ hmem) (by decide)

theorem readLiteral_decimal :
    readLiteral (decimal s.length ++ (str "\x7d\r\n" ++ s)) =
      if s.length < 2 ^ 32 ∧ NUL ∉ s then some (s, []) else none := by
  have hstop : ∀ c ∈ (str "\x7d\r\n" ++ s).head?, isdigit c = false := by
    intro c hc
    cases hc
    decide
  have hstr : str "\x7d\r\n" ++ s = byte '\x7d' :: CR :: NL :: s := rfl
  rw [readLiteral, takeWhile_decimal _ _ hstop, dropWhile_decimal _ _ hstop, hstr]
  dsimp only
  rw [readDigits_decimal', List.take_length, List.drop_length]
  simp [decimal_ne_nil]

theorem readAstring_argument :
    readAstring (argument s) = if arguable s then some (s, []) else none := by
  rw [argument]
  by_cases hs : s.all isPlain = true
  · have hread := readAstring_quoteSimple s []
    rw [List.append_nil] at hread
    rw [if_pos hs, hread, if_pos (quotable_of_isPlain hs),
      if_pos (show arguable s from ⟨not_mem_of_isPlain hs, .inl hs⟩)]
  · rw [if_neg hs, List.cons_append, readAstring, if_neg (by decide), if_pos rfl,
      readLiteral_decimal]
    simp only [arguable, hs, Bool.false_eq_true, false_or, and_comm]

end Strings

/-! ## Dates -/

section Dates
variable {w : Text} {day : Day}

theorem months_capital :
    months.all (fun m => m.all fun c => decide (byte 'A' ≤ c) && decide (c ≤ byte 'Z')) = true := by
  decide +kernel

theorem upper_capital (c : UInt8) : isPlain c = true ∧ c ≠ byte '"' ∧ c ≠ byte '\\' ∨
    (if byte 'a' ≤ c ∧ c ≤ byte 'z' then c - 32 else c) < byte 'A' ∨
      byte 'Z' < (if byte 'a' ≤ c ∧ c ≤ byte 'z' then c - 32 else c) :=
  (char_facts c).2.1

theorem upper_month (c : UInt8) (m : Text) (hm : m ∈ months)
    (hc : (if byte 'a' ≤ c ∧ c ≤ byte 'z' then c - 32 else c) ∈ m) :
    isPlain c = true ∧ c ≠ byte '"' ∧ c ≠ byte '\\' := by
  have hcapital := List.all_eq_true.mp (List.all_eq_true.mp months_capital m hm) _ hc
  rw [Bool.and_eq_true, decide_eq_true_eq, decide_eq_true_eq] at hcapital
  obtain h | h | h := upper_capital c
  · exact h
  · exact absurd hcapital.1 (UInt8.not_le.mpr h)
  · exact absurd hcapital.2 (UInt8.not_le.mpr h)

theorem digit_plain (c : UInt8) (h : isdigit c = true) :
    isPlain c = true ∧ c ≠ byte '"' ∧ c ≠ byte '\\' :=
  ((char_facts c).2.2 h).1

theorem readDateText_plain (h : readDateText w = some day) :
    ∀ c ∈ w, isPlain c = true ∧ c ≠ byte '"' ∧ c ≠ byte '\\' := by
  rw [readDateText] at h
  split at h
  · rename_i dash a b c dash' y hdrop
    split at h
    · rename_i hshape
      obtain ⟨m, hm, -⟩ := Option.map_eq_some_iff.mp h
      have hmonth : upper [a, b, c] ∈ months := by
        rw [List.idxOf?, List.findIdx?_eq_some_iff_getElem] at hm
        obtain ⟨hlt, heq, -⟩ := hm
        rw [← eq_of_beq heq]
        exact List.getElem_mem hlt
      have hletter : ∀ x ∈ [a, b, c], isPlain x = true ∧ x ≠ byte '"' ∧ x ≠ byte '\\' := by
        intro x hx
        exact upper_month x _ hmonth (List.mem_map_of_mem hx)
      intro x hx
      rw [← List.takeWhile_append_dropWhile (p := isdigit) (l := w), hdrop, List.mem_append] at hx
      obtain ⟨-, -, rfl, rfl, -, hy⟩ := hshape
      obtain hx | hx := hx
      · exact digit_plain x (List.mem_takeWhile_imp hx)
      · simp only [List.mem_cons] at hx
        obtain rfl | rfl | rfl | rfl | rfl | hx := hx
        · decide
        · exact hletter x (by simp)
        · exact hletter x (by simp)
        · exact hletter x (by simp)
        · decide
        · exact digit_plain x (List.all_eq_true.mp hy x hx)
    · cases h
  · cases h

theorem escape_of_plain (h : ∀ c ∈ w, c ≠ byte '"' ∧ c ≠ byte '\\') : escape w = w := by
  induction w with
  | nil => rfl
  | cons c w ih =>
      have hc := h c List.mem_cons_self
      rw [escape_cons, if_neg (not_or.mpr hc), ih fun d hd => h d (List.mem_cons_of_mem _ hd)]
      rfl

theorem backslash_mem_escape (h : byte '"' ∈ w ∨ byte '\\' ∈ w) :
    byte '\\' ∈ (escape w ++ [byte '"']).takeWhile (· ≠ byte '"') := by
  induction w with
  | nil => simp at h
  | cons c w ih =>
      rw [escape_cons]
      by_cases hc : c = byte '"' ∨ c = byte '\\'
      · rw [if_pos hc]
        simp [show byte '\\' ≠ byte '"' by decide]
      · rw [if_neg hc, List.singleton_append, List.cons_append, List.takeWhile_cons]
        simp only [not_or] at hc
        have h' : byte '"' ∈ w ∨ byte '\\' ∈ w := by
          simpa [List.mem_cons, Ne.symm hc.1, Ne.symm hc.2] using h
        rw [if_pos (by simpa using hc.1)]
        exact List.mem_cons_of_mem _ (ih h')

theorem readDate_argument (w : Text) :
    readDate (argument w) = (readDateText w).map fun day => (day, []) := by
  rw [argument]
  by_cases hw : w.all isPlain = true
  · rw [if_pos hw, quoteSimple, List.cons_append, readDate, if_pos rfl]
    by_cases hquote : byte '"' ∈ w ∨ byte '\\' ∈ w
    · have hnone : readDateText w = none := by
        by_contra hsome
        obtain ⟨day, hday⟩ := Option.ne_none_iff_exists'.mp hsome
        obtain h | h := hquote
        · exact (readDateText_plain hday _ h).2.1 rfl
        · exact (readDateText_plain hday _ h).2.2 rfl
      have hback := backslash_mem_escape hquote
      have hnone' : readDateText ((escape w ++ [byte '"']).takeWhile (· ≠ byte '"')) = none := by
        by_contra hsome
        obtain ⟨day, hday⟩ := Option.ne_none_iff_exists'.mp hsome
        exact (readDateText_plain hday _ hback).2.2 rfl
      rw [hnone, hnone']
      split
      · rfl
      · rfl
    · have hno : ∀ c ∈ w, c ≠ byte '"' ∧ c ≠ byte '\\' := by
        intro c hc
        refine ⟨fun h => hquote (.inl (h ▸ hc)), fun h => hquote (.inr (h ▸ hc))⟩
      have hstop : ∀ c ∈ [byte '"'].head?, decide (c ≠ byte '"') = false := by simp
      rw [escape_of_plain hno, dropWhile_append_stop (fun c hc => by simpa using (hno c hc).1) hstop,
        takeWhile_append_stop (fun c hc => by simpa using (hno c hc).1) hstop]
  · rw [if_neg hw, List.cons_append, readDate, if_neg (by decide)]
    have hnone : readDateText w = none := by
      by_contra hsome
      obtain ⟨day, hday⟩ := Option.ne_none_iff_exists'.mp hsome
      exact hw (List.all_eq_true.mpr fun c hc => (readDateText_plain hday c hc).1)
    have hempty : (readWord (byte '\x7b' :: (decimal w.length ++ (str "\x7d\r\n" ++ w)))).1 = [] := by
      rw [readWord]
      simp [show isAtomChar (byte '\x7b') = false by decide]
    rw [hnone, hempty]
    rfl

end Dates

/-! ## Numbers and words -/

section Numbers
variable {w rest : Text}

theorem readNumber_decimal (n : Nat) :
    readNumber (decimal n) = if n < 2 ^ 32 then some n else none := by
  have hdigits : (decimal n).all isdigit = true :=
    List.all_eq_true.mpr fun _ => isdigit_of_mem_decimal
  rw [readNumber, readDigits_decimal', hdigits]
  simp [decimal_ne_nil]

theorem readNzNumber_decimal (n : Nat) :
    readNzNumber (decimal n) = if 0 < n ∧ n < 2 ^ 32 then some n else none := by
  rw [readNzNumber, readNumber_decimal]
  by_cases hn : n = 0
  · rw [if_pos ((head_decimal n).mpr hn), if_neg (by omega)]
  · rw [if_neg fun h => hn ((head_decimal n).mp h)]
    simp [Nat.pos_of_ne_zero hn]

theorem isAtomChar_digit (c : UInt8) (h : isdigit c = true) : isAtomChar c = true :=
  ((char_facts c).2.2 h).2

theorem readWord_append (hw : w.all isAtomChar = true) (hrest : rest = [] ∨ rest.head? = some SP) :
    readWord (w ++ rest) = (w, rest) := by
  have hstop : ∀ c ∈ rest.head?, isAtomChar c = false := by
    intro c hc
    obtain rfl | h := hrest
    · cases hc
    · rw [h] at hc
      cases hc
      decide
  rw [readWord, takeWhile_append_stop (List.all_eq_true.mp hw) hstop,
    dropWhile_append_stop (List.all_eq_true.mp hw) hstop]

theorem readSequence_range (lo hi : Nat) :
    readSequence (decimal lo ++ byte ':' :: decimal hi) =
      if (0 < lo ∧ lo < 2 ^ 32) ∧ 0 < hi ∧ hi < 2 ^ 32 then some (.sequence lo hi) else none := by
  have hstop : ∀ c ∈ (byte ':' :: decimal hi).head?, isdigit c = false := by
    intro c hc
    cases hc
    decide
  rw [readSequence, dropWhile_decimal _ _ hstop, takeWhile_decimal _ _ hstop]
  dsimp only
  rw [if_pos rfl, readNzNumber_decimal, readNzNumber_decimal]
  by_cases hlo : 0 < lo ∧ lo < 2 ^ 32
  · by_cases hhi : 0 < hi ∧ hi < 2 ^ 32
    · rw [if_pos hlo, if_pos hhi, if_pos ⟨hlo, hhi⟩]
      rfl
    · rw [if_pos hlo, if_neg hhi, if_neg fun h => hhi h.2]
      rfl
  · have hnot : ¬((0 < lo ∧ lo < 2 ^ 32) ∧ 0 < hi ∧ hi < 2 ^ 32) := fun h => hlo h.1
    rw [if_neg hlo, if_neg hnot]
    rfl

end Numbers

/-! ## Keys -/

section Keys
variable (charset : Text) (fuel : Nat) (rest : Text)

theorem readKey_append {w : Text} (hw : w.all isAtomChar = true)
    (hrest : rest = [] ∨ rest.head? = some SP) :
    readKey charset (fuel + 1) (w ++ rest) =
      match keywords.lookup (upper w) with
      | some (.plain key) => some (key, rest)
      | some (.string field) =>
        (readSP rest).bind fun t => (readAstring t).map fun r =>
          (.string ⟨field, [], charset, r.1⟩, r.2)
      | some .header =>
        (readSP rest).bind fun t => (readAstring t).bind fun name =>
          (readSP name.2).bind fun t => (readAstring t).map fun r =>
            (.string ⟨.header, name.1, charset, r.1⟩, r.2)
      | some (.date key) =>
        (readSP rest).bind fun t => (readDate t).map fun r => (.date key r.1, r.2)
      | some .larger =>
        (readSP rest).bind fun t => (readNumber (readWord t).1).map fun n =>
          (.larger n, (readWord t).2)
      | some .smaller =>
        (readSP rest).bind fun t => (readNumber (readWord t).1).map fun n =>
          (.smaller n, (readWord t).2)
      | some .not =>
        (readSP rest).bind fun t => (readKey charset fuel t).map fun r => (.not r.1, r.2)
      | none => (readSequence w).map fun key => (key, rest) := by
  have hkey := readKey.eq_2 charset (w ++ rest) fuel
  rw [readWord_append hw hrest] at hkey
  exact hkey

theorem readKey_plain {w : Text} {key : Key} (hw : w.all isAtomChar = true)
    (hkey : keywords.lookup (upper w) = some (.plain key))
    (hrest : rest = [] ∨ rest.head? = some SP) :
    readKey charset (fuel + 1) (w ++ rest) = some (key, rest) := by
  rw [readKey_append charset fuel rest hw hrest, hkey]

theorem readKey_sequence {w : Text} (hw : w.all isAtomChar = true)
    (hkey : keywords.lookup (upper w) = none) (hrest : rest = [] ∨ rest.head? = some SP) :
    readKey charset (fuel + 1) (w ++ rest) = (readSequence w).map fun key => (key, rest) := by
  rw [readKey_append charset fuel rest hw hrest, hkey]

theorem readKey_not (w : Text) :
    readKey charset (fuel + 1) (str "NOT" ++ SP :: w) =
      (readKey charset fuel w).map fun r => (.not r.1, r.2) := by
  have hlookup : keywords.lookup (upper (str "NOT")) = some .not := rfl
  rw [readKey_append charset fuel _ (by decide) (.inr rfl)]
  rw [hlookup]
  dsimp only
  rw [readSP, if_pos rfl, Option.bind_some]

def Read (charset : Text) (w : Text) (key : Option Key) : Prop :=
  ∀ fuel, readKey charset (fuel + 1) w = key.map fun key => (key, [])

theorem read_plain {w : Text} {key : Key} (hw : w.all isAtomChar = true)
    (hkey : keywords.lookup (upper w) = some (.plain key)) : Read charset w (some key) := by
  intro fuel
  have h := readKey_plain charset fuel [] hw hkey (.inl rfl)
  rwa [List.append_nil] at h

theorem read_string {w s : Text} {field : Field} (hw : w.all isAtomChar = true)
    (hkey : keywords.lookup (upper w) = some (.string field)) :
    Read charset (w ++ SP :: argument s)
      (if arguable s then some (.string ⟨field, [], charset, s⟩) else none) := by
  intro fuel
  rw [readKey_append charset fuel _ hw (.inr rfl), hkey]
  dsimp only
  rw [readSP, if_pos rfl, Option.bind_some, readAstring_argument]
  by_cases hs : arguable s
  · rw [if_pos hs, if_pos hs]
    rfl
  · rw [if_neg hs, if_neg hs]
    rfl

theorem read_header (s : Text) :
    Read charset (str "HEADER" ++ SP :: (quoteSimple [] ++ SP :: argument s))
      (if arguable s then some (.string ⟨.header, [], charset, s⟩) else none) := by
  intro fuel
  rw [readKey_append charset fuel _ (by decide) (.inr rfl)]
  have hlookup : keywords.lookup (upper (str "HEADER")) = some .header := rfl
  rw [hlookup]
  dsimp only
  rw [readSP, if_pos rfl, Option.bind_some, readAstring_quoteSimple, if_pos (by decide),
    Option.bind_some]
  dsimp only
  rw [readSP, if_pos rfl, Option.bind_some, readAstring_argument]
  by_cases hs : arguable s
  · rw [if_pos hs, if_pos hs]
    rfl
  · rw [if_neg hs, if_neg hs]
    rfl

theorem read_date {w s : Text} {key : DateKey} (hw : w.all isAtomChar = true)
    (hkey : keywords.lookup (upper w) = some (.date key)) :
    Read charset (w ++ SP :: argument s) ((readDateText s).map (.date key)) := by
  intro fuel
  rw [readKey_append charset fuel _ hw (.inr rfl), hkey]
  dsimp only
  rw [readSP, if_pos rfl, Option.bind_some, readDate_argument, Option.map_map, Option.map_map]
  rfl

theorem readWord_decimal (n : Nat) : readWord (decimal n) = (decimal n, []) := by
  have h : readWord (decimal n ++ []) = (decimal n, []) :=
    readWord_append (List.all_eq_true.mpr fun c hc =>
      isAtomChar_digit c (isdigit_of_mem_decimal hc)) (.inl rfl)
  rwa [List.append_nil] at h

theorem read_larger (n : Nat) :
    Read charset (str "LARGER" ++ SP :: decimal n)
      (if n < 2 ^ 32 then some (.larger n) else none) := by
  intro fuel
  rw [readKey_append charset fuel _ (by decide) (.inr rfl)]
  have hlookup : keywords.lookup (upper (str "LARGER")) = some .larger := rfl
  rw [hlookup]
  dsimp only
  rw [readSP, if_pos rfl, Option.bind_some, readWord_decimal, readNumber_decimal]
  by_cases hn : n < 2 ^ 32
  · rw [if_pos hn, if_pos hn]
    rfl
  · rw [if_neg hn, if_neg hn]
    rfl

theorem read_smaller (n : Nat) :
    Read charset (str "SMALLER" ++ SP :: decimal n)
      (if n < 2 ^ 32 then some (.smaller n) else none) := by
  intro fuel
  rw [readKey_append charset fuel _ (by decide) (.inr rfl)]
  have hlookup : keywords.lookup (upper (str "SMALLER")) = some .smaller := rfl
  rw [hlookup]
  dsimp only
  rw [readSP, if_pos rfl, Option.bind_some, readWord_decimal, readNumber_decimal]
  by_cases hn : n < 2 ^ 32
  · rw [if_pos hn, if_pos hn]
    rfl
  · rw [if_neg hn, if_neg hn]
    rfl

/-- With `NOT` in front of it or not. -/
theorem read_negated {w : Text} {key : Option Key} (negated : Bool) (h : Read charset w key) :
    readKey charset (fuel + 2) ((if negated then str "NOT " else []) ++ w) =
      (key.map fun key => if negated then key.not else key).map fun key => (key, []) := by
  cases negated with
  | false =>
      have hread := h (fuel + 1)
      simpa using hread
  | true =>
      have hnot := readKey_not charset (fuel + 1) w
      rw [h fuel, Option.map_map] at hnot
      rw [Option.map_map]
      exact hnot

end Keys
end Cone.ImapSearch
