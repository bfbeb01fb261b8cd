import Cone.SpfExpand

/-! # Macro strings and what they expand to

The grammar above `do_expand` of rfc1035/spf.c, what each macro of it stands for, and where
`do_expand` puts that in its place. -/
set_option autoImplicit false
namespace Cone.SpfMacros

open Cone.Ctype Cone.Lib.Budget Cone.Lib.Decimal Cone.Spf Cone.SpfExpand
open Cone.Rfc2045Header (tolower)

section Grammar

/-- `"%{" ALPHA transformer *delimiter "}"` -/
structure Macro where
  alpha : UInt8
  digits : Text
  reverse : Option UInt8
  delimiters : Text
  letter : validchar alpha = true ∧ isdigit alpha = false
  number : ∀ c ∈ digits, isdigit c = true
  reversal : ∀ c ∈ reverse, c = byte 'r' ∨ c = byte 'R'
  delimited : ∀ c ∈ delimiters, isDelimiter c = true

inductive MacroChar where
  | literal (c : UInt8) (copied : c ≠ NUL ∧ c ≠ byte '%')
  | expanded (m : Macro)
  | percent
  | space
  | urlSpace

def Macro.text (m : Macro) : Text :=
  m.alpha :: (m.digits ++ (m.reverse.toList ++ m.delimiters ++ [byte '\x7d']))

def MacroChar.text : MacroChar → Text
  | .literal c _ => [c]
  | .expanded m => byte '%' :: byte '\x7b' :: m.text
  | .percent => [byte '%', byte '%']
  | .space => [byte '%', byte '_']
  | .urlSpace => [byte '%', byte '-']

def Macro.splits (m : Macro) (c : UInt8) : Bool :=
  if m.delimiters = [] then c == byte '.' else m.delimiters.contains c

def Macro.kept (m : Macro) (value : Text) : List Text :=
  let parts := value.splitOnP m.splits
  let parts := if m.reverse.isSome then parts.reverse else parts
  let n := readDigits m.digits
  if n = 0 ∨ n > parts.length then parts else parts.drop (parts.length - n)

def Macro.replaced (m : Macro) (value : Text) : Text :=
  let text :=
    if m.digits ≠ [] ∨ m.reverse.isSome ∨ m.delimiters ≠ [] then
      List.intercalate [byte '.'] (m.kept value)
    else value
  if byte 'A' ≤ m.alpha ∧ m.alpha ≤ byte 'Z' then escape text else text

def MacroChar.expansion (w : World) (info : Info) : MacroChar → Text
  | .literal c _ => [c]
  | .expanded m => m.replaced (getMacro w info (tolower m.alpha))
  | .percent => [byte '%']
  | .space => [SP]
  | .urlSpace => str "%20"

/-- A macro on whose value `do_expand` reads the grammar as it stands: the number does not wrap;
without a transformer no delimiter but the dot occurs; with one only the last delimiter does, the
value does not end in it, and what is kept does not begin with an empty part. -/
def Macro.Harmless (m : Macro) (value : Text) : Prop :=
  readDigits m.digits < 2 ^ 32 ∧
    if m.reverse.isSome ∨ readDigits m.digits ≠ 0 then
      (∀ c ∈ m.delimiters, c ∈ value → c = m.delimiters.getLastD (byte '.')) ∧
        value.getLast? ≠ some (m.delimiters.getLastD (byte '.')) ∧
        ((m.kept value).length ≤ 1 ∨ (m.kept value).head? ≠ some [])
    else ∀ c ∈ m.delimiters, c ∈ value → c = byte '.'

end Grammar

section Reading
variable (m : Macro) (rest : Text)

theorem delimiter_facts : ∀ c, isDelimiter c = true →
    isdigit c = false ∧ c ≠ byte '\x7d' ∧ c ≠ byte 'r' ∧ c ≠ byte 'R' ∧ c ≠ NUL :=
  forall_byte (by decide +kernel)

theorem reversal_facts : ∀ c, c = byte 'r' ∨ c = byte 'R' →
    isdigit c = false ∧ c ≠ byte '\x7d' ∧ isDelimiter c = false ∧ c ≠ NUL :=
  forall_byte (by decide +kernel)

theorem options_facts : ∀ c ∈ m.reverse.toList ++ m.delimiters,
    isdigit c = false ∧ c ≠ byte '\x7d' ∧ c ≠ NUL := by
  intro c mem
  rcases List.mem_append.1 mem with mem | mem
  · obtain ⟨hdigit, hbrace, _, hnul⟩ :=
      reversal_facts c (m.reversal c (Option.mem_toList.1 mem))
    exact ⟨hdigit, hbrace, hnul⟩
  · obtain ⟨hdigit, hbrace, _, _, hnul⟩ := delimiter_facts c (m.delimited c mem)
    exact ⟨hdigit, hbrace, hnul⟩

theorem stop_append {test : UInt8 → Bool} {p q : Text} {c : UInt8} (hp : ∀ d ∈ p, test d = false)
    (hc : test c = false) :
    (p ++ c :: q).takeWhile test = [] ∧ (p ++ c :: q).dropWhile test = p ++ c :: q := by
  cases p with
  | nil =>
      rw [List.nil_append, List.takeWhile_cons, List.dropWhile_cons, hc]
      exact ⟨rfl, rfl⟩
  | cons d p =>
      rw [List.cons_append, List.takeWhile_cons, List.dropWhile_cons, hp d List.mem_cons_self]
      exact ⟨rfl, rfl⟩

theorem span_append {test : UInt8 → Bool} {p q : Text} {c : UInt8} (hp : ∀ d ∈ p, test d = true)
    (hc : test c = false) :
    (p ++ c :: q).takeWhile test = p ∧ (p ++ c :: q).dropWhile test = c :: q := by
  rw [List.takeWhile_append_of_pos hp, List.dropWhile_append_of_pos hp, List.takeWhile_cons,
    List.dropWhile_cons, hc]
  exact ⟨List.append_nil p, rfl⟩

theorem text_append : m.text ++ rest =
    m.alpha :: (m.digits ++ (m.reverse.toList ++ m.delimiters ++ byte '\x7d' :: rest)) := by
  simp only [Macro.text, List.append_assoc, List.cons_append, List.nil_append]

theorem text_stretches {q : Text}
    (hq : q = m.digits ++ (m.reverse.toList ++ m.delimiters ++ byte '\x7d' :: rest)) :
    q.takeWhile isdigit = m.digits ∧
      (q.dropWhile isdigit).takeWhile (· ≠ byte '\x7d') = m.reverse.toList ++ m.delimiters ∧
      (q.dropWhile isdigit).dropWhile (· ≠ byte '\x7d') = byte '\x7d' :: rest := by
  have hoptions := options_facts m
  have hdigits := @stop_append isdigit _ rest (byte '\x7d') (fun d mem => (hoptions d mem).1)
    (show isdigit (byte '\x7d') = false by decide)
  have hspan := @span_append (fun c => decide (c ≠ byte '\x7d')) _ rest (byte '\x7d')
    (fun d mem => decide_eq_true (hoptions d mem).2.1) (by decide)
  rw [hq, List.takeWhile_append_of_pos m.number, List.dropWhile_append_of_pos m.number, hdigits.1,
    hdigits.2]
  exact ⟨List.append_nil _, hspan⟩

theorem afterMacro_text : afterMacro (m.text ++ rest) = rest := by
  obtain ⟨_, _, hleft⟩ := text_stretches m rest rfl
  rw [text_append]
  exact (congrArg (List.drop 1) hleft).trans rfl

def Macro.coded (m : Macro) (value : Text) : Text :=
  let count := readDigits m.digits % 2 ^ 32
  let text :=
    if m.reverse.isSome || count ≠ 0 then
      transform value count m.reverse.isSome (m.delimiters.getLastD NUL)
    else value
  if tolower m.alpha ≠ m.alpha then escape text else text

theorem contains_reversal :
    ((m.reverse.toList ++ m.delimiters).contains (byte 'r') ||
      (m.reverse.toList ++ m.delimiters).contains (byte 'R')) = m.reverse.isSome := by
  cases hr : m.reverse with
  | none =>
      rw [Option.toList_none, List.nil_append, Option.isSome_none, Bool.or_eq_false_iff]
      have hnot (c : UInt8) (hc : isDelimiter c = false) : m.delimiters.contains c = false := by
        rw [Bool.eq_false_iff]
        intro h
        rw [m.delimited c (List.contains_iff_mem.1 h)] at hc
        cases hc
      exact ⟨hnot _ (by decide), hnot _ (by decide)⟩
  | some c =>
      rw [Option.isSome_some, Bool.or_eq_true, List.contains_iff_mem, List.contains_iff_mem]
      rcases m.reversal c hr with rfl | rfl
      · exact Or.inl (List.mem_append_left _ List.mem_cons_self)
      · exact Or.inr (List.mem_append_left _ List.mem_cons_self)

theorem filter_options :
    (m.reverse.toList ++ m.delimiters).filter isDelimiter = m.delimiters := by
  have hnone : m.reverse.toList.filter isDelimiter = [] := by
    refine List.filter_eq_nil_iff.2 fun c mem h => ?_
    rw [(reversal_facts c (m.reversal c (Option.mem_toList.1 mem))).2.2.1] at h
    cases h
  rw [List.filter_append, hnone, List.nil_append]
  exact List.filter_eq_self.2 m.delimited

theorem macroText_text (w : World) (info : Info) :
    macroText w info (m.text ++ rest) = m.coded (getMacro w info (tolower m.alpha)) := by
  obtain ⟨hdigits, hoptions, _⟩ := text_stretches m rest rfl
  have hall : m.digits.takeWhile isdigit = m.digits := List.takeWhile_eq_self_iff.2 m.number
  have hread : readDigits (m.digits ++ (m.reverse.toList ++ m.delimiters ++ byte '\x7d' :: rest)) =
      readDigits m.digits := by
    rw [readDigits, hdigits, readDigits, hall]
  rw [text_append, macroText, Macro.coded]
  simp only [hread, hoptions, contains_reversal, filter_options]

end Reading

section Comparing
variable {m : Macro} {value : Text}

theorem getLastD_mem {p : Text} (h : p ≠ []) (c : UInt8) : p.getLastD c ∈ p := by
  rw [List.getLastD_eq_getLast?, List.getLast?_eq_some_getLast h]
  exact List.getLast_mem h

theorem getLastD_of_ne {p : Text} (h : p ≠ []) (c d : UInt8) : p.getLastD c = p.getLastD d := by
  rw [List.getLastD_eq_getLast?, List.getLastD_eq_getLast?, List.getLast?_eq_some_getLast h]
  rfl

theorem splits_eq (h : ∀ c ∈ m.delimiters, c ∈ value → c = m.delimiters.getLastD (byte '.')) :
    ∀ c ∈ value, m.splits c = (c == m.delimiters.getLastD (byte '.')) := by
  intro c mem
  rw [Macro.splits]
  by_cases hnil : m.delimiters = []
  · rw [if_pos hnil, hnil]
    rfl
  · rw [if_neg hnil, Bool.eq_iff_iff, List.contains_iff_mem, beq_iff_eq]
    exact ⟨fun hc => h c hc mem, fun heq => heq ▸ getLastD_mem hnil _⟩

theorem tsplit_eq (hne : value ≠ [])
    (hlast : value.getLast? ≠ some (m.delimiters.getLastD (byte '.')))
    (h : ∀ c ∈ m.delimiters, c ∈ value → c = m.delimiters.getLastD (byte '.')) :
    tsplit value (m.delimiters.getLastD NUL) = value.splitOnP m.splits := by
  have hdelimiter : (if m.delimiters.getLastD NUL = NUL then byte '.'
      else m.delimiters.getLastD NUL) = m.delimiters.getLastD (byte '.') := by
    by_cases hnil : m.delimiters = []
    · rw [hnil]
      rfl
    · have hmem := m.delimited _ (getLastD_mem hnil NUL)
      rw [if_neg (delimiter_facts _ hmem).2.2.2.2, getLastD_of_ne hnil]
  rw [tsplit, if_neg hne, hdelimiter, tsplitLoop_eq [] hlast, splitOnP_congr (splits_eq h)]
  exact congrFun List.modifyHead_id _

theorem transform_eq (hne : value ≠ [])
    (hlast : value.getLast? ≠ some (m.delimiters.getLastD (byte '.')))
    (h : ∀ c ∈ m.delimiters, c ∈ value → c = m.delimiters.getLastD (byte '.')) :
    transform value (readDigits m.digits) m.reverse.isSome (m.delimiters.getLastD NUL) =
      joinWords [] (m.kept value) := by
  rw [transform, tsplit_eq hne hlast h, Macro.kept]
  generalize value.splitOnP m.splits = parts
  generalize readDigits m.digits = n
  by_cases hall : n = 0 ∨ n > parts.length
  · have hcount : (decide (n > parts.length) || decide (n = 0)) = true := by
      rw [Bool.or_eq_true, decide_eq_true_eq, decide_eq_true_eq]
      exact hall.symm
    rw [if_pos hcount, Nat.sub_self, List.drop_zero, List.take_length]
    by_cases hr : m.reverse.isSome = true
    · rw [if_pos hr, if_pos hr, List.length_reverse, if_pos hall]
    · rw [if_neg hr, if_neg hr, if_pos hall]
  · have hcount : ¬ (decide (n > parts.length) || decide (n = 0)) = true := by
      rw [Bool.or_eq_true, decide_eq_true_eq, decide_eq_true_eq]
      exact fun hor => hall hor.symm
    rw [if_neg hcount]
    by_cases hr : m.reverse.isSome = true
    · rw [if_pos hr, if_pos hr, List.length_reverse, if_neg hall, List.reverse_take]
    · rw [if_neg hr, if_neg hr, if_neg hall]

theorem kept_nil (m : Macro) : List.intercalate [byte '.'] (m.kept []) = [] := by
  have hparts : (if m.reverse.isSome then [([] : Text)].reverse else [[]]) = [[]] := by
    split <;> rfl
  rw [Macro.kept]
  simp only [List.splitOnP_nil, hparts]
  by_cases h : readDigits m.digits = 0 ∨ readDigits m.digits > [([] : Text)].length
  · rw [if_pos h]
    rfl
  · rw [if_neg h]
    have hone : readDigits m.digits = 1 := by
      rw [List.length_singleton] at h
      omega
    rw [hone]
    rfl

theorem xdigit_injective : ∀ m < 16, ∀ n < 16, xdigit.getD m NUL = xdigit.getD n NUL → m = n := by
  decide

theorem escape_cons (c : UInt8) (p : Text) : escape (c :: p) =
    (if validchar c then [c]
      else [byte '%', xdigit.getD (c.toNat / 16) NUL, xdigit.getD (c.toNat % 16) NUL]) ++
        escape p := List.flatMap_cons

theorem escape_injective {p q : Text} (h : escape p = escape q) : p = q := by
  induction p generalizing q with
  | nil =>
      cases q with
      | nil => rfl
      | cons d q =>
          rw [escape_cons] at h
          split at h <;> cases h
  | cons c p ih =>
      cases q with
      | nil =>
          rw [escape_cons] at h
          split at h <;> cases h
      | cons d q =>
          rw [escape_cons, escape_cons] at h
          by_cases hc : validchar c = true
          · by_cases hd : validchar d = true
            · rw [if_pos hc, if_pos hd] at h
              obtain ⟨hcd, hpq⟩ := List.cons.inj h
              rw [hcd, ih hpq]
            · rw [if_pos hc, if_neg hd] at h
              obtain ⟨hcd, _⟩ := List.cons.inj h
              rw [hcd] at hc
              exact absurd hc (by decide)
          · by_cases hd : validchar d = true
            · rw [if_neg hc, if_pos hd] at h
              obtain ⟨hcd, _⟩ := List.cons.inj h
              rw [← hcd] at hd
              exact absurd hd (by decide)
            · rw [if_neg hc, if_neg hd] at h
              obtain ⟨_, h⟩ := List.cons.inj h
              obtain ⟨hhigh, h⟩ := List.cons.inj h
              obtain ⟨hlow, hpq⟩ := List.cons.inj h
              have hc' := c.toNat_lt
              have hd' := d.toNat_lt
              have hhigh' := xdigit_injective _ (by omega) _ (by omega) hhigh
              have hlow' := xdigit_injective _ (by omega) _ (by omega) hlow
              rw [UInt8.toNat_inj.1 (show c.toNat = d.toNat by omega), ih hpq]

theorem upper_iff : ∀ c, tolower c ≠ c ↔ byte 'A' ≤ c ∧ c ≤ byte 'Z' :=
  forall_byte (by decide +kernel)

theorem kept_untransformed_eq (ht : ¬ (m.reverse.isSome ∨ readDigits m.digits ≠ 0)) :
    m.kept value = value.splitOnP m.splits := by
  have hzero : readDigits m.digits = 0 := by
    by_contra hn
    exact ht (Or.inr hn)
  have hr : ¬ m.reverse.isSome = true := fun hr => ht (Or.inl hr)
  rw [Macro.kept]
  simp only [if_neg hr, hzero, true_or, if_true]

/-- Without a transformer the parts make up the value again where only dots split it. -/
theorem kept_untransformed (ht : ¬ (m.reverse.isSome ∨ readDigits m.digits ≠ 0)) :
    List.intercalate [byte '.'] (m.kept value) = value ↔
      ∀ c ∈ m.delimiters, c ∈ value → c = byte '.' := by
  rw [kept_untransformed_eq ht, intercalate_eq_iff]
  by_cases hnil : m.delimiters = []
  · refine ⟨fun _ c mem => absurd (hnil ▸ mem) List.not_mem_nil, fun _ c _ hc => ?_⟩
    rw [Macro.splits, if_pos hnil] at hc
    exact beq_iff_eq.1 hc
  · have hsplits (c : UInt8) : m.splits c = true ↔ c ∈ m.delimiters := by
      rw [Macro.splits, if_neg hnil, List.contains_iff_mem]
    exact ⟨fun h c hc mem => h c mem ((hsplits c).2 hc), fun h c mem hc =>
      h c ((hsplits c).1 hc) mem⟩

theorem coded_eq (h : m.Harmless value) : m.coded value = m.replaced value := by
  obtain ⟨hcount, h⟩ := h
  rw [Macro.coded, Macro.replaced]
  simp only [Nat.mod_eq_of_lt hcount, upper_iff]
  have htext : (if (m.reverse.isSome || decide (readDigits m.digits ≠ 0)) = true then
        transform value (readDigits m.digits) m.reverse.isSome (m.delimiters.getLastD NUL)
      else value) =
      if m.digits ≠ [] ∨ m.reverse.isSome ∨ m.delimiters ≠ [] then
        List.intercalate [byte '.'] (m.kept value)
      else value := by
    by_cases ht : m.reverse.isSome ∨ readDigits m.digits ≠ 0
    · rw [if_pos ht] at h
      obtain ⟨honly, hlast, hfirst⟩ := h
      have hgiven : m.digits ≠ [] ∨ m.reverse.isSome ∨ m.delimiters ≠ [] := by
        rcases ht with hr | hn
        · exact Or.inr (Or.inl hr)
        · exact Or.inl fun hnil => hn (by rw [hnil]; rfl)
      rw [if_pos hgiven, if_pos (by simpa using ht)]
      by_cases hne : value = []
      · rw [hne, kept_nil, transform]
        simp only [tsplit, if_pos, List.take_nil, List.drop_nil, List.reverse_nil, joinWords]
        split <;> rfl
      · rw [transform_eq hne hlast honly, joinWords_eq hfirst]
    · rw [if_neg ht] at h
      rw [if_neg (by simpa using ht)]
      by_cases hgiven : m.digits ≠ [] ∨ m.reverse.isSome ∨ m.delimiters ≠ []
      · rw [if_pos hgiven]
        exact ((kept_untransformed ht).2 h).symm
      · rw [if_neg hgiven]
  rw [htext]

/-- Without a transformer, a delimiter other than the dot in the value shows. -/
theorem coded_eq_iff (hcount : readDigits m.digits < 2 ^ 32)
    (ht : ¬ (m.reverse.isSome ∨ readDigits m.digits ≠ 0)) :
    m.coded value = m.replaced value ↔ m.Harmless value := by
  refine ⟨fun h => ⟨hcount, ?_⟩, coded_eq⟩
  have hnot : ¬ (m.reverse.isSome || decide (readDigits m.digits ≠ 0)) = true := by simpa using ht
  rw [if_neg ht]
  rw [Macro.coded, Macro.replaced] at h
  simp only [Nat.mod_eq_of_lt hcount, upper_iff, if_neg hnot] at h
  have htext : value =
      if m.digits ≠ [] ∨ m.reverse.isSome ∨ m.delimiters ≠ [] then
        List.intercalate [byte '.'] (m.kept value)
      else value := by
    by_cases hupper : byte 'A' ≤ m.alpha ∧ m.alpha ≤ byte 'Z'
    · rw [if_pos hupper, if_pos hupper] at h
      exact escape_injective h
    · rwa [if_neg hupper, if_neg hupper] at h
  by_cases hgiven : m.digits ≠ [] ∨ m.reverse.isSome ∨ m.delimiters ≠ []
  · rw [if_pos hgiven] at htext
    exact (kept_untransformed ht).1 htext.symm
  · intro c mem
    have hnil : m.delimiters = [] := by
      by_contra hne
      exact hgiven (Or.inr (Or.inr hne))
    exact absurd (hnil ▸ mem) List.not_mem_nil

theorem length_escape_map {f : UInt8 → UInt8} (h : ∀ c, validchar (f c) = validchar c)
    (p : Text) : (escape (p.map f)).length = (escape p).length := by
  induction p with
  | nil => rfl
  | cons c p ih =>
      rw [List.map_cons, escape_cons, escape_cons, List.length_append, List.length_append, ih, h]
      split <;> rfl

theorem delimiter_not_valid : ∀ c, isDelimiter c = true → validchar c = false :=
  forall_byte (by decide +kernel)

/-- Without a transformer, what the code puts in a macro's place is as long as the grammar's. -/
theorem length_coded (hcount : readDigits m.digits < 2 ^ 32)
    (ht : ¬ (m.reverse.isSome ∨ readDigits m.digits ≠ 0)) (value : Text) :
    (m.coded value).length = (m.replaced value).length := by
  have hnot : ¬ (m.reverse.isSome || decide (readDigits m.digits ≠ 0)) = true := by simpa using ht
  have hsame (c : UInt8) : validchar (if m.splits c then byte '.' else c) = validchar c := by
    by_cases hc : m.splits c = true
    · have hdelimiter : isDelimiter c = true := by
        rw [Macro.splits] at hc
        by_cases hnil : m.delimiters = []
        · rw [if_pos hnil] at hc
          rw [beq_iff_eq.1 hc]
          decide
        · rw [if_neg hnil] at hc
          exact m.delimited c (List.contains_iff_mem.1 hc)
      rw [if_pos hc, delimiter_not_valid c hdelimiter]
      decide
    · rw [if_neg hc]
  rw [Macro.coded, Macro.replaced]
  simp only [Nat.mod_eq_of_lt hcount, upper_iff, if_neg hnot]
  by_cases hgiven : m.digits ≠ [] ∨ m.reverse.isSome ∨ m.delimiters ≠ []
  · rw [if_pos hgiven, kept_untransformed_eq ht, intercalate_splitOnP]
    by_cases hupper : byte 'A' ≤ m.alpha ∧ m.alpha ≤ byte 'Z'
    · rw [if_pos hupper, if_pos hupper, length_escape_map hsame]
    · rw [if_neg hupper, if_neg hupper, List.length_map]
  · rw [if_neg hgiven]

end Comparing

section Strings
variable (w : World) (info : Info)

def text (ts : List MacroChar) : Text := ts.flatMap MacroChar.text

theorem nul_not_mem_text (ts : List MacroChar) : NUL ∉ text ts := by
  intro mem
  obtain ⟨t, _, mem⟩ := List.mem_flatMap.1 mem
  cases t with
  | literal c copied => exact copied.1 (List.mem_singleton.1 mem).symm
  | expanded m =>
      rcases List.mem_cons.1 mem with heq | mem
      · exact absurd heq (by decide)
      rcases List.mem_cons.1 mem with heq | mem
      · exact absurd heq (by decide)
      rcases List.mem_cons.1 mem with heq | mem
      · have hletter := m.letter.1
        rw [← heq] at hletter
        exact absurd hletter (by decide)
      rcases List.mem_append.1 mem with mem | mem
      · exact absurd (m.number _ mem) (by decide)
      rcases List.mem_append.1 mem with mem | mem
      · exact (options_facts m _ mem).2.2 rfl
      · exact absurd (List.mem_singleton.1 mem) (by decide)
  | percent => exact absurd mem (by decide)
  | space => exact absurd mem (by decide)
  | urlSpace => exact absurd mem (by decide)

def MacroChar.coded : MacroChar → Text
  | .expanded m => m.coded (getMacro w info (tolower m.alpha))
  | t => t.expansion w info

theorem doExpand_piece (t : MacroChar) (rest : Text) :
    doExpand w info (t.text ++ rest) = t.coded w info ++ doExpand w info rest := by
  cases t with
  | literal c copied => exact doExpand_cons w info copied.2 rest
  | expanded m =>
      refine (doExpand_percent w info (byte '\x7b') (m.text ++ rest)).trans ?_
      rw [if_pos rfl, macroText_text, afterMacro_text]
      rfl
  | percent => exact (doExpand_percent w info (byte '%') rest).trans (if_neg (by decide))
  | space => exact (doExpand_percent w info (byte '_') rest).trans (if_neg (by decide))
  | urlSpace => exact (doExpand_percent w info (byte '-') rest).trans (if_neg (by decide))

theorem doExpand_text (ts : List MacroChar) :
    doExpand w info (text ts) = ts.flatMap (MacroChar.coded w info) := by
  induction ts with
  | nil => exact doExpand.eq_1 w info
  | cons t ts ih =>
      rw [text, List.flatMap_cons, List.flatMap_cons, ← ih]
      exact doExpand_piece w info t _

theorem coded_expansion {t : MacroChar}
    (h : ∀ m, t = .expanded m → m.Harmless (getMacro w info (tolower m.alpha))) :
    t.coded w info = t.expansion w info := by
  cases t with
  | expanded m => exact coded_eq (h m rfl)
  | literal | percent | space | urlSpace => rfl

theorem flatMap_coded {ts : List MacroChar}
    (h : ∀ m, .expanded m ∈ ts → m.Harmless (getMacro w info (tolower m.alpha))) :
    ts.flatMap (MacroChar.coded w info) = ts.flatMap (MacroChar.expansion w info) := by
  induction ts with
  | nil => rfl
  | cons t ts ih =>
      rw [List.flatMap_cons, List.flatMap_cons, ih fun m mem => h m (List.mem_cons_of_mem _ mem),
        coded_expansion w info fun m heq => h m (heq ▸ List.mem_cons_self)]

def Macro.Untransformed (m : Macro) : Prop :=
  readDigits m.digits < 2 ^ 32 ∧ ¬ (m.reverse.isSome ∨ readDigits m.digits ≠ 0)

/-- Pieces of the same length are the same where the whole is. -/
theorem flatMap_coded_iff {ts : List MacroChar} (hts : ∀ m, .expanded m ∈ ts → m.Untransformed) :
    ts.flatMap (MacroChar.coded w info) = ts.flatMap (MacroChar.expansion w info) ↔
      ∀ m, .expanded m ∈ ts → m.Harmless (getMacro w info (tolower m.alpha)) := by
  refine ⟨fun h => ?_, flatMap_coded w info⟩
  induction ts with
  | nil => exact fun m mem => absurd mem List.not_mem_nil
  | cons t ts ih =>
      have hrest := fun m mem => hts m (List.mem_cons_of_mem _ mem)
      have hlen : (t.coded w info).length = (t.expansion w info).length := by
        cases t with
        | expanded m =>
            obtain ⟨hcount, ht⟩ := hts m List.mem_cons_self
            exact length_coded hcount ht _
        | literal | percent | space | urlSpace => rfl
      rw [List.flatMap_cons, List.flatMap_cons] at h
      obtain ⟨hone, hall⟩ := List.append_inj h hlen
      intro m mem
      rcases List.mem_cons.1 mem with rfl | mem
      · obtain ⟨hcount, ht⟩ := hts m List.mem_cons_self
        exact (coded_eq_iff hcount ht).1 hone
      · exact ih hrest hall m mem

theorem expand_eq (p : Text) (s : State) (h : w.malloc s.asked = true) :
    expand w p info s = some (some (doExpand w info p), { s with asked := s.asked + 1 }) := by
  show (if w.malloc s.asked = true then _ else _ : Run State (Option Text)) _ = _
  rw [if_pos h]
  rfl

/-- The two passes end and agree on every string; where no macro of a macro string is harmed they
save what the grammar says, and for macros without a transformer only there. -/
theorem expand_text :
    (∀ p, NUL ∉ p → ∃ expansion : Text,
      passes w info p = some (expansion.length + 1, expansion) ∧
        ∀ s : State, w.malloc s.asked = true →
          (expand w p info s).map Prod.fst = some (some expansion)) ∧
      (∀ ts, (∀ m, .expanded m ∈ ts → m.Harmless (getMacro w info (tolower m.alpha))) →
        passes w info (text ts) =
          some ((ts.flatMap (MacroChar.expansion w info)).length + 1,
            ts.flatMap (MacroChar.expansion w info))) ∧
      ∀ ts, (∀ m, .expanded m ∈ ts → m.Untransformed) →
        (passes w info (text ts) =
          some ((ts.flatMap (MacroChar.expansion w info)).length + 1,
            ts.flatMap (MacroChar.expansion w info)) ↔
          ∀ m, .expanded m ∈ ts → m.Harmless (getMacro w info (tolower m.alpha))) := by
  refine ⟨fun p hnul => ⟨doExpand w info p, passes_eq w info hnul, fun s hs => ?_⟩,
    fun ts h => ?_, fun ts hts => ?_⟩
  · rw [expand_eq w info p s hs]
    rfl
  · rw [passes_eq w info (nul_not_mem_text ts), doExpand_text, flatMap_coded w info h]
  · rw [passes_eq w info (nul_not_mem_text ts), doExpand_text, ← flatMap_coded_iff w info hts]
    refine ⟨fun h => (Prod.mk.inj (Option.some.inj h)).2, fun h => ?_⟩
    rw [h]

end Strings

section Sample

def sampleWorld : World :=
  ⟨fun _ => (SPF_NONE, []), fun _ => none, fun _ => true, [], fun _ _ => (0, []),
    fun _ _ => (0, []), fun _ _ => .enoent, fun _ _ => none⟩

def sampleInfo : Info := ⟨str "a@b", str "a-b.c", str "1.2.3.4", [], [], [], 0⟩

/-- `%{d1r}` -/
def reversedMacro : Macro where
  alpha := byte 'd'
  digits := str "1"
  reverse := some (byte 'r')
  delimiters := []
  letter := by decide
  number := List.all_eq_true.1 (by decide : (str "1").all isdigit = true)
  reversal _ mem := Or.inl (Option.some.inj mem).symm
  delimited _ mem := absurd mem List.not_mem_nil

/-- `%{d-}` -/
def dashMacro : Macro where
  alpha := byte 'd'
  digits := []
  reverse := none
  delimiters := [byte '-']
  letter := by decide
  number _ mem := absurd mem List.not_mem_nil
  reversal _ mem := by cases mem
  delimited := List.all_eq_true.1 (by decide : [byte '-'].all isDelimiter = true)

theorem expand_text_sample : passes sampleWorld sampleInfo (text [.expanded reversedMacro]) =
    some (4, str "a-b") :=
  (expand_text sampleWorld sampleInfo).2.1 [.expanded reversedMacro] fun m mem => by
    obtain rfl := MacroChar.expanded.inj (List.mem_singleton.1 mem)
    refine ⟨by decide, ?_⟩
    rw [if_pos (Or.inl (show reversedMacro.reverse.isSome = true from rfl))]
    exact ⟨fun c mem => absurd mem List.not_mem_nil, by decide, by decide⟩

/-- A delimiter without a transformer does not split. -/
theorem expand_unsplit : ¬ ∀ w info ts, passes w info (text ts) =
    some ((ts.flatMap (MacroChar.expansion w info)).length + 1,
      ts.flatMap (MacroChar.expansion w info)) := by
  intro h
  have hspec := h sampleWorld sampleInfo [.expanded dashMacro]
  rw [passes_eq _ _ (nul_not_mem_text _), doExpand_text] at hspec
  exact absurd hspec (by decide)

end Sample
end Cone.SpfMacros
