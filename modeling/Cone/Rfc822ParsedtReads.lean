import Cone.Rfc822Mkdate

/-! # What the reader makes of a date as it is written -/
set_option autoImplicit false
namespace Cone.Rfc822ParsedtReads

open Cone.Ctype Cone.Lib.Decimal Cone.Lib.Slots Cone.Rfc822Parsedt Cone.Rfc822Mkdate

/-! ## Numbers -/

def digitsValue (i : Nat) (ds : List UInt8) : Nat :=
  ds.foldl (fun n c => 10 * n + (c.toNat - (byte '0').toNat)) i

theorem digitsValue_cons (i : Nat) (c : UInt8) (ds : List UInt8) :
    digitsValue i (c :: ds) = digitsValue (10 * i + (c.toNat - (byte '0').toNat)) ds := by
  rw [digitsValue, digitsValue, List.foldl_cons]

theorem le_digitsValue (i : Nat) (ds : List UInt8) : i ≤ digitsValue i ds := by
  induction ds generalizing i with
  | nil => exact Nat.le_refl i
  | cons c ds ih =>
      rw [digitsValue_cons]
      have := ih (10 * i + (c.toNat - (byte '0').toNat))
      omega

theorem parsedig_digits (i : Nat) (ds rest : List UInt8) (digits : ∀ c ∈ ds, isdigit c = true)
    (stop : ∀ c ∈ rest.head?, isdigit c = false) (small : digitsValue i ds < 2 ^ 32) :
    parsedig i (ds ++ rest) = (digitsValue i ds, rest) := by
  induction ds generalizing i with
  | nil =>
      cases rest with
      | nil => rfl
      | cons c rest =>
          have other : ¬ isdigit c = true := by simp [stop c rfl]
          rw [List.nil_append, parsedig, if_neg other]
          rfl
  | cons c ds ih =>
      have digit := digits c (List.mem_cons_self ..)
      have low : (byte '0').toNat ≤ c.toNat := by
        have both : byte '0' ≤ c ∧ c ≤ byte '9' := by simpa [isdigit] using digit
        exact UInt8.le_iff_toNat_le.mp both.1
      rw [digitsValue_cons] at small ⊢
      have step : (i * 10 + c.toNat - (byte '0').toNat) % 2 ^ 32 =
          10 * i + (c.toNat - (byte '0').toNat) := by
        have bound := le_digitsValue (10 * i + (c.toNat - (byte '0').toNat)) ds
        rw [Nat.mod_eq_of_lt (by omega)]
        omega
      rw [List.cons_append, parsedig, if_pos digit, step]
      exact ih _ (fun d hd => digits d (List.mem_cons_of_mem _ hd)) small

theorem digitsValue_zeros (k : Nat) (ds : List UInt8) :
    digitsValue 0 (List.replicate k (byte '0') ++ ds) = digitsValue 0 ds := by
  induction k with
  | zero => rfl
  | succ k ih =>
      rw [List.replicate_succ, List.cons_append, digitsValue_cons]
      simpa using ih

theorem digitsValue_decimal (n : Nat) : digitsValue 0 (decimal n) = n := by
  rw [digitsValue, decimal,
    foldl_digits _ fun c hc => Nat.isDigit_of_mem_toDigits (by decide) (by decide) hc,
    Nat.ofDigitChars_ten_toDigits]

theorem isdigit_padded (w n : Nat) : ∀ c ∈ padded w n, isdigit c = true := by
  intro c hc
  rcases List.mem_append.mp hc with zero | digit
  · rw [(List.mem_replicate.mp zero).2]
    decide
  · exact isdigit_of_mem_decimal digit

theorem padded_ne_nil (w n : Nat) : padded w n ≠ [] := by
  simp [padded, decimal_ne_nil]

section Padded
variable (w n : Nat) (rest : List UInt8)

theorem head_padded : ((padded w n ++ rest).head?.map isdigit) = some true := by
  obtain ⟨c, q, hcq⟩ := List.exists_cons_of_ne_nil (padded_ne_nil w n)
  have digit := isdigit_padded w n c (by simp [hcq])
  simp [hcq, digit]

theorem parsedig_padded (small : n < 2 ^ 32) (stop : ∀ c ∈ rest.head?, isdigit c = false) :
    parsedig 0 (padded w n ++ rest) = (n, rest) := by
  have value : digitsValue 0 (padded w n) = n := by
    rw [padded, digitsValue_zeros, digitsValue_decimal]
  rw [parsedig_digits 0 _ _ (isdigit_padded w n) stop (by rw [value]; exact small), value]

theorem dropWhile_padded (p : UInt8 → Bool) (stop : ∀ c, isdigit c = true → p c = false) :
    (padded w n ++ rest).dropWhile p = padded w n ++ rest := by
  obtain ⟨c, q, hcq⟩ := List.exists_cons_of_ne_nil (padded_ne_nil w n)
  have digit := stop c (isdigit_padded w n c (by simp [hcq]))
  rw [hcq, List.cons_append, List.dropWhile_cons_of_neg (by simp [digit])]

end Padded

/-! ## Words -/

theorem afterKey_append (key p rest : List UInt8) (long : key.length ≤ p.length) :
    afterKey key (p ++ rest) = (afterKey key p).map (· ++ rest) := by
  induction key generalizing p with
  | nil => rfl
  | cons k key ih =>
      cases p with
      | nil => simp at long
      | cons c p =>
          rw [List.cons_append, afterKey, afterKey, ih p (by simpa using long)]
          split <;> rfl

theorem parsekey_append (ary : List (List UInt8)) (p rest : List UInt8)
    (long : ∀ key ∈ ary, key.length ≤ p.length) :
    parsekey ary (p ++ rest) = ((parsekey ary p).1, (parsekey ary p).2 ++ rest) := by
  induction ary with
  | nil => rfl
  | cons key ary ih =>
      have later := ih fun k hk => long k (List.mem_cons_of_mem _ hk)
      rw [parsekey, parsekey, afterKey_append key p rest (long key (List.mem_cons_self ..)), later]
      cases afterKey key p with
      | some q => rfl
      | none =>
          simp only [Option.map_none]
          split <;> rfl

theorem names_computed :
    (List.finRange 7).all (fun w => (weekdays.getD w.val []).length == 3 &&
      ((weekdays.getD w.val []).all isAlpha &&
        parsekey mnames (weekdays.getD w.val []) == (0, weekdays.getD w.val []))) = true ∧
    (List.finRange 12).all (fun m => (mnames.getD m.val []).length == 3 &&
      ((mnames.getD m.val []).all isAlpha &&
        parsekey mnames (mnames.getD m.val []) == (m.val + 1, []))) = true ∧
    mnames.all (fun key => key.length == 3) = true ∧ parsezone (SP :: str "GMT") = 0 := by
  decide +kernel

theorem names :
    (∀ w : Fin 7, (weekdays.getD w.val []).length = 3 ∧
      (∀ c ∈ weekdays.getD w.val [], isAlpha c = true) ∧
        parsekey mnames (weekdays.getD w.val []) = (0, weekdays.getD w.val [])) ∧
    (∀ m : Fin 12, (mnames.getD m.val []).length = 3 ∧
      (∀ c ∈ mnames.getD m.val [], isAlpha c = true) ∧
        parsekey mnames (mnames.getD m.val []) = (m.val + 1, [])) ∧
    (∀ key ∈ mnames, key.length = 3) ∧ parsezone (SP :: str "GMT") = 0 := by
  obtain ⟨days, months, keys, gmt⟩ := names_computed
  refine ⟨fun w => ?_, fun m => ?_, fun key hkey => ?_, gmt⟩
  · have here := List.all_eq_true.mp days w (List.mem_finRange w)
    simpa only [Bool.and_eq_true, beq_iff_eq, List.all_eq_true] using here
  · have here := List.all_eq_true.mp months m (List.mem_finRange m)
    simpa only [Bool.and_eq_true, beq_iff_eq, List.all_eq_true] using here
  · exact eq_of_beq (List.all_eq_true.mp keys key hkey)

theorem mnames_length : ∀ key ∈ mnames, key.length = 3 := names.2.2.1

theorem digit_facts : ∀ c, isdigit c = true → isAlpha c = false ∧ isBlank c = false :=
  forall_byte (by decide +kernel)

section Loop
variable (fuel day : Nat) (rest : List UInt8)

theorem dayAndMonth_cons (mon : Nat) (c : UInt8) (open' : ¬ (day ≠ 0 ∧ mon ≠ 0)) :
    dayAndMonth (fuel + 1) day mon (c :: rest) =
      if isAlpha c then
        if mon ≠ 0 then none
        else
          let r := parsekey mnames (c :: rest)
          if r.1 = 0 then dayAndMonth fuel day 0 (r.2.dropWhile isAlpha)
          else dayAndMonth fuel day r.1 r.2
      else if isdigit c then
        if day ≠ 0 then none
        else
          let r := parsedig 0 (c :: rest)
          if r.1 = 0 then none else dayAndMonth fuel r.1 mon r.2
      else dayAndMonth fuel day mon rest := by
  rw [dayAndMonth, if_neg open']

theorem dayAndMonth_done (mon : Nat) (both : day ≠ 0 ∧ mon ≠ 0) :
    dayAndMonth fuel day mon rest = some (day, mon, rest) := by
  rw [dayAndMonth.eq_def]
  exact if_pos both

theorem dayAndMonth_skip (mon : Nat) (c : UInt8) (open' : ¬ (day ≠ 0 ∧ mon ≠ 0))
    (plain : isAlpha c = false ∧ isdigit c = false) :
    dayAndMonth (fuel + 1) day mon (c :: rest) = dayAndMonth fuel day mon rest := by
  rw [dayAndMonth_cons _ _ _ _ _ open']
  simp [plain.1, plain.2]

theorem dayAndMonth_weekday (w : Nat) (hw : w < 7) (stop : ∀ c ∈ rest.head?, isAlpha c = false) :
    dayAndMonth (fuel + 1) 0 0 (weekdays.getD w [] ++ rest) = dayAndMonth fuel 0 0 rest := by
  obtain ⟨three, alpha, key⟩ := names.1 ⟨w, hw⟩
  simp only at three alpha key
  generalize weekdays.getD w [] = word at three alpha key
  have whole := parsekey_append mnames word rest fun k hk => by rw [mnames_length k hk, three]
  rw [key] at whole
  have after : (word ++ rest).dropWhile isAlpha = rest := by
    rw [List.dropWhile_append_of_pos alpha]
    cases rest with
    | nil => rfl
    | cons c rest => exact List.dropWhile_cons_of_neg (by simp [stop c rfl])
  cases word with
  | nil => simp at three
  | cons c word =>
      have first := alpha c (List.mem_cons_self ..)
      rw [List.cons_append] at whole after ⊢
      rw [dayAndMonth_cons _ _ _ _ _ (by simp)]
      simp only [first, if_true, ne_eq, not_true, if_false, whole, after]

theorem dayAndMonth_month (m : Nat) (hm : m < 12) :
    dayAndMonth (fuel + 1) day 0 (mnames.getD m [] ++ rest) = dayAndMonth fuel day (m + 1) rest := by
  obtain ⟨three, alpha, key⟩ := names.2.1 ⟨m, hm⟩
  simp only at three alpha key
  generalize mnames.getD m [] = word at three alpha key
  have whole := parsekey_append mnames word rest fun k hk => by rw [mnames_length k hk, three]
  rw [key] at whole
  cases word with
  | nil => simp at three
  | cons c word =>
      have first := alpha c (List.mem_cons_self ..)
      rw [List.cons_append] at whole ⊢
      rw [dayAndMonth_cons _ _ _ _ _ (by simp)]
      simp only [first, if_true, ne_eq, not_true, if_false, whole, Nat.add_one_ne_zero,
        List.nil_append]

theorem dayAndMonth_day (w d : Nat) (some' : d ≠ 0) (small : d < 2 ^ 32)
    (stop : ∀ c ∈ rest.head?, isdigit c = false) :
    dayAndMonth (fuel + 1) 0 0 (padded w d ++ rest) = dayAndMonth fuel d 0 rest := by
  have number := parsedig_padded w d rest small stop
  have head := head_padded w d rest
  obtain ⟨c, q, hcq⟩ := List.exists_cons_of_ne_nil (padded_ne_nil w d)
  rw [hcq, List.cons_append] at number head ⊢
  have digit : isdigit c = true := by simpa using head
  have alpha := (digit_facts c digit).1
  rw [dayAndMonth_cons _ _ _ _ _ (by simp)]
  simp [alpha, digit, number, some']

end Loop

/-! ## The whole text -/

theorem parsetime_padded (h m s : Nat) (rest : List UInt8) (hour : h ≤ 23) (min : m ≤ 59)
    (sec : s ≤ 59) (stop : ∀ c ∈ rest.head?, isdigit c = false) :
    parsetime (padded 2 h ++ (byte ':' :: (padded 2 m ++ (byte ':' :: (padded 2 s ++ rest))))) =
      some (h * 60 * 60 + m * 60 + s, rest) := by
  have colon : ∀ p, ∀ c ∈ (byte ':' :: p : List UInt8).head?, isdigit c = false := by
    intro p c hc
    obtain rfl : byte ':' = c := by simpa using hc
    decide
  rw [parsetime, if_neg (by rw [head_padded]; simp), parsedig_padded 2 h _ (by omega) (colon _)]
  simp only [head_padded, ne_eq, not_true, or_self, if_false, if_true,
    parsedig_padded 2 m _ (by omega) (colon _), parsedig_padded 2 s rest (by omega) stop]
  rw [if_neg (by omega), if_neg (by omega)]

def seconds (p : Tm) : Int :=
  ((before yearDays p.year : Int) - before yearDays 1970 + before (monthDays p.year) p.mon +
    p.mday - 1) * 86400 + p.hour * 3600 + p.min * 60 + p.sec

/-- The fields of a date and time are in their ranges. -/
structure Valid (p : Tm) : Prop where
  wday : p.wday < 7
  mday : 1 ≤ p.mday ∧ p.mday ≤ monthDays p.year p.mon
  mon : p.mon < 12
  hour : p.hour ≤ 23
  min : p.min ≤ 59
  sec : p.sec ≤ 59

theorem before_yearDays (y : Nat) :
    before yearDays y + (y + 99) / 100 = 365 * y + (y + 3) / 4 + (y + 399) / 400 := by
  induction y with
  | zero => rfl
  | succ y ih =>
      have fours : (y + 1 + 3) / 4 = (y + 3) / 4 + if y % 4 = 0 then 1 else 0 := by
        split <;> omega
      have centuries : (y + 1 + 99) / 100 = (y + 99) / 100 + if y % 100 = 0 then 1 else 0 := by
        split <;> omega
      have cycles : (y + 1 + 399) / 400 = (y + 399) / 400 + if y % 400 = 0 then 1 else 0 := by
        split <;> omega
      have cycle_century : y % 400 = 0 → y % 100 = 0 := by omega
      have century_four : y % 100 = 0 → y % 4 = 0 := by omega
      have long : yearDays y + (if y % 100 = 0 then 1 else 0) =
          365 + (if y % 4 = 0 then 1 else 0) + if y % 400 = 0 then 1 else 0 := by
        rw [yearDays]
        simp only [leap]
        by_cases cycle : y % 400 = 0
        · simp [cycle, cycle_century cycle, century_four (cycle_century cycle)]
        · by_cases century : y % 100 = 0
          · simp [cycle, century, century_four century]
          · by_cases four : y % 4 = 0
            · simp [cycle, century, four]
            · simp [cycle, century, four]
      rw [before, fours, centuries, cycles]
      omega

theorem before_four (y : Nat) (long : leap y) :
    before yearDays (y + 4) = before yearDays y + (365 * 3 + 366) := by
  have short : ∀ k, k = 1 ∨ k = 2 ∨ k = 3 → yearDays (y + k) = 365 := by
    intro k hk
    have four : y % 4 = 0 := by
      rcases long with cycle | plain
      · omega
      · exact plain.1
    have not_leap : ¬ leap (y + k) := by
      rintro (cycle | plain)
      · omega
      · omega
    exact if_neg not_leap
  have first : yearDays y = 366 := if_pos long
  have one := short 1 (by omega)
  have two := short 2 (by omega)
  have three := short 3 (by omega)
  simp only [before]
  omega

theorem yearLoop_eq (fuel y year : Nat) (t : Int) (enough : year ≤ y + fuel) (le : y ≤ year) :
    yearLoop fuel y year t =
      t + ((before yearDays year : Int) - before yearDays y) * 86400 := by
  induction fuel generalizing y t with
  | zero =>
      have same : y = year := by omega
      rw [yearLoop, same]
      omega
  | succ fuel ih =>
      rw [yearLoop]
      have next : before yearDays (y + 1) = before yearDays y + yearDays y := rfl
      rw [yearDays] at next
      by_cases more : y < year
      · rw [if_pos more]
        by_cases long : leap y
        · rw [if_pos long] at next ⊢
          by_cases four : year - y ≥ 4
          · rw [if_pos four, ih (y + 4) _ (by omega) (by omega), before_four y long]
            push_cast
            omega
          · rw [if_neg four, ih (y + 1) _ (by omega) (by omega), next]
            push_cast
            omega
        · rw [if_neg long] at next ⊢
          rw [ih (y + 1) _ (by omega) (by omega), next]
          push_cast
          omega
      · have same : y = year := by omega
        rw [if_neg more, same]
        omega

theorem monthLoop_eq (fuel m mon year : Nat) (t : Int) (enough : mon ≤ m + fuel) (le : m ≤ mon) :
    monthLoop fuel (m + 1) (mon + 1) year t =
      t + ((before (monthDays year) mon : Int) - before (monthDays year) m) * 86400 := by
  induction fuel generalizing m t with
  | zero =>
      have same : m = mon := by omega
      rw [monthLoop, same]
      omega
  | succ fuel ih =>
      rw [monthLoop]
      have next : before (monthDays year) (m + 1) =
          before (monthDays year) m + mdays (m + 1) year := rfl
      by_cases more : m + 1 < mon + 1
      · rw [if_pos more, ih (m + 1) _ (by omega) (by omega), next]
        push_cast
        omega
      · have same : m = mon := by omega
        rw [if_neg more, same]
        omega

theorem stop_of_cons (p : UInt8 → Bool) (c : UInt8) (rest : List UInt8) (h : p c = false) :
    ∀ d ∈ (c :: rest).head?, p d = false := by
  intro d hd
  obtain rfl : c = d := by simpa using hd
  exact h

theorem dayAndMonth_stamp (fuel : Nat) (p : Tm) (valid : Valid p) (rest : List UInt8)
    (mday : p.mday < 2 ^ 32) :
    dayAndMonth (fuel + 6) 0 0 (weekdays.getD p.wday [] ++ byte ',' :: SP ::
        (padded 2 p.mday ++ SP :: (mnames.getD p.mon [] ++ rest))) =
      some (p.mday, p.mon + 1, rest) := by
  have comma : isAlpha (byte ',') = false ∧ isdigit (byte ',') = false := by decide
  have space : isAlpha SP = false ∧ isdigit SP = false := by decide
  have first : p.mday ≠ 0 := by
    have := valid.mday.1
    omega
  rw [dayAndMonth_weekday _ _ _ valid.wday (stop_of_cons isAlpha _ _ comma.1),
    dayAndMonth_skip _ _ _ _ _ (by simp) comma, dayAndMonth_skip _ _ _ _ _ (by simp) space,
    dayAndMonth_day _ _ _ _ first mday (stop_of_cons isdigit _ _ space.2),
    dayAndMonth_skip _ _ _ _ _ (by simp) space, dayAndMonth_month _ _ _ _ valid.mon]
  exact dayAndMonth_done _ _ _ _ ⟨first, Nat.add_one_ne_zero _⟩

theorem stamp_eq (p : Tm) (zone : List UInt8) :
    stamp p ++ zone = weekdays.getD p.wday [] ++ byte ',' :: SP ::
      (padded 2 p.mday ++ SP :: (mnames.getD p.mon [] ++ SP :: (padded 4 p.year ++ SP ::
        (padded 2 p.hour ++ byte ':' :: (padded 2 p.min ++ byte ':' :: (padded 2 p.sec ++
          SP :: zone)))))) := by
  have comma : str ", " = [byte ',', SP] := by decide
  have space : str " " = [SP] := by decide
  have colon : str ":" = [byte ':'] := by decide
  simp [stamp, comma, space, colon]

theorem mdays_le (m y : Nat) : mdays m y ≤ 31 := by
  have all : ∀ n : Fin 12, mlength.getD n.val 0 ≤ 31 := by decide
  rw [mdays]
  by_cases feb : m ≠ 2
  · rw [if_pos feb]
    by_cases inside : m - 1 < 12
    · exact all ⟨m - 1, inside⟩
    · have outside : mlength.length ≤ m - 1 := by simpa [mlength] using inside
      rw [List.getD_eq_getElem?_getD, List.getElem?_eq_none outside]
      simp
  · rw [if_neg feb]
    split <;> omega

theorem parsedt_stamp (p : Tm) (valid : Valid p) (century : 100 ≤ p.year) (year : p.year < 2 ^ 32)
    (zone : List UInt8) :
    parsedt (stamp p ++ zone) =
      if p.year < 1970 ∨ p.year > 9999 then 0 else seconds p - parsezone (SP :: zone) := by
  have space : isdigit SP = false := by decide
  have notBlank := fun c hc => (digit_facts c hc).2
  have short := mdays_le (p.mon + 1) p.year
  have mon := valid.mon
  have mday := valid.mday
  rw [monthDays] at mday
  have dates := fun fuel rest => dayAndMonth_stamp fuel p valid rest (by omega)
  have blank : ∀ rest, (SP :: rest).dropWhile isBlank = rest.dropWhile isBlank := fun rest =>
    List.dropWhile_cons_of_pos (by decide)
  have time := parsetime_padded p.hour p.min p.sec (SP :: zone) valid.hour valid.min valid.sec
    (stop_of_cons isdigit _ _ space)
  have number := parsedig_padded 4 p.year (SP :: (padded 2 p.hour ++ byte ':' ::
    (padded 2 p.min ++ byte ':' :: (padded 2 p.sec ++ SP :: zone)))) year
    (stop_of_cons isdigit _ _ space)
  have dated : Rfc822Parsedt.century p.year = p.year := by
    simp only [Rfc822Parsedt.century, if_neg (show ¬ p.year < 70 by omega),
      if_neg (show ¬ p.year < 100 by omega)]
  rw [stamp_eq]
  obtain ⟨fuel, enough⟩ : ∃ fuel, (weekdays.getD p.wday [] ++ byte ',' :: SP ::
      (padded 2 p.mday ++ SP :: (mnames.getD p.mon [] ++ SP :: (padded 4 p.year ++ SP ::
        (padded 2 p.hour ++ byte ':' :: (padded 2 p.min ++ byte ':' :: (padded 2 p.sec ++
          SP :: zone))))))).length = fuel + 6 := by
    refine ⟨_, (Nat.sub_add_cancel ?_).symm⟩
    simp only [List.length_append, List.length_cons]
    omega
  rw [parsedt, enough, dates]
  simp only [blank, dropWhile_padded 4 p.year _ isBlank notBlank, head_padded, ne_eq,
    not_true, if_false, number, dropWhile_padded 2 p.hour _ isBlank notBlank, dated, time]
  rw [if_neg (by omega)]
  by_cases early : p.year < 1970
  · rw [if_pos early, if_pos (Or.inl early)]
  · rw [if_neg early]
    by_cases late : p.year > 9999
    · rw [if_pos late, if_pos (Or.inr late)]
    · rw [if_neg late, if_neg (by omega), yearLoop_eq _ _ _ _ (by omega) (by omega),
        Nat.add_sub_cancel, monthLoop_eq p.mon 0 p.mon _ _ (by omega) (by omega), seconds]
      have zero : before (monthDays p.year) 0 = 0 := rfl
      rw [zero]
      push_cast
      omega

/-! ## Zones -/

theorem parsezone_signed (n : Int) (hour : n.natAbs ≤ 2359) (min : n.natAbs % 100 ≤ 59) :
    parsezone (SP :: signed n) =
      (if n < 0 then -1 else 1) * ((n.natAbs % 100) * 60 + n.natAbs / 100 * 60 * 60 : Nat) := by
  have number := parsedig_padded 4 n.natAbs [] (by omega) (by simp)
  have head := head_padded 4 n.natAbs []
  rw [List.append_nil] at number head
  have skip : (SP :: signed n).dropWhile
      (fun c => !(isAlnum c || decide (c = byte '+') || decide (c = byte '-'))) = signed n := by
    rw [List.dropWhile_cons_of_pos (by decide), signed, List.dropWhile_cons_of_neg]
    split <;> decide
  rw [parsezone]
  simp only [skip]
  rw [signed]
  have keep : ¬ (n.natAbs > 2359 ∨ n.natAbs % 100 > 59) := by omega
  by_cases negative : n < 0
  · have sign : isAlpha (byte '-') = false := by decide
    simp [negative, sign, head, number, keep]
  · have sign : isAlpha (byte '+') = false ∧ byte '+' ≠ byte '-' := by decide
    simp [negative, sign.1, sign.2, head, number, keep]

/-! ## The calendar -/

theorem before_monthDays (y : Nat) : before (monthDays y) 12 = yearDays y := by
  simp only [before, monthDays, mdays, mlength, yearDays]
  by_cases long : leap y
  · simp [long]
  · simp [long]

theorem before_1970 : before yearDays 1970 = 719528 := by
  have closed := before_yearDays 1970
  omega

theorem before_10000 : before yearDays 10000 = 3652425 := by
  have closed := before_yearDays 10000
  omega

/-- The broken-down time is a date of the calendar, and the time it was made of. -/
theorem gmtime_spec (t : Int) (late : 0 ≤ t / 86400 + epochDay) :
    Valid (gmtime t) ∧ seconds (gmtime t) = t := by
  obtain ⟨day, hday⟩ : ∃ day : Nat, t / 86400 + epochDay = day := ⟨_, (Int.toNat_of_nonneg late).symm⟩
  obtain ⟨secs, hsecs⟩ : ∃ secs : Nat, t % 86400 = secs :=
    ⟨_, (Int.toNat_of_nonneg (Int.emod_nonneg t (by decide))).symm⟩
  have low := Int.emod_lt_of_pos t (show (0 : Int) < 86400 by decide)
  have total := Int.mul_ediv_add_emod t 86400
  have years : before yearDays 0 + day < before yearDays (0 + (day + 1)) := by
    have closed := before_yearDays (day + 1)
    rw [Nat.zero_add]
    simp only [before] at closed ⊢
    omega
  obtain ⟨-, -, inYear, yearSum⟩ := slot_spec yearDays (day + 1) 0 day years
  have fields : gmtime t =
      { wday := (day + 6) % 7
        mday := (slot (monthDays (slot yearDays (day + 1) 0 day).1) 12 0
          (slot yearDays (day + 1) 0 day).2).2 + 1
        mon := (slot (monthDays (slot yearDays (day + 1) 0 day).1) 12 0
          (slot yearDays (day + 1) 0 day).2).1
        year := (slot yearDays (day + 1) 0 day).1
        hour := secs / 3600
        min := secs % 3600 / 60
        sec := secs % 60 } := by
    simp only [gmtime, hday, hsecs, Int.toNat_natCast]
  rw [fields]
  generalize slot yearDays (day + 1) 0 day = year at inYear yearSum
  have months : before (monthDays year.1) 0 + year.2 < before (monthDays year.1) (0 + 12) := by
    rw [Nat.zero_add, before_monthDays]
    simpa [before] using inYear
  obtain ⟨-, inTwelve, inMonth, monthSum⟩ := slot_spec (monthDays year.1) 12 0 year.2 months
  generalize slot (monthDays year.1) 12 0 year.2 = month at inTwelve inMonth monthSum
  refine ⟨⟨?_, ⟨?_, ?_⟩, ?_, ?_, ?_, ?_⟩, ?_⟩
  · exact Nat.mod_lt _ (by decide)
  · exact Nat.le_add_left 1 _
  · exact inMonth
  · simpa using inTwelve
  · show secs / 3600 ≤ 23
    omega
  · show secs % 3600 / 60 ≤ 59
    omega
  · show secs % 60 ≤ 59
    omega
  · have epoch : before yearDays 1970 = epochDay := before_1970
    have yearStart : before yearDays 0 = 0 := rfl
    have monthStart : before (monthDays year.1) 0 = 0 := rfl
    rw [yearStart] at yearSum
    rw [monthStart] at monthSum
    have secsSum : secs / 3600 * 3600 + secs % 3600 / 60 * 60 + secs % 60 = secs := by omega
    simp only [seconds, epoch]
    push_cast
    omega

theorem day_in_year (p : Tm) (valid : Valid p) :
    before (monthDays p.year) p.mon + p.mday ≤ yearDays p.year := by
  have months := before_mono (monthDays p.year) (show p.mon + 1 ≤ 12 from valid.mon)
  rw [before_monthDays, before] at months
  have := valid.mday
  omega

theorem seconds_year (p : Tm) (valid : Valid p) :
    (0 ≤ seconds p ∧ seconds p < 253402300800) ↔ (1970 ≤ p.year ∧ p.year ≤ 9999) := by
  have inYear := day_in_year p valid
  have hour := valid.hour
  have min := valid.min
  have sec := valid.sec
  have mday := valid.mday.1
  have next : before yearDays (p.year + 1) = before yearDays p.year + yearDays p.year := rfl
  rw [seconds, before_1970]
  rcases Nat.lt_or_ge p.year 1970 with early | late
  · have bound := before_mono yearDays (show p.year + 1 ≤ 1970 from early)
    rw [before_1970, next] at bound
    constructor
    · intro inside
      omega
    · intro inside
      omega
  · have bound := before_mono yearDays late
    rw [before_1970] at bound
    rcases Nat.lt_or_ge 9999 p.year with far | near
    · have bound' := before_mono yearDays (show 10000 ≤ p.year from far)
      rw [before_10000] at bound'
      constructor
      · intro inside
        omega
      · intro inside
        omega
    · have bound' := before_mono yearDays (show p.year + 1 ≤ 10000 by omega)
      rw [before_10000, next] at bound'
      refine iff_of_true ⟨?_, ?_⟩ ⟨late, near⟩
      · omega
      · omega

/-- Within a day of the range the year has three digits at least, and not many. -/
theorem year_near (p : Tm) (valid : Valid p) (late : -86400 ≤ seconds p)
    (soon : seconds p < 253402300800 + 86400) : 100 ≤ p.year ∧ p.year < 2 ^ 32 := by
  have inYear := day_in_year p valid
  have hour := valid.hour
  have min := valid.min
  have sec := valid.sec
  have mday := valid.mday.1
  have next : before yearDays (p.year + 1) = before yearDays p.year + yearDays p.year := rfl
  have before_100 : before yearDays 100 = 36525 := by
    have closed := before_yearDays 100
    omega
  have before_20000 : before yearDays 20000 = 7304850 := by
    have closed := before_yearDays 20000
    omega
  rw [seconds, before_1970] at late soon
  constructor
  · by_contra early
    have bound := before_mono yearDays (show p.year + 1 ≤ 100 by omega)
    rw [before_100, next] at bound
    omega
  · by_contra far
    have bound := before_mono yearDays (show 20000 ≤ p.year by omega)
    rw [before_20000] at bound
    omega

/-! ## Round trips -/

theorem parsedt_date (u : Int) (zone : List UInt8) (z : Int) (late : -86400 ≤ u)
    (soon : u < 253402300800 + 86400) (reads : parsezone (SP :: zone) = z) :
    parsedt (stamp (gmtime u) ++ zone) = if 0 ≤ u ∧ u < 253402300800 then u - z else 0 := by
  have epoch : epochDay = 719528 := rfl
  obtain ⟨valid, total⟩ := gmtime_spec u (by omega)
  obtain ⟨old, small⟩ := year_near (gmtime u) valid (by omega) (by omega)
  have range := seconds_year (gmtime u) valid
  rw [total] at range
  rw [parsedt_stamp _ valid old small, reads, total]
  by_cases inside : 0 ≤ u ∧ u < 253402300800
  · have years := range.mp inside
    rw [if_pos inside, if_neg (by omega)]
  · have years := fun both => inside (range.mpr both)
    rw [if_neg inside, if_pos (by omega)]

theorem parsezone_minutes (z : Int) (low : -1439 ≤ z) (high : z ≤ 1439) :
    parsezone (SP :: signed (z.tmod 60 + z.tdiv 60 * 100)) = 60 * z := by
  rcases Int.lt_or_le z 0 with negative | positive
  · obtain ⟨n, rfl⟩ : ∃ n : Nat, z = -n := ⟨z.natAbs, by omega⟩
    have number : (-(n : Int)).tmod 60 + (-(n : Int)).tdiv 60 * 100 =
        -((n % 60 + n / 60 * 100 : Nat) : Int) := by
      rw [Int.neg_tmod, Int.neg_tdiv, Int.tmod_eq_emod_of_nonneg (by omega),
        Int.tdiv_eq_ediv_of_nonneg (by omega)]
      push_cast
      omega
    rw [number, parsezone_signed _ (by omega) (by omega), if_pos (by omega)]
    omega
  · obtain ⟨n, rfl⟩ : ∃ n : Nat, z = n := ⟨z.natAbs, by omega⟩
    have number : (n : Int).tmod 60 + (n : Int).tdiv 60 * 100 =
        ((n % 60 + n / 60 * 100 : Nat) : Int) := by
      rw [Int.tmod_eq_emod_of_nonneg (by omega), Int.tdiv_eq_ediv_of_nonneg (by omega)]
      push_cast
      rfl
    rw [number, parsezone_signed _ (by omega) (by omega), if_neg (by omega)]
    omega

/-- A time comes back from its date in GMT, and from its date in a zone if and only if the date
there is in one of the years 1970 to 9999. -/
theorem parsedt_mkdate (t z : Int) (positive : 0 < t) (fits : t < 253402300800)
    (west : -1439 ≤ z) (east : z ≤ 1439) :
    parsedt (mkdt t) = t ∧
      (parsedt (mkdateBuf (60 * z) t) = t ↔ 0 ≤ t + 60 * z ∧ t + 60 * z < 253402300800) := by
  have minutes : (60 * z).tmod 60 = 0 := Int.mul_tmod_right 60 z
  have quotient : (60 * z).tdiv 60 = z := Int.mul_tdiv_cancel_left z (by decide)
  have local' := parsedt_date (t + 60 * z) _ _ (by omega) (by omega) (parsezone_minutes z west east)
  constructor
  · rw [mkdt, parsedt_date t _ 0 (by omega) (by omega) names.2.2.2, if_pos ⟨by omega, fits⟩]
    omega
  · rw [mkdateBuf]
    simp only [minutes, quotient, ne_eq, not_true, if_false, local']
    by_cases inside : 0 ≤ t + 60 * z ∧ t + 60 * z < 253402300800
    · rw [if_pos inside]
      exact iff_of_true (by omega) inside
    · rw [if_neg inside]
      exact iff_of_false (by omega) inside

/-- An hour and a half after the leap day of 2000, half an hour east. -/
theorem parsedt_mkdate_sample :
    (0 : Int) < 951868800 ∧ parsedt (mkdt 951868800) = 951868800 ∧
      (parsedt (mkdateBuf (60 * 30) 951868800) = 951868800 ↔
        0 ≤ (951868800 : Int) + 60 * 30 ∧ (951868800 : Int) + 60 * 30 < 253402300800) :=
  ⟨by decide, parsedt_mkdate 951868800 30 (by decide) (by decide) (by decide) (by decide)⟩

/-- The first second of 1970 an hour west is in 1969, which the reader refuses. -/
theorem west_of_1970 :
    ¬ ∀ t z : Int, 0 < t → t < 253402300800 → -1439 ≤ z → z ≤ 1439 →
      parsedt (mkdt t) = t ∧ parsedt (mkdateBuf (60 * z) t) = t := by
  intro all
  have back := (all 1 (-60) (by decide) (by decide) (by decide) (by decide)).2
  have date := parsedt_date (1 + 60 * -60) _ _ (by decide) (by decide)
    (parsezone_minutes (-60) (by decide) (by decide))
  have same : mkdateBuf (60 * -60) 1 = stamp (gmtime (1 + 60 * -60)) ++
      signed ((-60 : Int).tmod 60 + (-60 : Int).tdiv 60 * 100) := rfl
  rw [same, date, if_neg (by decide)] at back
  exact absurd back (by decide)

end Cone.Rfc822ParsedtReads
