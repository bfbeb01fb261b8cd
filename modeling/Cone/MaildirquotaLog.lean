import Cone.Maildirquota
import Mathlib.Data.List.TakeWhile
import Mathlib.Algebra.BigOperators.Group.List.Basic

/-! # The records of a maildirsize file, written and summed up -/
set_option autoImplicit false
namespace Cone.MaildirquotaLog

open Cone.Ctype Cone.Lib.Decimal Cone.Maildirquota

/-! ## Numbers -/

theorem byte_digitChar (n : Nat) (hn : n < 10) :
    UInt8.ofInt ((byte '0').toNat + n) = byte n.digitChar := by
  have hall : ∀ n : Fin 10, UInt8.ofInt ((byte '0').toNat + n.val) = byte n.val.digitChar := by
    decide +kernel
  exact hall ⟨n, hn⟩

theorem digitsLoop_nat (fuel n : Nat) (hn : n < 10 ^ (fuel + 1)) (p : List UInt8) :
    digitsLoop (fuel + 1) n p = decimal n ++ p := by
  have hrem : ∀ n : Nat, (n : Int).tmod 10 = (n % 10 : Nat) := fun _ => rfl
  have hdiv : ∀ n : Nat, (n : Int).tdiv 10 = (n / 10 : Nat) := fun _ => rfl
  have hdigit : ∀ n, UInt8.ofInt ((byte '0').toNat + (n % 10 : Nat)) = byte (n % 10).digitChar :=
    fun n => byte_digitChar (n % 10) (Nat.mod_lt n (by decide))
  induction fuel generalizing n p with
  | zero =>
      have hlt : n < 10 := by simpa using hn
      have hzero : n / 10 = 0 := Nat.div_eq_of_lt hlt
      rw [digitsLoop, hrem, hdiv, hzero, hdigit, decimal, Nat.toDigits_of_lt_base hlt,
        Nat.mod_eq_of_lt hlt]
      rfl
  | succ fuel ih =>
      rw [digitsLoop, hrem, hdiv, hdigit]
      by_cases hlt : n < 10
      · have hzero : n / 10 = 0 := Nat.div_eq_of_lt hlt
        rw [hzero, decimal, Nat.toDigits_of_lt_base hlt, Nat.mod_eq_of_lt hlt]
        rfl
      · rw [if_neg (by omega), ih (n / 10) (by rw [Nat.pow_succ] at hn; omega)]
        rw [decimal, decimal, Nat.toDigits_of_base_le (by decide) (by omega : 10 ≤ n)]
        simp

/-- A number as it is printed. -/
def signed (i : Int) : List UInt8 :=
  if i < 0 then byte '-' :: decimal i.natAbs else decimal i.natAbs

theorem strInt64_eq {t : Int64} (ht : t ≠ Int64.minValue) : strInt64 t = signed t.toInt := by
  have hlt := t.toInt_lt
  have hle := t.le_toInt
  have hbig : (2 : Nat) ^ 63 < 10 ^ (58 + 1) := by decide
  have hneg : t < 0 ↔ t.toInt < 0 := Int64.lt_iff_toInt_lt
  have hfuel : numbufsize - 1 = 58 + 1 := rfl
  simp only [strInt64, signed, hfuel]
  by_cases h : t.toInt < 0
  · have habs : (-t).toInt = (t.toInt.natAbs : Int) := by
      have hne : t.toInt ≠ -2 ^ 63 := fun heq => ht (Int64.toInt_inj.mp heq)
      rw [Int64.toInt_neg, Int.bmod_eq_of_le (by omega) (by omega)]
      omega
    rw [if_pos h, if_pos (hneg.mpr h), if_pos (hneg.mpr h), habs,
      digitsLoop_nat 58 _ (by omega), List.append_nil]
  · have habs : t.toInt = (t.toInt.natAbs : Int) := by omega
    rw [if_neg h, if_neg (fun hlt => h (hneg.mp hlt)), if_neg (fun hlt => h (hneg.mp hlt)), habs,
      digitsLoop_nat 58 _ (by omega), List.append_nil, Int.natAbs_natCast]

theorem strSize_eq {n : Nat} (hn : n < 2 ^ 31) : strSize n = decimal n := by
  have hbig : (2 : Nat) ^ 31 < 10 ^ (58 + 1) := by decide
  have hfuel : numbufsize - 1 = 58 + 1 := rfl
  rw [strSize, hfuel, digitsLoop_nat 58 n (by omega), List.append_nil]

theorem digitsValue_eq (bits : Nat) (q : List UInt8) :
    digitsValue bits q = wrap bits (readDigits q) := by
  have hfold : ∀ (ds : List UInt8) (n : Nat),
      ds.foldl (fun n c => wrap bits (n * 10 + (c.toNat - (byte '0').toNat : Nat))) (wrap bits n) =
        wrap bits (ds.foldl (fun n c => 10 * n + (c.toNat - (byte '0').toNat)) n : Nat) := by
    intro ds
    induction ds with
    | nil => exact fun n => rfl
    | cons d ds ih =>
        intro n
        rw [List.foldl_cons, List.foldl_cons, ← ih]
        congr 1
        simp only [wrap]
        rw [Int.add_bmod, Int.bmod_mul_bmod, ← Int.add_bmod]
        push_cast
        rw [mul_comm]
  have hzero : wrap bits (0 : Nat) = 0 := Int.zero_bmod
  rw [digitsValue, readDigits, ← hfold, hzero]

theorem wrap_neg (bits : Nat) (n : Int) : wrap bits (-wrap bits n) = wrap bits (-n) := by
  have hmul := Int.mul_bmod_bmod (x := -1) (y := n) (n := 2 ^ bits)
  simpa only [wrap, neg_one_mul] using hmul

theorem readNumber_signed (bits spaces : Nat) (i : Int) (rest : List UInt8)
    (hrest : ∀ c ∈ rest.head?, isdigit c = false) :
    readNumber bits (List.replicate spaces SP ++ signed i ++ rest) = some (wrap bits i, rest) := by
  have hskip : ∀ {q : List UInt8}, (∀ c ∈ q.head?, isspace c = false) →
      (List.replicate spaces SP ++ q).dropWhile isspace = q := by
    intro q hq
    rw [List.dropWhile_append_of_pos (by intro c hc; rw [(List.mem_replicate.mp hc).2]; decide)]
    cases q with
    | nil => rfl
    | cons c q => exact List.dropWhile_cons_of_neg (by simp [hq c (by simp)])
  obtain ⟨d, ds, hds⟩ := List.exists_cons_of_ne_nil (decimal_ne_nil i.natAbs)
  have hdigit : isdigit d = true := isdigit_of_mem_decimal (n := i.natAbs) (by simp [hds])
  obtain ⟨hspace, hminus, -⟩ := isdigit_facts d hdigit
  have hvalue : digitsValue bits (d :: ds ++ rest) = wrap bits i.natAbs := by
    rw [digitsValue_eq, ← hds, readDigits_decimal _ hrest]
  have hdrop : (d :: ds ++ rest).dropWhile isdigit = rest := by
    rw [← hds, List.dropWhile_append_of_pos fun c => isdigit_of_mem_decimal]
    cases rest with
    | nil => rfl
    | cons c rest => exact List.dropWhile_cons_of_neg (by simp [hrest c (by simp)])
  rw [List.append_assoc, readNumber]
  by_cases hneg : i < 0
  · have hsigned : signed i ++ rest = byte '-' :: (d :: ds ++ rest) := by
      rw [signed, if_pos hneg, hds]
      rfl
    rw [hskip (by rw [hsigned]; intro c hc; cases hc; decide), hsigned]
    simp only [List.head?_cons, if_true, List.tail_cons, hvalue, hdrop, wrap_neg]
    rw [if_pos (by simpa using hdigit)]
    congr 3
    omega
  · have hsigned : signed i ++ rest = d :: ds ++ rest := by rw [signed, if_neg hneg, hds]
    rw [hskip (by rw [hsigned]; intro c hc; cases hc; exact hspace), hsigned]
    have hhead : (d :: ds ++ rest).head? ≠ some (byte '-') := by simpa using hminus
    simp only [if_neg hhead, hvalue, hdrop]
    rw [if_pos (by simpa using hdigit)]
    congr 3
    omega

/-! ## Records -/

def recordText (size : Int64) (cnt : Int32) : List UInt8 :=
  pad12 (strInt64 size) ++ [SP] ++ pad12 (strInt64 cnt.toInt64)

theorem doaddquota_eq (quota : Quota) (size : Int64) (cnt : Int32) (isnew : Bool) :
    doaddquota quota size cnt isnew =
      (if isnew then quotaLine quota else []) ++ (recordText size cnt ++ [NL]) := by
  simp [doaddquota, recordText]

theorem strInt64_cnt (cnt : Int32) : strInt64 cnt.toInt64 = signed cnt.toInt := by
  have hle := cnt.le_toInt
  have hne : cnt.toInt64 ≠ Int64.minValue := by
    intro heq
    have hmin := congrArg Int64.toInt heq
    rw [Int32.toInt_toInt64] at hmin
    have hval : Int64.minValue.toInt = -2 ^ 63 := by decide
    omega
  rw [strInt64_eq hne, Int32.toInt_toInt64]

theorem readRecord_text {size : Int64} (hsize : size ≠ Int64.minValue) (cnt : Int32) :
    readRecord (recordText size cnt) = some (size, cnt) := by
  have hwrap64 : wrap 64 size.toInt = size.toInt := Int64.toInt_bmod size
  have hwrap32 : wrap 32 cnt.toInt = cnt.toInt := Int32.toInt_bmod cnt
  have hfirst := readNumber_signed 64 (12 - (signed size.toInt).length) size.toInt
    (SP :: pad12 (signed cnt.toInt)) (by intro c hc; cases hc; decide)
  have hsecond := readNumber_signed 32 (12 - (signed cnt.toInt).length + 1) cnt.toInt
    [] (by simp)
  rw [List.append_nil, List.replicate_succ, List.cons_append] at hsecond
  rw [recordText, strInt64_eq hsize, strInt64_cnt, List.append_assoc, List.singleton_append,
    readRecord, pad12, hfirst]
  simp only [pad12, hsecond, hwrap64, hwrap32, Int64.ofInt_toInt, Int32.ofInt_toInt]

theorem minValue_facts :
    pad12 (strInt64 Int64.minValue) =
      byte '-' :: byte '\'' :: (pad12 (strInt64 Int64.minValue)).drop 2 ∧
    (strInt64 Int64.minValue).all (SP < ·) = true := by decide +kernel

theorem byte_facts : ∀ c, (isdigit c = true → SP < c) ∧ (SP ≤ c → c ≠ NUL ∧ c ≠ NL) :=
  forall_byte (by decide +kernel)

theorem readRecord_minValue (cnt : Int32) : readRecord (recordText Int64.minValue cnt) = none := by
  obtain ⟨text, htext⟩ : ∃ text, pad12 (strInt64 Int64.minValue) = byte '-' :: byte '\'' :: text :=
    ⟨_, minValue_facts.1⟩
  have hnumber : ∀ rest, readNumber 64 (byte '-' :: byte '\'' :: rest) = none := fun _ => rfl
  rw [readRecord, recordText, htext, List.append_assoc, List.cons_append, List.cons_append, hnumber]

theorem mem_signed {i : Int} {c : UInt8} (hc : c ∈ signed i) : isdigit c = true ∨ c = byte '-' := by
  rw [signed] at hc
  split at hc
  · rcases List.mem_cons.mp hc with rfl | hc
    · exact .inr rfl
    · exact .inl (isdigit_of_mem_decimal hc)
  · exact .inl (isdigit_of_mem_decimal hc)

theorem mem_strInt64 {t : Int64} {c : UInt8} (hc : c ∈ strInt64 t) : SP < c := by
  have hdigit := fun c => (byte_facts c).1
  by_cases ht : t = Int64.minValue
  · have hall := minValue_facts.2
    rw [ht] at hc
    simpa using List.all_eq_true.mp hall c hc
  · rw [strInt64_eq ht] at hc
    rcases mem_signed hc with hc | rfl
    · exact hdigit c hc
    · decide

theorem mem_recordText {size : Int64} {cnt : Int32} {c : UInt8} (hc : c ∈ recordText size cnt) :
    c ≠ NUL ∧ c ≠ NL := by
  have hgt := fun c => (byte_facts c).2
  have hpad : ∀ t : Int64, ∀ c ∈ pad12 (strInt64 t), SP ≤ c := by
    intro t c hc
    rcases List.mem_append.mp hc with hc | hc
    · rw [(List.mem_replicate.mp hc).2]
      exact UInt8.le_refl _
    · exact UInt8.le_of_lt (mem_strInt64 hc)
  refine hgt c ?_
  rw [recordText, List.append_assoc] at hc
  rcases List.mem_append.mp hc with hc | hc
  · exact hpad _ c hc
  · rcases List.mem_cons.mp hc with rfl | hc
    · exact UInt8.le_refl _
    · exact hpad _ c hc

theorem readRecords_lines (lines : List (List UInt8)) (hlines : ∀ l ∈ lines, NL ∉ l) (fuel : Nat)
    (hfuel : (lines.flatMap (· ++ [NL])).length ≤ fuel) (info : Maildirsize) :
    readRecords fuel (lines.flatMap (· ++ [NL])) info = lines.foldl addRecord info := by
  induction lines generalizing fuel info with
  | nil => cases fuel <;> rfl
  | cons line lines ih =>
      have hnl : NL ∉ line := hlines line List.mem_cons_self
      rw [List.flatMap_cons] at hfuel ⊢
      have hne : line ++ [NL] ++ lines.flatMap (· ++ [NL]) ≠ [] := by simp
      obtain ⟨c, p, hcp⟩ := List.exists_cons_of_ne_nil hne
      have htake : (c :: p).takeWhile (· ≠ NL) = line := by
        rw [← hcp, List.append_assoc, List.takeWhile_append_of_pos fun d hd => ?_]
        · simp
        · simpa using fun heq : d = NL => hnl (heq ▸ hd)
      have hdrop : (c :: p).drop (line.length + 1) = lines.flatMap (· ++ [NL]) := by
        rw [← hcp]
        exact List.drop_left' (by simp)
      rw [hcp] at hfuel ⊢
      cases fuel with
      | zero => simp at hfuel
      | succ fuel =>
          rw [readRecords, htake, hdrop, List.foldl_cons]
          refine ih (fun l hl => hlines l (List.mem_cons_of_mem _ hl)) _ ?_ _
          rw [← hdrop, List.length_drop]
          omega

/-! ## The quota -/

def setLimit (unit : UInt8) (i : Int64) (q : Quota) : Quota :=
  if unit = byte 'S' then { q with nbytes := i }
  else if unit = byte 'C' then { q with nmessages := i.toInt32 }
  else q

theorem parseLoop_number (fuel n : Nat) {unit : UInt8} (hunit : isdigit unit = false)
    (rest : List UInt8) (q : Quota) :
    parseLoop (fuel + 2) (decimal n ++ unit :: rest) q =
      parseLoop fuel rest (setLimit unit (Int64.ofInt (wrap 64 n)) q) := by
  have hvalue : digitsValue 64 (decimal n ++ unit :: rest) = wrap 64 n := by
    rw [digitsValue_eq, readDigits_decimal _ (by simpa using hunit)]
  have hdrop : (decimal n ++ unit :: rest).dropWhile isdigit = unit :: rest := by
    rw [List.dropWhile_append_of_pos fun c => isdigit_of_mem_decimal]
    exact List.dropWhile_cons_of_neg (by simp [hunit])
  obtain ⟨d, ds, hds⟩ := List.exists_cons_of_ne_nil (decimal_ne_nil n)
  have hdigit : isdigit d = true := isdigit_of_mem_decimal (n := n) (by simp [hds])
  have hstep : ∀ q, parseLoop (fuel + 1) (unit :: rest) q = parseLoop fuel rest q := by
    intro q
    rw [parseLoop, if_neg (by simp [hunit])]
  rw [hds, List.cons_append] at hvalue hdrop ⊢
  rw [parseLoop, if_pos hdigit, hvalue, hdrop, setLimit]
  simp only [List.head?_cons, Option.some.injEq]
  split
  · rw [hstep]
  · split
    · rw [hstep]
    · rw [hstep]

theorem setLimit_size (i : Int64) (q : Quota) : setLimit (byte 'S') i q = { q with nbytes := i } :=
  if_pos rfl

theorem setLimit_count (i : Int64) (q : Quota) :
    setLimit (byte 'C') i q = { q with nmessages := i.toInt32 } := by
  rw [setLimit, if_neg (by decide), if_pos rfl]

theorem parseLoop_nil (fuel : Nat) (q : Quota) : parseLoop fuel [] q = q := by
  cases fuel <;> rfl

def quotaText (quota : Quota) : List UInt8 := (quotaLine quota).dropLast

theorem quotaLine_eq (quota : Quota) : quotaLine quota = quotaText quota ++ [NL] := by
  simp [quotaText, quotaLine]

theorem quotaText_of_line {quota : Quota} {text : List UInt8} (h : quotaLine quota = text ++ [NL]) :
    quotaText quota = text := by
  rw [quotaText, h, List.dropLast_concat]

section Limits
variable {quota : Quota}

theorem nbytes_signed (h : quota.nbytes > 0) :
    strInt64 quota.nbytes = decimal quota.nbytes.toInt.natAbs ∧
      Int64.ofInt (wrap 64 quota.nbytes.toInt.natAbs) = quota.nbytes := by
  have hpos : 0 < quota.nbytes.toInt := Int64.lt_iff_toInt_lt.mp h
  have hne : quota.nbytes ≠ Int64.minValue := by
    intro heq
    rw [heq] at hpos
    exact absurd hpos (by decide)
  have habs : (quota.nbytes.toInt.natAbs : Int) = quota.nbytes.toInt := by omega
  have hwrap : wrap 64 quota.nbytes.toInt = quota.nbytes.toInt := Int64.toInt_bmod _
  rw [strInt64_eq hne, signed, if_neg (by omega), habs, hwrap, Int64.ofInt_toInt]
  exact ⟨rfl, rfl⟩

theorem nmessages_signed (h : quota.nmessages > 0) :
    strSize quota.nmessages.toInt = decimal quota.nmessages.toInt.natAbs ∧
      (Int64.ofInt (wrap 64 quota.nmessages.toInt.natAbs)).toInt32 = quota.nmessages := by
  have hpos : 0 < quota.nmessages.toInt := Int32.lt_iff_toInt_lt.mp h
  have hlt := quota.nmessages.toInt_lt
  have habs : (quota.nmessages.toInt.natAbs : Int) = quota.nmessages.toInt := by omega
  have hsize := strSize_eq (n := quota.nmessages.toInt.natAbs) (by omega)
  have hwrap : wrap 64 quota.nmessages.toInt = quota.nmessages.toInt :=
    Int.bmod_eq_of_le (by omega) (by omega)
  rw [habs] at hsize ⊢
  rw [hsize, hwrap]
  exact ⟨rfl, by simp⟩

end Limits

/-- Nothing to limit is printed as nothing, so that the quota is read back when it is not
negative. -/
theorem parsequotastr_quotaText {quota : Quota} (hbytes : 0 ≤ quota.nbytes)
    (hmessages : 0 ≤ quota.nmessages) : parsequotastr (quotaText quota) = quota := by
  have hzero64 : ¬ quota.nbytes > 0 → quota.nbytes = 0 := fun h =>
    Int64.le_antisymm (Int64.not_lt.mp h) hbytes
  have hzero32 : ¬ quota.nmessages > 0 → quota.nmessages = 0 := fun h =>
    Int32.le_antisymm (Int32.not_lt.mp h) hmessages
  have hpos : ∀ n, 0 < (decimal n).length := fun n => List.length_pos_of_ne_nil (decimal_ne_nil n)
  have hbyteS : isdigit (byte 'S') = false := by decide
  have hbyteC : isdigit (byte 'C') = false := by decide
  by_cases hb : quota.nbytes > 0
  · obtain ⟨hstrb, hvalb⟩ := nbytes_signed hb
    have hposb := hpos quota.nbytes.toInt.natAbs
    by_cases hm : quota.nmessages > 0
    · obtain ⟨hstrm, hvalm⟩ := nmessages_signed hm
      have hposm := hpos quota.nmessages.toInt.natAbs
      have htext : quotaText quota = decimal quota.nbytes.toInt.natAbs ++ byte 'S' ::
          byte ',' :: (decimal quota.nmessages.toInt.natAbs ++ byte 'C' :: []) :=
        quotaText_of_line (by simp [quotaLine, hb, hm, hstrb, hstrm])
      obtain ⟨k, hk⟩ : ∃ k, (quotaText quota).length = k + 2 + 1 + 2 :=
        ⟨(quotaText quota).length - 5, by rw [htext]; simp; omega⟩
      have hcomma : ∀ fuel rest q, parseLoop (fuel + 1) (byte ',' :: rest) q =
          parseLoop fuel rest q := fun _ _ _ => rfl
      rw [parsequotastr, hk, htext, parseLoop_number _ _ hbyteS, hcomma, parseLoop_number _ _ hbyteC,
        parseLoop_nil, hvalb, setLimit_size, setLimit_count]
      exact Quota.ext rfl hvalm
    · have htext : quotaText quota = decimal quota.nbytes.toInt.natAbs ++ byte 'S' :: [] :=
        quotaText_of_line (by simp [quotaLine, hb, hm, hstrb])
      obtain ⟨k, hk⟩ : ∃ k, (quotaText quota).length = k + 2 :=
        ⟨(quotaText quota).length - 2, by rw [htext]; simp; omega⟩
      rw [parsequotastr, hk, htext, parseLoop_number _ _ hbyteS, parseLoop_nil, hvalb,
        setLimit_size]
      exact Quota.ext rfl (hzero32 hm).symm
  · by_cases hm : quota.nmessages > 0
    · obtain ⟨hstrm, hvalm⟩ := nmessages_signed hm
      have hposm := hpos quota.nmessages.toInt.natAbs
      have htext : quotaText quota = decimal quota.nmessages.toInt.natAbs ++ byte 'C' :: [] :=
        quotaText_of_line (by simp [quotaLine, hb, hm, hstrm])
      obtain ⟨k, hk⟩ : ∃ k, (quotaText quota).length = k + 2 :=
        ⟨(quotaText quota).length - 2, by rw [htext]; simp; omega⟩
      rw [parsequotastr, hk, htext, parseLoop_number _ _ hbyteC, parseLoop_nil, setLimit_count]
      exact Quota.ext (hzero64 hb).symm hvalm
    · have htext : quotaText quota = [] := quotaText_of_line (by simp [quotaLine, hb, hm])
      rw [htext]
      exact Quota.ext (hzero64 hb).symm (hzero32 hm).symm

/-! ## The whole file -/

/-- What one call of `doaddquota` adds. -/
structure Delta where
  size : Int64
  cnt : Int32
  deriving DecidableEq, Repr

def logFile (quota : Quota) (first : Delta) (rest : List Delta) : List UInt8 :=
  doaddquota quota first.size first.cnt true ++
    rest.flatMap fun d => doaddquota quota d.size d.cnt false

def bytesOf (deltas : List Delta) : Int := (deltas.map fun d => d.size.toInt).sum

def messagesOf (deltas : List Delta) : Int := (deltas.map fun d => d.cnt.toInt).sum

structure Exact (quota : Quota) (deltas : List Delta) (info : Maildirsize) : Prop where
  quota : info.quota = quota
  bytes : info.size.nbytes.toInt = bytesOf deltas
  messages : info.size.nmessages.toInt = messagesOf deltas
  nlines : info.nlines = deltas.length
  recalculation : info.recalculationNeeded = true ↔ bytesOf deltas < 0 ∨ messagesOf deltas < 0

/-- The records that the reader skips. -/
def lost (deltas : List Delta) : List Delta := deltas.filter fun d => d.size = Int64.minValue

def kept (deltas : List Delta) : List Delta :=
  deltas.filter fun d => !decide (d.size = Int64.minValue)

def lines (deltas : List Delta) : List (List UInt8) := deltas.map fun d => recordText d.size d.cnt

theorem foldl_addRecord (deltas : List Delta) (info : Maildirsize) :
    ((lines deltas).foldl addRecord info).quota = info.quota ∧
    ((lines deltas).foldl addRecord info).nlines = info.nlines + deltas.length ∧
    ((lines deltas).foldl addRecord info).size.nbytes.toInt =
      (info.size.nbytes.toInt + bytesOf (kept deltas)).bmod (2 ^ 64) ∧
    ((lines deltas).foldl addRecord info).size.nmessages.toInt =
      (info.size.nmessages.toInt + messagesOf (kept deltas)).bmod (2 ^ 32) := by
  induction deltas generalizing info with
  | nil => simp [lines, kept, bytesOf, messagesOf]
  | cons d deltas ih =>
      obtain ⟨hquota, hnlines, hbytes, hmessages⟩ := ih (addRecord info (recordText d.size d.cnt))
      have hlines : lines (d :: deltas) = recordText d.size d.cnt :: lines deltas := rfl
      rw [hlines, List.foldl_cons, hquota, hnlines, hbytes, hmessages, List.length_cons]
      by_cases hmin : d.size = Int64.minValue
      · have hadd : addRecord info (recordText d.size d.cnt) = { info with nlines := info.nlines + 1 } := by
          simp only [addRecord, hmin, readRecord_minValue]
        have hkept : kept (d :: deltas) = kept deltas := List.filter_cons_of_neg (by simpa using hmin)
        rw [hadd, hkept]
        exact ⟨rfl, by simp only; omega, rfl, rfl⟩
      · have hadd : addRecord info (recordText d.size d.cnt) =
            { info with
              nlines := info.nlines + 1
              size := ⟨info.size.nbytes + d.size, info.size.nmessages + d.cnt⟩ } := by
          simp only [addRecord, readRecord_text hmin]
        have hkept : kept (d :: deltas) = d :: kept deltas :=
          List.filter_cons_of_pos (by simpa using hmin)
        rw [hadd, hkept]
        refine ⟨rfl, by simp only; omega, ?_, ?_⟩
        · rw [Int64.toInt_add, Int.bmod_add_bmod, bytesOf, bytesOf, List.map_cons, List.sum_cons,
            add_assoc]
        · rw [Int32.toInt_add, Int.bmod_add_bmod, messagesOf, messagesOf, List.map_cons,
            List.sum_cons, add_assoc]

theorem mem_quotaText {quota : Quota} {c : UInt8} (hc : c ∈ quotaText quota) :
    c ≠ NUL ∧ c ≠ NL := by
  have hgt : ∀ c, SP < c → c ≠ NUL ∧ c ≠ NL := fun c h => (byte_facts c).2 (UInt8.le_of_lt h)
  have hdigit := fun c => (byte_facts c).1
  refine hgt c ?_
  have htext : quotaText quota =
      (if quota.nbytes > 0 then strInt64 quota.nbytes ++ [byte 'S'] else []) ++
      (if quota.nbytes > 0 ∧ quota.nmessages > 0 then [byte ','] else []) ++
      (if quota.nmessages > 0 then strSize quota.nmessages.toInt ++ [byte 'C'] else []) := by
    refine quotaText_of_line ?_
    by_cases hb : quota.nbytes > 0 <;> by_cases hm : quota.nmessages > 0 <;>
      simp [quotaLine, hb, hm]
  rw [htext, List.append_assoc] at hc
  rcases List.mem_append.mp hc with hc | hc
  · split at hc
    · rcases List.mem_append.mp hc with hc | hc
      · exact mem_strInt64 hc
      · rw [List.mem_singleton.mp hc]
        decide
    · exact absurd hc List.not_mem_nil
  · rcases List.mem_append.mp hc with hc | hc
    · split at hc
      · rw [List.mem_singleton.mp hc]
        decide
      · exact absurd hc List.not_mem_nil
    · split at hc
      · next hm =>
          rcases List.mem_append.mp hc with hc | hc
          · rw [(nmessages_signed hm).1] at hc
            exact hdigit c (isdigit_of_mem_decimal hc)
          · rw [List.mem_singleton.mp hc]
            decide
      · exact absurd hc List.not_mem_nil

theorem logFile_eq (quota : Quota) (first : Delta) (rest : List Delta) :
    logFile quota first rest =
      quotaText quota ++ NL :: (lines (first :: rest)).flatMap (· ++ [NL]) := by
  have hrest : (rest.flatMap fun d => doaddquota quota d.size d.cnt false) =
      (lines rest).flatMap (· ++ [NL]) := by
    rw [lines, List.flatMap_map]
    exact List.flatMap_congr fun d _ => doaddquota_eq quota d.size d.cnt false
  rw [logFile, hrest, doaddquota_eq, if_pos rfl, quotaLine_eq]
  simp [lines]

theorem openquotafile_logFile {quota : Quota} (hbytes : 0 ≤ quota.nbytes)
    (hmessages : 0 ≤ quota.nmessages) (first : Delta) (rest : List Delta)
    (hfile : (logFile quota first rest).length < bufSize) {info : Maildirsize}
    (hinfo : openquotafile (logFile quota first rest) = info) :
    info.quota = quota ∧ info.nlines = (first :: rest).length ∧
    info.size.nbytes.toInt = (bytesOf (kept (first :: rest))).bmod (2 ^ 64) ∧
    info.size.nmessages.toInt = (messagesOf (kept (first :: rest))).bmod (2 ^ 32) ∧
    (info.recalculationNeeded = true ↔
      info.size.nbytes.toInt < 0 ∨ info.size.nmessages.toInt < 0) := by
  have hlines : ∀ l ∈ lines (first :: rest), ∀ c ∈ l, c ≠ NUL ∧ c ≠ NL := by
    intro l hl c hc
    obtain ⟨d, -, rfl⟩ := List.mem_map.mp hl
    exact mem_recordText hc
  have hnul : ∀ c ∈ logFile quota first rest, decide (c ≠ NUL) = true := by
    intro c hc
    rw [logFile_eq] at hc
    rcases List.mem_append.mp hc with hc | hc
    · exact decide_eq_true (mem_quotaText hc).1
    · rcases List.mem_cons.mp hc with rfl | hc
      · decide
      · obtain ⟨l, hl, hc⟩ := List.mem_flatMap.mp hc
        rcases List.mem_append.mp hc with hc | hc
        · exact decide_eq_true (hlines l hl c hc).1
        · rw [List.mem_singleton.mp hc]
          decide
  have hbuf : (logFile quota first rest).takeWhile (· ≠ NUL) = logFile quota first rest :=
    List.takeWhile_eq_self_iff.mpr hnul
  have hne : logFile quota first rest ≠ [] := by simp [logFile_eq]
  have hline : (logFile quota first rest).takeWhile (· ≠ NL) = quotaText quota := by
    rw [logFile_eq, List.takeWhile_append_of_pos fun c hc => decide_eq_true (mem_quotaText hc).2]
    simp
  have hdrop : (logFile quota first rest).drop ((quotaText quota).length + 1) =
      (lines (first :: rest)).flatMap (· ++ [NL]) := by
    rw [logFile_eq, ← List.singleton_append, ← List.append_assoc]
    exact List.drop_left' (by simp)
  have hread := readRecords_lines (lines (first :: rest))
    (fun l hl hmem => (hlines l hl NL hmem).2 rfl)
    (logFile quota first rest).length (by rw [logFile_eq]; simp; omega)
    { Maildirsize.zero with quota := quota }
  obtain ⟨hquota, hnlines, hsum, hcount⟩ := foldl_addRecord (first :: rest)
    { Maildirsize.zero with quota := quota }
  rw [openquotafile, if_neg (by omega)] at hinfo
  simp only [hbuf, if_neg hne, hline, hdrop, parsequotastr_quotaText hbytes hmessages, hread] at hinfo
  rw [← hinfo]
  refine ⟨hquota, by rw [hnlines]; simp [Maildirsize.zero], ?_, ?_, ?_⟩
  · rw [hsum]; simp [Maildirsize.zero]
  · rw [hcount]; simp [Maildirsize.zero]
  · simp only [Bool.or_eq_true, decide_eq_true_eq, Int64.lt_iff_toInt_lt, Int32.lt_iff_toInt_lt]
    rfl

/-! ## When the sums come out -/

theorem bytesOf_kept (deltas : List Delta) :
    bytesOf (kept deltas) = bytesOf deltas + 2 ^ 63 * (lost deltas).length ∧
      messagesOf (kept deltas) = messagesOf deltas - messagesOf (lost deltas) := by
  have hmin : Int64.minValue.toInt = -2 ^ 63 := by decide
  induction deltas with
  | nil => exact ⟨rfl, rfl⟩
  | cons d deltas ih =>
      obtain ⟨hbytes, hmessages⟩ := ih
      by_cases h : d.size = Int64.minValue
      · have hkept : kept (d :: deltas) = kept deltas := List.filter_cons_of_neg (by simpa using h)
        have hlost : lost (d :: deltas) = d :: lost deltas :=
          List.filter_cons_of_pos (by simpa using h)
        rw [hkept, hlost, hbytes, hmessages]
        simp only [bytesOf, messagesOf, List.map_cons, List.sum_cons, List.length_cons, h, hmin]
        exact ⟨by push_cast; omega, by omega⟩
      · have hkept : kept (d :: deltas) = d :: kept deltas :=
          List.filter_cons_of_pos (by simpa using h)
        have hlost : lost (d :: deltas) = lost deltas := List.filter_cons_of_neg (by simpa using h)
        rw [hkept, hlost]
        simp only [bytesOf, messagesOf, List.map_cons, List.sum_cons] at hbytes hmessages ⊢
        rw [hbytes, hmessages]
        exact ⟨by omega, by omega⟩

theorem bmod_bytes {total : Int} (h : -2 ^ 63 ≤ total ∧ total < 2 ^ 63) (k : Nat) :
    (total + 2 ^ 63 * k).bmod (2 ^ 64) = total ↔ 2 ∣ k := by
  rw [Int.bmod_eq_iff (by decide)]
  constructor
  · rintro ⟨-, -, hdvd⟩
    omega
  · intro hdvd
    exact ⟨by omega, by omega, by omega⟩

theorem bmod_messages {total : Int} (h : -2 ^ 31 ≤ total ∧ total < 2 ^ 31) (n : Int) :
    (total - n).bmod (2 ^ 32) = total ↔ (2 ^ 32 : Int) ∣ n := by
  rw [Int.bmod_eq_iff (by decide)]
  constructor
  · rintro ⟨-, -, hdvd⟩
    omega
  · intro hdvd
    exact ⟨by omega, by omega, by omega⟩

section Perm
variable {deltas deltas' : List Delta}

theorem sums_perm (h : deltas.Perm deltas') :
    bytesOf deltas = bytesOf deltas' ∧ messagesOf deltas = messagesOf deltas' :=
  ⟨(h.map _).sum_eq, (h.map _).sum_eq⟩

theorem logFile_length (quota : Quota) (first : Delta) (h : deltas.Perm deltas') :
    (logFile quota first deltas).length = (logFile quota first deltas').length := by
  rw [logFile, logFile, List.length_append, List.length_append]
  exact congrArg _ (h.flatMap_right _).length_eq

end Perm

/-- Whatever order the records are appended in, the quota and the sums are read back; unless a
record has the least `int64_t`, whose line is not one that can be read. -/
theorem openquotafile_exact {quota : Quota} (hbytes : 0 ≤ quota.nbytes)
    (hmessages : 0 ≤ quota.nmessages) (first : Delta) (rest : List Delta)
    (hfile : (logFile quota first rest).length < bufSize)
    (hsize : -2 ^ 63 ≤ bytesOf (first :: rest) ∧ bytesOf (first :: rest) < 2 ^ 63)
    (hcnt : -2 ^ 31 ≤ messagesOf (first :: rest) ∧ messagesOf (first :: rest) < 2 ^ 31) :
    (∀ rest', rest.Perm rest' →
      Exact quota (first :: rest) (openquotafile (logFile quota first rest'))) ↔
    2 ∣ (lost (first :: rest)).length ∧ (2 ^ 32 : Int) ∣ messagesOf (lost (first :: rest)) := by
  obtain ⟨hkeptBytes, hkeptMessages⟩ := bytesOf_kept (first :: rest)
  rw [← bmod_bytes hsize, ← bmod_messages hcnt, ← hkeptBytes, ← hkeptMessages]
  have hread : ∀ rest', rest.Perm rest' → ∀ info, openquotafile (logFile quota first rest') = info →
      info.quota = quota ∧ info.nlines = (first :: rest).length ∧
      info.size.nbytes.toInt = (bytesOf (kept (first :: rest))).bmod (2 ^ 64) ∧
      info.size.nmessages.toInt = (messagesOf (kept (first :: rest))).bmod (2 ^ 32) ∧
      (info.recalculationNeeded = true ↔
        info.size.nbytes.toInt < 0 ∨ info.size.nmessages.toInt < 0) := by
    intro rest' hperm info hinfo
    have hall : (kept (first :: rest)).Perm (kept (first :: rest')) := (hperm.cons first).filter _
    rw [(sums_perm hall).1, (sums_perm hall).2, (hperm.cons first).length_eq]
    exact openquotafile_logFile hbytes hmessages first rest'
      (by rwa [← logFile_length quota first hperm]) hinfo
  constructor
  · intro hexact
    obtain ⟨-, hb, hm, -, -⟩ := hexact rest (List.Perm.refl rest)
    obtain ⟨-, -, hb', hm', -⟩ := hread rest (List.Perm.refl rest) _ rfl
    exact ⟨hb'.symm.trans hb, hm'.symm.trans hm⟩
  · rintro ⟨hb, hm⟩ rest' hperm
    obtain ⟨hquota, hnlines, hb', hm', hrecalc⟩ := hread rest' hperm _ rfl
    rw [hb] at hb'
    rw [hm] at hm'
    rw [hb', hm'] at hrecalc
    exact ⟨hquota, hb', hm', hnlines, hrecalc⟩

/-- Two processes that append after a first record. -/
theorem openquotafile_exact_sample :
    Exact ⟨1000, 5⟩ [⟨300, 2⟩, ⟨-100, -1⟩, ⟨50, 1⟩]
      (openquotafile (logFile ⟨1000, 5⟩ ⟨300, 2⟩ [⟨50, 1⟩, ⟨-100, -1⟩])) := by
  refine (openquotafile_exact (by decide) (by decide) ⟨300, 2⟩ [⟨-100, -1⟩, ⟨50, 1⟩]
    (by decide +kernel) (by decide) (by decide)).mpr ?_ _ (List.Perm.swap _ _ _)
  decide

/-- The least `int64_t`, alone in the file, is lost. -/
theorem openquotafile_minValue :
    ¬ Exact ⟨1000, 5⟩ [⟨Int64.minValue, 0⟩]
      (openquotafile (logFile ⟨1000, 5⟩ ⟨Int64.minValue, 0⟩ [])) := by
  intro h
  have hbytes := h.bytes
  revert hbytes
  decide +kernel

end Cone.MaildirquotaLog
