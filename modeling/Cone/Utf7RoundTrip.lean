import Cone.Utf7
import Mathlib.Tactic.Ring

/-! # Folder names, written in modified UTF-7 and read back -/
set_option autoImplicit false
namespace Cone.Utf7RoundTrip

open Cone.Ctype Cone.Utf7

/-! ## Base64 characters -/

theorem mbase64Char_facts (n : Nat) (hn : n < 64) :
    mbase64Lookup (mbase64Char n) = some n ∧ mbase64Char n ≠ byte '-' ∧ mbase64Char n ≠ byte '&' ∧
      0x20 ≤ mbase64Char n ∧ mbase64Char n ≤ 0x7F := by
  have hall : ∀ n : Fin 64, mbase64Lookup (mbase64Char n) = some n.val ∧
      mbase64Char n ≠ byte '-' ∧ mbase64Char n ≠ byte '&' ∧
      0x20 ≤ mbase64Char n ∧ mbase64Char n ≤ 0x7F := by decide +kernel
  exact hall ⟨n, hn⟩

/-! ## The decoder inside a shift -/

/-- What the next module has, or will be given when the buffer is full. -/
def received (p : FromUtf7) : List UInt16 := p.out ++ p.convbuf

theorem fromAdd_fields (p : FromUtf7) (c : UInt16) :
    received (fromAdd p c) = received p ++ [c] ∧ (fromAdd p c).modbits = p.modbits ∧
      (fromAdd p c).modcnt = p.modcnt ∧ (fromAdd p c).seenamp = p.seenamp ∧
      (fromAdd p c).inmod = p.inmod ∧ (p.errflag = 0 → (fromAdd p c).errflag = 0) := by
  rw [fromAdd]
  split <;> simp [fromFlush, received]

structure Shifted (p : FromUtf7) (cnt bits : Nat) (xs : List UInt16) : Prop where
  errflag : p.errflag = 0
  seenamp : p.seenamp = false
  inmod : p.inmod = true
  modcnt : p.modcnt = cnt
  modbits : p.modbits % 2 ^ cnt = bits
  received : received p = xs

/-- Outside of a shift. -/
structure Unshifted (p : FromUtf7) (xs : List UInt16) : Prop where
  errflag : p.errflag = 0
  seenamp : p.seenamp = false
  inmod : p.inmod = false
  received : received p = xs

theorem convertChar_sextet {p : FromUtf7} (herr : p.errflag = 0) (hamp : p.seenamp = false)
    (hmod : p.inmod = true) {n : Nat} (hn : n < 64) :
    convertChar p (mbase64Char n) = fromSextet p n := by
  obtain ⟨hlookup, hminus, hand, -, -⟩ := mbase64Char_facts n hn
  rw [convertChar, if_neg (by simp [herr]), if_neg (by simp [hand]), if_neg (by simp [hamp]), fromText,
    if_neg (by simp [hmod]), if_neg hminus, hlookup]

theorem sextet_mod (m n cnt : Nat) (hn : n < 64) (hcnt : cnt ≤ 26) :
    (m * 2 ^ 6 + n) % 2 ^ 32 % 2 ^ (cnt + 6) = m % 2 ^ cnt * 64 + n := by
  have hdvd : 2 ^ (cnt + 6) ∣ 2 ^ 32 := Nat.pow_dvd_pow 2 (by omega)
  have hsplit : m * 2 ^ 6 + n = 2 ^ (cnt + 6) * (m / 2 ^ cnt) + (m % 2 ^ cnt * 64 + n) := by
    have hdiv := Nat.div_add_mod m (2 ^ cnt)
    rw [pow_add]
    generalize 2 ^ cnt = a at hdiv
    generalize m % a = r at hdiv
    generalize m / a = q at hdiv ⊢
    rw [← hdiv]
    ring
  have hlt : m % 2 ^ cnt * 64 + n < 2 ^ (cnt + 6) := by
    have hmod := Nat.mod_lt m (Nat.two_pow_pos cnt)
    rw [pow_add]
    omega
  rw [Nat.mod_mod_of_dvd _ hdvd, hsplit, Nat.mul_add_mod, Nat.mod_eq_of_lt hlt]

theorem Shifted.some_bits {p : FromUtf7} {cnt bits : Nat} {xs : List UInt16}
    (h : Shifted p cnt bits xs) (hcnt : cnt < 10) {n : Nat} (hn : n < 64) :
    Shifted (convertChar p (mbase64Char n)) (cnt + 6) (bits * 64 + n) xs := by
  rw [convertChar_sextet h.errflag h.seenamp h.inmod hn, fromSextet]
  dsimp only
  rw [if_neg (by rw [h.modcnt]; omega)]
  refine ⟨h.errflag, h.seenamp, h.inmod, by rw [h.modcnt], ?_, h.received⟩
  rw [sextet_mod _ _ _ hn (by omega), h.modbits]

/-- The sextet that completes a unit. -/
theorem Shifted.last_bits {p : FromUtf7} (cnt : Nat) {bits : Nat} {xs : List UInt16}
    (h : Shifted p (cnt + 10) bits xs) (hcnt : cnt < 6) {n : Nat} (hn : n < 64) {u : UInt16}
    (hu : (bits * 64 + n) / 2 ^ cnt = u.toNat) :
    Shifted (convertChar p (mbase64Char n)) cnt ((bits * 64 + n) % 2 ^ cnt) (xs ++ [u]) := by
  have htotal := sextet_mod p.modbits n (cnt + 10) hn (by omega)
  rw [h.modbits] at htotal
  rw [convertChar_sextet h.errflag h.seenamp h.inmod hn, fromSextet]
  dsimp only
  rw [if_pos (by rw [h.modcnt]; omega), h.modcnt]
  generalize (p.modbits * 2 ^ 6 + n) % 2 ^ 32 = total at htotal
  have hshift : cnt + 10 + 6 - 16 = cnt := by omega
  have hpow : 2 ^ (cnt + 10 + 6) = 2 ^ cnt * 2 ^ 16 := by rw [← pow_add]
  have hunit : UInt16.ofNat (total / 2 ^ cnt) = u := by
    apply UInt16.toNat_inj.mp
    rw [UInt16.toNat_ofNat', ← hu, ← htotal, hpow, Nat.mod_mul_right_div_self]
  have hrest : total % 2 ^ cnt = (bits * 64 + n) % 2 ^ cnt := by
    rw [← htotal, hpow, Nat.mod_mul_right_mod]
  rw [hshift, hunit]
  obtain ⟨hrec, hbits, hmodcnt, hamp, hmod, herr⟩ := fromAdd_fields
    { p with modbits := total, modcnt := cnt } u
  refine ⟨herr h.errflag, hamp.trans h.seenamp, hmod.trans h.inmod, hmodcnt, ?_, ?_⟩
  · rw [hbits]
    exact hrest
  · rw [hrec, ← h.received]
    rfl

theorem Shifted.finish {p : FromUtf7} {cnt bits : Nat} {xs : List UInt16} (h : Shifted p cnt bits xs) :
    Unshifted (convertChar p (byte '-')) xs := by
  rw [convertChar, if_neg (by simp [h.errflag]), if_neg (by simp [byte]), if_neg (by simp [h.seenamp]),
    fromText, if_neg (by simp [h.inmod]), if_pos rfl]
  exact ⟨h.errflag, h.seenamp, rfl, h.received⟩

/-! ## The decoder outside of a shift -/

section Unshifted
variable {p : FromUtf7} {xs : List UInt16}

theorem charUnit_plain : ∀ c : UInt8, c ≤ 0x7F → charUnit c = c.toUInt16 :=
  forall_byte (by decide +kernel)

theorem Unshifted.plain (h : Unshifted p xs) {c : UInt8} (hamp : c ≠ byte '&') (hc : c ≤ 0x7F) :
    Unshifted (convertChar p c) (xs ++ [c.toUInt16]) := by
  rw [convertChar, if_neg (by simp [h.errflag]), if_neg (by simp [hamp]), if_neg (by simp [h.seenamp]),
    fromText, if_pos h.inmod, charUnit_plain c hc]
  obtain ⟨hrec, -, -, hseen, hmod, herr⟩ := fromAdd_fields p c.toUInt16
  exact ⟨herr h.errflag, hseen.trans h.seenamp, hmod.trans h.inmod, by rw [hrec, h.received]⟩

theorem Unshifted.amp (h : Unshifted p xs) :
    convertChar p (byte '&') = { p with seenamp := true, inmod := false, modcnt := 0 } := by
  rw [convertChar, if_neg (by simp [h.errflag]), if_pos ⟨h.seenamp, rfl⟩]

theorem Unshifted.literalAmp (h : Unshifted p xs) :
    Unshifted (convertChar (convertChar p (byte '&')) (byte '-')) (xs ++ [0x26]) := by
  rw [h.amp, convertChar, if_neg (by simp [h.errflag]), if_neg (by simp), if_pos rfl, if_pos rfl]
  obtain ⟨hrec, -, -, -, hmod, herr⟩ := fromAdd_fields
    { p with seenamp := true, inmod := false, modcnt := 0 } (charUnit (byte '&'))
  refine ⟨herr h.errflag, rfl, hmod, ?_⟩
  have hunit : charUnit (byte '&') = 0x26 := by decide
  rw [hunit] at hrec ⊢
  rw [← h.received]
  exact hrec

theorem Unshifted.start (h : Unshifted p xs) :
    ∃ q, Shifted q 0 0 xs ∧ ∀ n < 64,
      convertChar (convertChar p (byte '&')) (mbase64Char n) = convertChar q (mbase64Char n) := by
  refine ⟨{ p with seenamp := false, inmod := true, modcnt := 0 },
    ⟨h.errflag, rfl, rfl, rfl, Nat.mod_one _, h.received⟩, fun n hn => ?_⟩
  obtain ⟨-, hminus, hand, -, -⟩ := mbase64Char_facts n hn
  rw [h.amp, convertChar, if_neg (by simp [h.errflag]), if_neg (by simp), if_pos rfl, if_neg hminus,
    convertChar, if_neg (by simp [h.errflag]), if_neg (by simp [hand]), if_neg (by simp)]

end Unshifted

/-! ## The encoder -/

/-- What the output function has, or will be given when the buffer is full. -/
def produced (p : ToUtf7) : List UInt8 := p.out ++ p.utf7encodebuf

/-- `q` is `p` after so many more characters, with so many bits left over. -/
structure Emits (p : ToUtf7) (cs : List UInt8) (mode : Bool) (count : Nat) (q : ToUtf7) : Prop where
  produced : produced q = produced p ++ cs
  utfmode : q.utfmode = mode
  utf7bitcount : q.utf7bitcount = count
  utf7bits : q.utf7bits = p.utf7bits
  smapmunge : q.smapmunge = p.smapmunge

theorem encodeAdd_emits (p : ToUtf7) (c : UInt8) :
    Emits p [c] p.utfmode p.utf7bitcount (encodeAdd p c) := by
  rw [encodeAdd]
  split
  · exact ⟨by simp [produced, encodeFlush], rfl, rfl, rfl, rfl⟩
  · exact ⟨by simp [produced], rfl, rfl, rfl, rfl⟩

theorem Emits.trans {p q r : ToUtf7} {cs ds : List UInt8} {m n : Bool} {j k : Nat}
    (h : Emits p cs m j q) (h' : Emits q ds n k r) : Emits p (cs ++ ds) n k r :=
  ⟨by rw [h'.produced, h.produced, List.append_assoc], h'.utfmode, h'.utf7bitcount,
    h'.utf7bits.trans h.utf7bits, h'.smapmunge.trans h.smapmunge⟩

theorem emitLoop_more {p : ToUtf7} {k : Nat} (h : p.utf7bitcount = k + 6) (fuel : Nat) :
    ∃ q, Emits p [mbase64Char (p.utf7bits / 2 ^ k % 64)] p.utfmode k q ∧
      emitLoop (fuel + 1) p = emitLoop fuel q := by
  have hk : p.utf7bitcount - 6 = k := by omega
  rw [emitLoop, if_pos (by omega)]
  dsimp only
  rw [hk]
  have hemits := encodeAdd_emits { p with utf7bitcount := k } (mbase64Char (p.utf7bits / 2 ^ k % 64))
  exact ⟨_, ⟨hemits.produced, hemits.utfmode, hemits.utf7bitcount, hemits.utf7bits,
    hemits.smapmunge⟩, rfl⟩

theorem emitLoop_done {p : ToUtf7} (h : p.utf7bitcount < 6) (fuel : Nat) : emitLoop fuel p = p := by
  cases fuel with
  | zero => rfl
  | succ fuel => rw [emitLoop, if_neg (by omega)]

theorem emitLoop_sixteen {p : ToUtf7} (h : p.utf7bitcount = 16) :
    Emits p [mbase64Char (p.utf7bits / 2 ^ 10 % 64), mbase64Char (p.utf7bits / 2 ^ 4 % 64)] p.utfmode
      4 (emitLoop 16 p) := by
  obtain ⟨q, hq, hloop⟩ := emitLoop_more (k := 10) h 15
  obtain ⟨r, hr, hloop'⟩ := emitLoop_more (k := 4) hq.utf7bitcount 14
  rw [hloop, hloop', emitLoop_done (by rw [hr.utf7bitcount]; decide)]
  rw [hq.utfmode, hq.utf7bits] at hr
  exact hq.trans hr

theorem emitLoop_three {p : ToUtf7} {k : Nat} (hk : k < 6) (h : p.utf7bitcount = k + 18) :
    Emits p [mbase64Char (p.utf7bits / 2 ^ (k + 12) % 64), mbase64Char (p.utf7bits / 2 ^ (k + 6) % 64),
      mbase64Char (p.utf7bits / 2 ^ k % 64)] p.utfmode k (emitLoop p.utf7bitcount p) := by
  rw [h]
  obtain ⟨q, hq, hloop⟩ := emitLoop_more (k := k + 12) h (k + 17)
  obtain ⟨r, hr, hloop'⟩ := emitLoop_more (k := k + 6) hq.utf7bitcount (k + 16)
  obtain ⟨t, ht, hloop''⟩ := emitLoop_more (k := k) hr.utf7bitcount (k + 15)
  rw [hloop, hloop', hloop'', emitLoop_done (by rw [ht.utf7bitcount]; exact hk)]
  rw [hr.utfmode, hr.utf7bits, hq.utfmode, hq.utf7bits] at ht
  rw [hq.utfmode, hq.utf7bits] at hr
  exact hq.trans (hr.trans ht)

theorem utf7off_emits {p : ToUtf7} (h : p.utfmode = true) :
    Emits p ((if 0 < p.utf7bitcount then
        [mbase64Char (p.utf7bits * 2 ^ (6 - p.utf7bitcount) % 64)] else []) ++ [byte '-'])
      false p.utf7bitcount (utf7off p) := by
  have hstart : Emits p [] false p.utf7bitcount { p with utfmode := false } :=
    ⟨by simp [produced], rfl, rfl, rfl, rfl⟩
  have hmode : ¬p.utfmode = false := by simp [h]
  rw [utf7off, if_neg hmode]
  by_cases hcount : 0 < p.utf7bitcount
  · simp only [if_pos hcount]
    have hchar := encodeAdd_emits { p with utfmode := false }
      (mbase64Char (p.utf7bits * 2 ^ (6 - p.utf7bitcount) % 64))
    have hend := encodeAdd_emits (encodeAdd { p with utfmode := false }
      (mbase64Char (p.utf7bits * 2 ^ (6 - p.utf7bitcount) % 64))) (byte '-')
    rw [hchar.utfmode, hchar.utf7bitcount] at hend
    exact hstart.trans (hchar.trans hend)
  · simp only [if_neg hcount]
    exact hstart.trans (encodeAdd_emits _ _)

/-! ## The decoder follows the encoder -/

def decodedOf (text : List UInt8) : FromUtf7 := convertFromutf7 FromUtf7.init text

theorem decodedOf_append (a b : List UInt8) :
    decodedOf (a ++ b) = b.foldl convertChar (decodedOf a) := List.foldl_append

inductive Sync (enc : ToUtf7) : List UInt16 → Prop where
  | plain {xs : List UInt16} (hmode : enc.utfmode = false)
      (h : Unshifted (decodedOf (produced enc)) xs) : Sync enc xs
  | aligned {xs : List UInt16} (hmode : enc.utfmode = true) (hcount : enc.utf7bitcount = 0)
      (h : Shifted (decodedOf (produced enc)) 0 0 xs) : Sync enc xs
  | four {xs : List UInt16} (u : UInt16) (hmode : enc.utfmode = true)
      (hcount : enc.utf7bitcount = 4) (hbits : enc.utf7bits % 16 = u.toNat % 16)
      (h : Shifted (decodedOf (produced enc)) 12 (u.toNat / 16) xs) : Sync enc (xs ++ [u])
  | two {xs : List UInt16} (u : UInt16) (hmode : enc.utfmode = true)
      (hcount : enc.utf7bitcount = 2) (hbits : enc.utf7bits % 4 = u.toNat % 4)
      (h : Shifted (decodedOf (produced enc)) 14 (u.toNat / 4) xs) : Sync enc (xs ++ [u])

theorem Sync.off {enc : ToUtf7} {xs : List UInt16} (h : Sync enc xs) :
    (utf7off enc).utfmode = false ∧ (utf7off enc).smapmunge = enc.smapmunge ∧
      Unshifted (decodedOf (produced (utf7off enc))) xs := by
  cases h with
  | plain hmode h =>
      have hoff : utf7off enc = enc := if_pos hmode
      rw [hoff]
      exact ⟨hmode, rfl, h⟩
  | aligned hmode hcount h =>
      have hoff := utf7off_emits hmode
      rw [hcount, if_neg (by decide)] at hoff
      refine ⟨hoff.utfmode, hoff.smapmunge, ?_⟩
      rw [hoff.produced, decodedOf_append]
      exact h.finish
  | four u hmode hcount hbits h =>
      have hoff := utf7off_emits hmode
      rw [hcount, if_pos (by decide)] at hoff
      refine ⟨hoff.utfmode, hoff.smapmunge, ?_⟩
      rw [hoff.produced, decodedOf_append]
      exact (h.last_bits 2 (by decide) (by omega) (by omega)).finish
  | two u hmode hcount hbits h =>
      have hoff := utf7off_emits hmode
      rw [hcount, if_pos (by decide)] at hoff
      refine ⟨hoff.utfmode, hoff.smapmunge, ?_⟩
      rw [hoff.produced, decodedOf_append]
      exact (h.last_bits 4 (by decide) (by omega) (by omega)).finish

theorem produced_bits (p : ToUtf7) (bits n : Nat) :
    produced { p with utf7bits := bits, utf7bitcount := n } = produced p := by
  cases p
  rfl

theorem convertBits_sixteen {p : ToUtf7} (hcount : p.utf7bitcount = 0) (u : UInt16) {bits : Nat}
    (hbits : (p.utf7bits * 2 ^ 16 + u.toNat) % 2 ^ 32 = bits) :
    (convertBits p u).utf7bits = bits ∧
    produced (convertBits p u) =
      produced p ++ [mbase64Char (bits / 2 ^ 10 % 64), mbase64Char (bits / 2 ^ 4 % 64)] ∧
    (convertBits p u).utf7bitcount = 4 ∧ (convertBits p u).utfmode = p.utfmode ∧
    (convertBits p u).smapmunge = p.smapmunge := by
  have hemits := emitLoop_sixteen (p := { p with utf7bits := bits, utf7bitcount := 16 }) rfl
  have hconvert : convertBits p u =
      emitLoop 16 { p with utf7bits := bits, utf7bitcount := 16 } := by
    rw [convertBits, hcount, hbits]
  rw [← hconvert] at hemits
  have htext := hemits.produced
  rw [produced_bits] at htext
  exact ⟨hemits.utf7bits, htext, hemits.utf7bitcount, hemits.utfmode, hemits.smapmunge⟩

theorem convertBits_aligned {p : ToUtf7} {xs : List UInt16} (hmode : p.utfmode = true)
    (hcount : p.utf7bitcount = 0) {q : FromUtf7} (hq : Shifted q 0 0 xs)
    (hdecoded : ∀ n < 64, convertChar (decodedOf (produced p)) (mbase64Char n) =
      convertChar q (mbase64Char n)) (u : UInt16) :
    Sync (convertBits p u) (xs ++ [u]) := by
  have hu := u.toNat_lt
  obtain ⟨hbits, htext, hrest, hmode', -⟩ := convertBits_sixteen hcount u rfl
  generalize hval : (p.utf7bits * 2 ^ 16 + u.toNat) % 2 ^ 32 = bits at hbits htext
  refine .four u (hmode'.trans hmode) hrest (by rw [hbits]; omega) ?_
  rw [htext, decodedOf_append]
  simp only [List.foldl_cons, List.foldl_nil]
  rw [hdecoded _ (Nat.mod_lt _ (by decide))]
  have hfirst := (hq.some_bits (by decide) (Nat.mod_lt (bits / 2 ^ 10) (by decide : 0 < 64)))
  have hsecond := hfirst.some_bits (by decide) (Nat.mod_lt (bits / 2 ^ 4) (by decide : 0 < 64))
  have hvalue : (0 * 64 + bits / 2 ^ 10 % 64) * 64 + bits / 2 ^ 4 % 64 = u.toNat / 16 := by omega
  rw [hvalue] at hsecond
  exact hsecond

theorem convertBits_emits {p : ToUtf7} {k : Nat} (hk : k < 6) (hcount : p.utf7bitcount = k + 2)
    (u : UInt16) {bits : Nat} (hbits : (p.utf7bits * 2 ^ 16 + u.toNat) % 2 ^ 32 = bits) :
    (convertBits p u).utf7bits = bits ∧
    produced (convertBits p u) = produced p ++ [mbase64Char (bits / 2 ^ (k + 12) % 64),
      mbase64Char (bits / 2 ^ (k + 6) % 64), mbase64Char (bits / 2 ^ k % 64)] ∧
    (convertBits p u).utf7bitcount = k ∧ (convertBits p u).utfmode = p.utfmode ∧
    (convertBits p u).smapmunge = p.smapmunge := by
  have hemits := emitLoop_three (p := { p with utf7bits := bits, utf7bitcount := k + 18 }) hk rfl
  have hconvert : convertBits p u =
      emitLoop (k + 18) { p with utf7bits := bits, utf7bitcount := k + 18 } := by
    rw [convertBits, hcount, hbits]
  rw [hconvert]
  exact ⟨hemits.utf7bits, hemits.produced, hemits.utf7bitcount, hemits.utfmode, hemits.smapmunge⟩

/-- A unit inside a shift completes the one before it. -/
theorem Sync.bits {p : ToUtf7} {xs : List UInt16} (hmode : p.utfmode = true) (h : Sync p xs)
    (u : UInt16) : Sync (convertBits p u) (xs ++ [u]) := by
  have hu := u.toNat_lt
  cases h with
  | plain hplain h => exact absurd (hplain.symm.trans hmode) Bool.false_ne_true
  | aligned _ hcount h => exact convertBits_aligned hmode hcount h (fun _ _ => rfl) u
  | four v _ hcount hlow h =>
      have hv := v.toNat_lt
      obtain ⟨hbits, htext, hrest, hmode', -⟩ := convertBits_emits (k := 2) (by decide) hcount u rfl
      generalize hval : (p.utf7bits * 2 ^ 16 + u.toNat) % 2 ^ 32 = bits at hbits htext
      refine .two u (hmode'.trans hmode) hrest (by rw [hbits]; omega) ?_
      rw [htext, decodedOf_append]
      have hfirst := h.last_bits 2 (by decide) (Nat.mod_lt (bits / 2 ^ 14) (by decide : 0 < 64))
        (u := v) (by omega)
      have hsecond := hfirst.some_bits (by decide) (Nat.mod_lt (bits / 2 ^ 8) (by decide : 0 < 64))
      have hthird := hsecond.some_bits (by decide) (Nat.mod_lt (bits / 2 ^ 2) (by decide : 0 < 64))
      have hvalue : ((v.toNat / 16 * 64 + bits / 2 ^ 14 % 64) % 2 ^ 2 * 64 + bits / 2 ^ 8 % 64) * 64 +
          bits / 2 ^ 2 % 64 = u.toNat / 4 := by omega
      rw [hvalue] at hthird
      exact hthird
  | two v _ hcount hlow h =>
      have hv := v.toNat_lt
      obtain ⟨hbits, htext, hrest, hmode', -⟩ := convertBits_emits (k := 0) (by decide) hcount u rfl
      generalize hval : (p.utf7bits * 2 ^ 16 + u.toNat) % 2 ^ 32 = bits at hbits htext
      refine .aligned (hmode'.trans hmode) hrest ?_
      rw [htext, decodedOf_append]
      have hfirst := h.last_bits 4 (by decide) (Nat.mod_lt (bits / 2 ^ 12) (by decide : 0 < 64))
        (u := v) (by omega)
      have hsecond := hfirst.some_bits (by decide) (Nat.mod_lt (bits / 2 ^ 6) (by decide : 0 < 64))
      have hthird := hsecond.last_bits 0 (by decide) (Nat.mod_lt (bits / 2 ^ 0) (by decide : 0 < 64))
        (u := u) (by omega)
      rw [Nat.pow_zero, Nat.mod_one] at hthird
      exact hthird

/-! ## What is written -/

def scan : Bool → List UInt8 → Bool × List UInt8
  | inShift, [] => (inShift, [])
  | false, c :: text =>
    if c = byte '&' then scan true text else ((scan false text).1, c :: (scan false text).2)
  | true, c :: text => if c = byte '-' then scan false text else scan true text

/-- The characters of a folder name that are not part of a `&...-`. -/
def outside (text : List UInt8) : List UInt8 := (scan false text).2

theorem scan_append (inShift : Bool) (a b : List UInt8) :
    scan inShift (a ++ b) =
      ((scan (scan inShift a).1 b).1, (scan inShift a).2 ++ (scan (scan inShift a).1 b).2) := by
  induction a generalizing inShift with
  | nil => cases inShift <;> rfl
  | cons c a ih =>
      rw [List.cons_append]
      cases inShift with
      | false =>
          rw [scan, scan]
          split
          · exact ih true
          · simp [ih false]
      | true =>
          rw [scan, scan]
          split
          · exact ih false
          · exact ih true

structure Framed (munge : List UInt8) (mode : Bool) (text : List UInt8) : Prop where
  mode : (scan false text).1 = mode
  outside : ∀ c ∈ outside text, c ∉ munge
  printable : ∀ c ∈ text, 0x20 ≤ c ∧ c ≤ 0x7F

theorem Framed.append {munge text new : List UInt8} {mode mode' : Bool} (h : Framed munge mode text)
    (hmode : (scan mode new).1 = mode') (hout : ∀ c ∈ (scan mode new).2, c ∉ munge)
    (hnew : ∀ c ∈ new, 0x20 ≤ c ∧ c ≤ 0x7F) : Framed munge mode' (text ++ new) := by
  have hscan := scan_append false text new
  rw [h.mode] at hscan
  refine ⟨by rw [hscan]; exact hmode, fun c hc => ?_, fun c hc => ?_⟩
  · rw [Utf7RoundTrip.outside, hscan] at hc
    rcases List.mem_append.mp hc with hc | hc
    · exact h.outside c hc
    · exact hout c hc
  · rcases List.mem_append.mp hc with hc | hc
    · exact h.printable c hc
    · exact hnew c hc

def Sextets (cs : List UInt8) : Prop := ∀ c ∈ cs, ∃ n < 64, c = mbase64Char n

theorem Sextets.scan {cs : List UInt8} (h : Sextets cs) : scan true cs = (true, []) := by
  induction cs with
  | nil => rfl
  | cons c cs ih =>
      obtain ⟨n, hn, rfl⟩ := h c List.mem_cons_self
      rw [Utf7RoundTrip.scan, if_neg (mbase64Char_facts n hn).2.1]
      exact ih fun d hd => h d (List.mem_cons_of_mem _ hd)

theorem Sextets.printable {cs : List UInt8} (h : Sextets cs) : ∀ c ∈ cs, 0x20 ≤ c ∧ c ≤ 0x7F := by
  intro c hc
  obtain ⟨n, hn, rfl⟩ := h c hc
  exact (mbase64Char_facts n hn).2.2.2

theorem Framed.sextets {munge text cs : List UInt8} (h : Framed munge true text) (hcs : Sextets cs) :
    Framed munge true (text ++ cs) :=
  h.append (by rw [hcs.scan]) (by rw [hcs.scan]; exact fun _ => nofun) hcs.printable

theorem Framed.finish {munge text : List UInt8} (h : Framed munge true text) :
    Framed munge false (text ++ [byte '-']) :=
  h.append rfl (fun _ => nofun) (List.forall_mem_singleton.mpr (by decide))

theorem Framed.start {munge text : List UInt8} (h : Framed munge false text) :
    Framed munge true (text ++ [byte '&']) :=
  h.append rfl (fun _ => nofun) (List.forall_mem_singleton.mpr (by decide))

theorem sextets_singleton (n : Nat) : Sextets [mbase64Char (n % 64)] :=
  List.forall_mem_singleton.mpr ⟨n % 64, Nat.mod_lt _ (by decide), rfl⟩

theorem Sextets.append {a b : List UInt8} (ha : Sextets a) (hb : Sextets b) : Sextets (a ++ b) :=
  fun c hc => (List.mem_append.mp hc).elim (ha c) (hb c)

/-- However many bits are left over, a unit is written in base64. -/
theorem convertBits_text {p : ToUtf7} (hcount : p.utf7bitcount = 0 ∨ p.utf7bitcount = 4 ∨
    p.utf7bitcount = 2) (u : UInt16) :
    ∃ cs, Sextets cs ∧ produced (convertBits p u) = produced p ++ cs ∧
      (convertBits p u).utfmode = p.utfmode ∧ (convertBits p u).smapmunge = p.smapmunge := by
  rcases hcount with hcount | hcount | hcount
  · obtain ⟨-, htext, -, hmode, hmunge⟩ := convertBits_sixteen hcount u rfl
    exact ⟨_, (sextets_singleton _).append (sextets_singleton _), htext, hmode, hmunge⟩
  · obtain ⟨-, htext, -, hmode, hmunge⟩ := convertBits_emits (k := 2) (by decide) hcount u rfl
    exact ⟨_, (sextets_singleton _).append ((sextets_singleton _).append (sextets_singleton _)), htext,
      hmode, hmunge⟩
  · obtain ⟨-, htext, -, hmode, hmunge⟩ := convertBits_emits (k := 0) (by decide) hcount u rfl
    exact ⟨_, (sextets_singleton _).append ((sextets_singleton _).append (sextets_singleton _)), htext,
      hmode, hmunge⟩

/-- The state of the encoder after these units. -/
structure Wrote (munge : List UInt8) (enc : ToUtf7) (xs : List UInt16) : Prop where
  smapmunge : enc.smapmunge = munge
  sync : Sync enc xs
  framed : Framed munge enc.utfmode (produced enc)

section Wrote
variable {munge : List UInt8} {enc : ToUtf7} {xs : List UInt16}

theorem Wrote.off (h : Wrote munge enc xs) :
    (utf7off enc).smapmunge = munge ∧ (utf7off enc).utfmode = false ∧
      Unshifted (decodedOf (produced (utf7off enc))) xs ∧
      Framed munge false (produced (utf7off enc)) := by
  obtain ⟨hmode, hmunge, hdec⟩ := h.sync.off
  refine ⟨hmunge.trans h.smapmunge, hmode, hdec, ?_⟩
  by_cases hshift : enc.utfmode = true
  · have hframed := h.framed
    rw [hshift] at hframed
    rw [(utf7off_emits hshift).produced, ← List.append_assoc]
    refine Framed.finish (hframed.sextets ?_)
    split
    · exact sextets_singleton _
    · exact fun _ => nofun
  · have hplain : enc.utfmode = false := by simpa using hshift
    have hoff : utf7off enc = enc := if_pos hplain
    have hframed := h.framed
    rw [hplain] at hframed
    rw [hoff]
    exact hframed

theorem isPlain_iff (toutf7 : ToUtf7) (u : UInt16) :
    isPlain toutf7 u = true ↔ 0x20 ≤ u ∧ u ≤ 0x7F ∧ u.toUInt8 ∉ toutf7.smapmunge := by
  simp [isPlain, and_assoc]

theorem toUInt8_plain {u : UInt16} (hlow : 0x20 ≤ u) (hhigh : u ≤ 0x7F) :
    u.toUInt8.toUInt16 = u ∧ 0x20 ≤ u.toUInt8 ∧ u.toUInt8 ≤ 0x7F := by
  have hle : u.toNat ≤ 0x7F := UInt16.le_iff_toNat_le.mp hhigh
  have hge : 0x20 ≤ u.toNat := UInt16.le_iff_toNat_le.mp hlow
  have hval : u.toUInt8.toNat = u.toNat := by
    rw [UInt16.toNat_toUInt8]
    omega
  refine ⟨UInt16.toNat_inj.mp ?_, UInt8.le_iff_toNat_le.mpr ?_, UInt8.le_iff_toNat_le.mpr ?_⟩
  · rw [UInt8.toNat_toUInt16, hval]
  · rw [hval]; exact hge
  · rw [hval]; exact hle

theorem Wrote.unit (h : Wrote munge enc xs) (u : UInt16) :
    Wrote munge (convertUnit enc u) (xs ++ [u]) := by
  rw [convertUnit]
  by_cases hplain : isPlain enc u = true
  · rw [if_pos hplain]
    obtain ⟨hlow, hhigh, hmunge⟩ := (isPlain_iff enc u).mp hplain
    rw [h.smapmunge] at hmunge
    obtain ⟨hunit, hlow8, hhigh8⟩ := toUInt8_plain hlow hhigh
    obtain ⟨hoffMunge, hoffMode, hdec, hframed⟩ := h.off
    have hfirst := encodeAdd_emits (utf7off enc) u.toUInt8
    rw [hoffMode] at hfirst
    dsimp only
    by_cases hamp : u.toUInt8 = byte '&'
    · -- `&` is written as an empty shift
      have hsecond := encodeAdd_emits (encodeAdd (utf7off enc) u.toUInt8) (byte '-')
      have hboth := hfirst.trans hsecond
      rw [hfirst.utfmode] at hboth
      rw [if_pos hamp]
      refine ⟨hboth.smapmunge.trans hoffMunge, .plain hboth.utfmode ?_, ?_⟩
      · rw [hboth.produced, decodedOf_append, hamp]
        have hval : u = 0x26 := by
          rw [← hunit, hamp]
          decide
        rw [hval]
        exact hdec.literalAmp
      · rw [hboth.produced, hboth.utfmode, ← List.append_assoc, hamp]
        exact hframed.start.finish
    · rw [if_neg hamp]
      refine ⟨hfirst.smapmunge.trans hoffMunge, .plain hfirst.utfmode ?_, ?_⟩
      · rw [hfirst.produced, decodedOf_append]
        have hread := hdec.plain hamp hhigh8
        rw [hunit] at hread
        exact hread
      · rw [hfirst.produced, hfirst.utfmode]
        have hscan : scan false [u.toUInt8] = (false, [u.toUInt8]) := if_neg hamp
        refine hframed.append (by rw [hscan]) ?_ (List.forall_mem_singleton.mpr ⟨hlow8, hhigh8⟩)
        rw [hscan]
        exact List.forall_mem_singleton.mpr hmunge
  · rw [if_neg hplain]
    by_cases hmode : enc.utfmode = false
    · rw [if_pos hmode]
      have hdec : Unshifted (decodedOf (produced enc)) xs := by
        have hoff : utf7off enc = enc := if_pos hmode
        have hdec := h.sync.off.2.2
        rwa [hoff] at hdec
      have hstart := encodeAdd_emits { enc with utfmode := true, utf7bitcount := 0 } (byte '&')
      have hproduced : produced { enc with utfmode := true, utf7bitcount := 0 } = produced enc := rfl
      obtain ⟨q, hq, hfirst⟩ := hdec.start
      obtain ⟨cs, hcs, htext, hmode', hmunge'⟩ := convertBits_text (.inl hstart.utf7bitcount) u
      have hframed := h.framed
      rw [hmode] at hframed
      refine ⟨hmunge'.trans (hstart.smapmunge.trans h.smapmunge),
        convertBits_aligned hstart.utfmode hstart.utf7bitcount hq ?_ u, ?_⟩
      · rw [hstart.produced, decodedOf_append]
        exact hfirst
      · rw [htext, hmode', hstart.utfmode, hstart.produced, hproduced]
        exact hframed.start.sextets hcs
    · rw [if_neg hmode]
      have hmode : enc.utfmode = true := by simpa using hmode
      have hcount : enc.utf7bitcount = 0 ∨ enc.utf7bitcount = 4 ∨ enc.utf7bitcount = 2 := by
        cases h.sync with
        | plain hplain _ => exact absurd (hplain.symm.trans hmode) Bool.false_ne_true
        | aligned _ hcount _ => exact .inl hcount
        | four _ _ hcount _ _ => exact .inr (.inl hcount)
        | two _ _ hcount _ _ => exact .inr (.inr hcount)
      obtain ⟨cs, hcs, htext, hmode', hmunge'⟩ := convertBits_text hcount u
      have hframed := h.framed
      rw [hmode] at hframed
      refine ⟨hmunge'.trans h.smapmunge, h.sync.bits hmode u, ?_⟩
      rw [htext, hmode', hmode]
      exact hframed.sextets hcs

theorem Wrote.units (h : Wrote munge enc xs) (us : List UInt16) :
    Wrote munge (us.foldl convertUnit enc) (xs ++ us) := by
  induction us generalizing enc xs with
  | nil => rwa [List.append_nil]
  | cons u us ih =>
      have hnext := ih (h.unit u)
      rwa [List.append_assoc] at hnext

end Wrote

theorem wrote_init (smapmunge : List UInt8) :
    Wrote (smapmunge.take 15) (ToUtf7.init smapmunge) [] :=
  ⟨rfl, .plain rfl ⟨rfl, rfl, rfl, rfl⟩, ⟨rfl, fun _ => nofun, fun _ => nofun⟩⟩

theorem fromImap_flatten (feeds : List (List UInt8)) :
    fromImap feeds = deinitFromutf7 (decodedOf feeds.flatten) := by
  have hfold : ∀ p, feeds.foldl convertFromutf7 p = feeds.flatten.foldl convertChar p := by
    intro p
    rw [List.foldl_flatten]
    rfl
  rw [fromImap, hfold]
  rfl

theorem wrote_toImap (smapmunge : List UInt8) (texts : List (List UInt16)) :
    Unshifted (decodedOf (toImap smapmunge texts)) texts.flatten ∧
      Framed (smapmunge.take 15) false (toImap smapmunge texts) := by
  have hfold : texts.foldl doConvertToutf7 (ToUtf7.init smapmunge) =
      texts.flatten.foldl convertUnit (ToUtf7.init smapmunge) := by
    rw [List.foldl_flatten]
    rfl
  have hwrote := (wrote_init smapmunge).units texts.flatten
  rw [← hfold, List.nil_append] at hwrote
  exact ⟨hwrote.off.2.2.1, hwrote.off.2.2.2⟩

theorem fromImap_toImap {smapmunge : List UInt8} {texts : List (List UInt16)}
    {feeds : List (List UInt8)} (h : feeds.flatten = toImap smapmunge texts) :
    fromImap feeds = (0, texts.flatten) := by
  have hdec := (wrote_toImap smapmunge texts).1
  rw [fromImap_flatten, h]
  generalize decodedOf (toImap smapmunge texts) = p at hdec
  have hreceived := hdec.received
  rw [deinitFromutf7, hdec.seenamp, hdec.inmod]
  simp only [Bool.or_self, Bool.false_and, Bool.false_eq_true, if_false]
  split
  · exact Prod.ext rfl hreceived
  · next hbuf =>
      rw [received, not_not.mp hbuf, List.append_nil] at hreceived
      exact Prod.ext hdec.errflag hreceived

/-- The folder name of a text, in whatever pieces the text and the name come. -/
theorem toImap_spec (smapmunge : List UInt8) (texts : List (List UInt16)) :
    (∀ c ∈ toImap smapmunge texts, 0x20 ≤ c ∧ c ≤ 0x7F) ∧
    (∀ c ∈ outside (toImap smapmunge texts), c ∉ smapmunge.take 15) ∧
    (∀ feeds : List (List UInt8), feeds.flatten = toImap smapmunge texts →
      fromImap feeds = (0, texts.flatten)) ∧
    ∀ (smapmunge' : List UInt8) (texts' : List (List UInt16)),
      toImap smapmunge' texts' = toImap smapmunge texts → texts'.flatten = texts.flatten := by
  have hframed := (wrote_toImap smapmunge texts).2
  refine ⟨hframed.printable, hframed.outside, fun feeds => fromImap_toImap, ?_⟩
  intro smapmunge' texts' h
  have hpiece : [toImap smapmunge texts].flatten = toImap smapmunge texts := List.flatten_singleton
  have hread := fromImap_toImap hpiece
  have hread' := fromImap_toImap (hpiece.trans h.symm)
  exact congrArg Prod.snd (hread'.symm.trans hread)

/-- A name whose `&-` is split between two calls. -/
theorem toImap_spec_sample :
    fromImap [['A', '&'].map byte, ['-', '&', 'M', 'A', 'A', '-'].map byte] =
      (0, [0x41, 0x26, 0x3000]) :=
  (toImap_spec [byte '.'] [[0x41, 0x26], [0x3000]]).2.2.1 _ (by decide +kernel)

/-- The sixteenth character of a set is not munged. -/
theorem toImap_sixteenth :
    byte '.' ∈ ['!', '#', '$', '%', '(', ')', '*', '+', '/', ':', ';', '<', '>', '?', '~', '.'].map byte ∧
      byte '.' ∈ outside (toImap
        (['!', '#', '$', '%', '(', ')', '*', '+', '/', ':', ';', '<', '>', '?', '~', '.'].map byte)
        [[0x2e]]) := by
  decide +kernel

end Cone.Utf7RoundTrip
