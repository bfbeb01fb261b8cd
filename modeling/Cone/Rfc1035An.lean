import Cone.Lib.Decimal

/-! # IPv4 addresses in text (`rfc1035/rfc1035an.c`)

`rfc1035_ntoa_ipv4` and `rfc1035_aton_ipv4`.  A component is gathered in 32 bits before its
range is looked at, so one of more than 32 bits is taken for what is left of it. -/
set_option autoImplicit false
namespace Cone.Rfc1035An

open Cone.Ctype

/-- `struct in_addr`, byte by byte. -/
structure InAddr where
  addr0 : UInt8
  addr1 : UInt8
  addr2 : UInt8
  addr3 : UInt8
  deriving DecidableEq, Repr

def octetLoop : Nat → UInt8 → List UInt8 → List UInt8
  | 0, _, p => p
  | fuel + 1, octet, p =>
    let p := (byte '0' + octet % 10) :: p
    if octet / 10 ≠ 0 then octetLoop fuel (octet / 10) p else p

def octetText (octet : UInt8) : List UInt8 := octetLoop 3 octet []

def ntoaIpv4 (a : InAddr) : List UInt8 :=
  octetText a.addr0 ++ byte '.' :: (octetText a.addr1 ++ byte '.' ::
    (octetText a.addr2 ++ byte '.' :: octetText a.addr3))

def digitsLoop (base : UInt32) : UInt32 → List UInt8 → UInt32 × List UInt8
  | octet, [] => (octet, [])
  | octet, c :: p =>
    if byte '0' ≤ c ∧ c.toNat < (byte '0').toNat + base.toNat then
      digitsLoop base (octet * base + (c - byte '0').toUInt32) p
    else (octet, c :: p)

def readOctet : List UInt8 → Option (UInt32 × List UInt8)
  | [] => none
  | c :: p =>
    if c < byte '0' ∨ byte '9' < c then none
    else some (digitsLoop (if c = byte '0' then 8 else 10) 0 (c :: p))

/-- The loop of `doaton` with `n` rounds to go: the octets, and where it stops. -/
def octetsLoop : Nat → Bool → List UInt8 → Option (List UInt32 × List UInt8)
  | 0, _, p => some ([], p)
  | n + 1, first, p =>
    let round := fun p =>
      match readOctet p with
      | none => none
      | some (octet, rest) =>
        (octetsLoop n false rest).map fun r => (octet :: r.1, r.2)
    if first then round p
    else
      match p with
      | [] => some ([], [])
      | c :: p => if c ≠ byte '.' then none else round p

/-- `doaton`; `none` where it sets `*err`. -/
def doaton (p : List UInt8) : Option UInt32 :=
  match octetsLoop 4 true p with
  | none => none
  | some (_, _ :: _) => none
  | some ([octet0], []) => some octet0
  | some ([octet0, octet1], []) =>
    if octet0 > 255 then none
    else if octet1 > 0x00FFFFFF then none
    else some (octet0 <<< 24 ||| octet1)
  | some ([octet0, octet1, octet2], []) =>
    if octet0 > 255 then none
    else if octet1 > 255 then none
    else if octet2 > 0x0000FFFF then none
    else some (octet0 <<< 24 ||| octet1 <<< 16 ||| octet2)
  | some ([octet0, octet1, octet2, octet3], []) =>
    if octet0 > 255 then none
    else if octet1 > 255 then none
    else if octet2 > 255 ∨ octet3 > 255 then none
    else some (octet0 <<< 24 ||| octet1 <<< 16 ||| octet2 <<< 8 ||| octet3)
  | some (_, []) => none

def InAddr.ofWord (n : UInt32) : InAddr :=
  ⟨(n >>> 24).toUInt8, (n >>> 16).toUInt8, (n >>> 8).toUInt8, n.toUInt8⟩

/-- `rfc1035_aton_ipv4`: what it returns, and what it stores all the same. -/
def atonIpv4 (p : List UInt8) : Int × InAddr :=
  match doaton p with
  | none => (1, InAddr.ofWord (-1))
  | some n => (0, InAddr.ofWord n)

/-! ## What a text denotes -/

/-- Octal if it starts with a zero. -/
def baseOf (w : List UInt8) : Nat := if w.head? = some (byte '0') then 8 else 10

def IsDigit (base : Nat) (c : UInt8) : Prop :=
  (byte '0').toNat ≤ c.toNat ∧ c.toNat < (byte '0').toNat + base

instance (base : Nat) (c : UInt8) : Decidable (IsDigit base c) :=
  inferInstanceAs (Decidable (_ ∧ _))

def valueFrom (base : Nat) (w : List UInt8) (n : Nat) : Nat :=
  w.foldl (fun n c => n * base + (c.toNat - (byte '0').toNat)) n

def value (w : List UInt8) : Nat := valueFrom (baseOf w) w 0

def IsNumber (w : List UInt8) : Prop := w ≠ [] ∧ ∀ c ∈ w, IsDigit (baseOf w) c

inductive Dotted : List UInt8 → List (List UInt8) → Prop
  | last (w : List UInt8) (number : IsNumber w) : Dotted w [w]
  | more (w text : List UInt8) (ws : List (List UInt8)) (number : IsNumber w)
      (rest : Dotted text ws) : Dotted (w ++ byte '.' :: text) (w :: ws)

/-- Every number but the last is at most 255, and the last fits in the bytes that are left of
four. -/
def InRange : Nat → List Nat → Prop
  | _, [] => False
  | bytes, [n] => n < 256 ^ bytes
  | bytes, n :: ns => n ≤ 255 ∧ InRange (bytes - 1) ns

def denoted : Nat → List Nat → Nat
  | _, [] => 0
  | _, [n] => n
  | bytes, n :: ns => n * 256 ^ (bytes - 1) + denoted (bytes - 1) ns

def InAddr.number (a : InAddr) : Nat :=
  a.addr0.toNat * 256 ^ 3 + a.addr1.toNat * 256 ^ 2 + a.addr2.toNat * 256 + a.addr3.toNat

example : atonIpv4 (str "127.1") = (0, ⟨127, 0, 0, 1⟩) := by decide

/-! ## Components -/

theorem toUInt32_digit {c : UInt8} (h : (byte '0').toNat ≤ c.toNat) :
    (c - byte '0').toUInt32 = UInt32.ofNat (c.toNat - (byte '0').toNat) := by
  apply UInt32.toNat_inj.mp
  have bound := c.toNat_lt
  have small : c.toNat - (byte '0').toNat < UInt32.size :=
    Nat.lt_of_le_of_lt (Nat.sub_le _ _) (Nat.lt_trans bound (by decide))
  rw [UInt8.toNat_toUInt32, UInt8.toNat_sub_of_le _ _ (UInt8.le_iff_toNat_le.mpr h),
    UInt32.toNat_ofNat_of_lt' small]

theorem isDigit_iff {base : Nat} (small : base = 8 ∨ base = 10) (c : UInt8) :
    (byte '0' ≤ c ∧ c.toNat < (byte '0').toNat + (UInt32.ofNat base).toNat) ↔ IsDigit base c := by
  rw [UInt32.toNat_ofNat_of_lt' (by rcases small with rfl | rfl <;> decide), UInt8.le_iff_toNat_le]
  rfl

/-- A component is gathered modulo 2^32, up to the first character that is no digit. -/
theorem digitsLoop_split {base : Nat} (small : base = 8 ∨ base = 10) (n : Nat) (p : List UInt8) :
    ∃ w rest, p = w ++ rest ∧ (∀ c ∈ w, IsDigit base c) ∧ (∀ c ∈ rest.head?, ¬ IsDigit base c) ∧
      digitsLoop (UInt32.ofNat base) (UInt32.ofNat n) p =
        (UInt32.ofNat (valueFrom base w n), rest) := by
  induction p generalizing n with
  | nil => exact ⟨[], [], rfl, by simp, by simp, rfl⟩
  | cons c p ih =>
      rw [digitsLoop]
      by_cases digit : IsDigit base c
      · rw [if_pos ((isDigit_iff small c).mpr digit), toUInt32_digit digit.1, ← UInt32.ofNat_mul,
          ← UInt32.ofNat_add]
        obtain ⟨w, rest, rfl, digits, stop, loop⟩ := ih (n * base + (c.toNat - (byte '0').toNat))
        refine ⟨c :: w, rest, rfl, ?_, stop, loop⟩
        intro d hd
        rcases List.mem_cons.mp hd with rfl | hd
        · exact digit
        · exact digits d hd
      · rw [if_neg fun h => digit ((isDigit_iff small c).mp h)]
        exact ⟨[], c :: p, rfl, by simp, by simpa using digit, rfl⟩

theorem baseOf_small (w : List UInt8) : baseOf w = 8 ∨ baseOf w = 10 := by
  rw [baseOf]
  split
  · exact Or.inl rfl
  · exact Or.inr rfl

theorem baseOf_append {w : List UInt8} (some' : w ≠ []) (rest : List UInt8) :
    baseOf (w ++ rest) = baseOf w := by
  rw [baseOf, baseOf, List.head?_append_of_ne_nil _ some']

theorem word_baseOf (c : UInt8) (p : List UInt8) :
    (if c = byte '0' then (8 : UInt32) else 10) = UInt32.ofNat (baseOf (c :: p)) := by
  by_cases zero : c = byte '0'
  · simp [baseOf, zero]
  · simp [baseOf, zero]

/-- What can begin a number. -/
theorem first_digit (c : UInt8) (p : List UInt8) :
    ¬ (c < byte '0' ∨ byte '9' < c) ↔ IsDigit (baseOf (c :: p)) c := by
  have zero : (byte '0').toNat = 48 := rfl
  have nine : (byte '9').toNat = 57 := rfl
  rw [not_or, UInt8.not_lt, UInt8.not_lt, UInt8.le_iff_toNat_le, UInt8.le_iff_toNat_le, IsDigit,
    baseOf]
  by_cases first : c = byte '0'
  · simp [first]
    decide
  · have other : c.toNat ≠ 48 := fun h => first (UInt8.toNat_inj.mp h)
    simp only [List.head?_cons, Option.some.injEq, if_neg first]
    omega

theorem readOctet_eq_some {p rest : List UInt8} {n : UInt32} (h : readOctet p = some (n, rest)) :
    ∃ w, p = w ++ rest ∧ IsNumber w ∧ n = UInt32.ofNat (value w) := by
  cases p with
  | nil => cases h
  | cons c p =>
      rw [readOctet] at h
      by_cases bad : c < byte '0' ∨ byte '9' < c
      · rw [if_pos bad] at h
        cases h
      · rw [if_neg bad, word_baseOf c p] at h
        have digit := (first_digit c p).mp bad
        obtain ⟨w, rest', split, digits, stop, loop⟩ :=
          digitsLoop_split (baseOf_small (c :: p)) 0 (c :: p)
        have both := loop.symm.trans (Option.some.inj h)
        obtain ⟨value', rfl⟩ := Prod.mk.inj both
        have some' : w ≠ [] := by
          intro none
          rw [none, List.nil_append] at split
          exact stop c (by rw [← split]; rfl) digit
        have base : baseOf (c :: p) = baseOf w := by rw [split, baseOf_append some']
        rw [base] at digits value'
        exact ⟨w, split, ⟨some', digits⟩, value'.symm⟩

theorem isDigit_ne_dot {base : Nat} : ¬ IsDigit base (byte '.') := by
  intro h
  exact absurd h.1 (by decide)

theorem append_stop {base : Nat} {w w' rest rest' : List UInt8} (h : w ++ rest = w' ++ rest')
    (digits : ∀ c ∈ w, IsDigit base c) (digits' : ∀ c ∈ w', IsDigit base c)
    (stop : ∀ c ∈ rest.head?, ¬ IsDigit base c) (stop' : ∀ c ∈ rest'.head?, ¬ IsDigit base c) :
    w = w' ∧ rest = rest' := by
  induction w generalizing w' with
  | nil =>
      cases w' with
      | nil => exact ⟨rfl, h⟩
      | cons c w' =>
          rw [List.nil_append] at h
          exact absurd (digits' c (List.mem_cons_self ..)) (stop c (by rw [h]; rfl))
  | cons c w ih =>
      cases w' with
      | nil =>
          rw [List.nil_append] at h
          exact absurd (digits c (List.mem_cons_self ..)) (stop' c (by rw [← h]; rfl))
      | cons d w' =>
          obtain ⟨rfl, later⟩ := List.cons.inj h
          obtain ⟨rfl, same⟩ := ih later (fun e he => digits e (List.mem_cons_of_mem _ he))
            (fun e he => digits' e (List.mem_cons_of_mem _ he))
          exact ⟨rfl, same⟩

theorem readOctet_number {w rest : List UInt8} (number : IsNumber w)
    (stop : ∀ c ∈ rest.head?, c = byte '.') :
    readOctet (w ++ rest) = some (UInt32.ofNat (value w), rest) := by
  obtain ⟨some', digits⟩ := number
  cases w with
  | nil => exact absurd rfl some'
  | cons c w =>
      rw [List.cons_append, readOctet, if_neg ((first_digit c (w ++ rest)).mpr ?_),
        word_baseOf c (w ++ rest)]
      · obtain ⟨w', rest', split, digits', stop', loop⟩ :=
          digitsLoop_split (baseOf_small (c :: w)) 0 (c :: (w ++ rest))
        have base : baseOf (c :: (w ++ rest)) = baseOf (c :: w) := baseOf_append some' rest
        obtain ⟨rfl, rfl⟩ : c :: w = w' ∧ rest = rest' := append_stop split digits digits'
          (fun d hd => stop d hd ▸ isDigit_ne_dot) stop'
        rw [base]
        exact congrArg some loop
      · have base : baseOf (c :: (w ++ rest)) = baseOf (c :: w) := baseOf_append some' rest
        rw [base]
        exact digits c (List.mem_cons_self ..)

/-! ## The text -/

/-- What comes after a number. -/
def Tail (text : List UInt8) (ws : List (List UInt8)) : Prop :=
  (text = [] ∧ ws = []) ∨ ∃ rest, text = byte '.' :: rest ∧ Dotted rest ws

theorem Tail.stop {text : List UInt8} {ws : List (List UInt8)} (h : Tail text ws) :
    ∀ c ∈ text.head?, c = byte '.' := by
  intro c hc
  rcases h with ⟨rfl, -⟩ | ⟨rest, rfl, -⟩
  · cases hc
  · exact (Option.some.inj hc).symm

theorem Dotted.cons {w rest : List UInt8} {ws : List (List UInt8)} (number : IsNumber w)
    (tail : Tail rest ws) : Dotted (w ++ rest) (w :: ws) := by
  rcases tail with ⟨rfl, rfl⟩ | ⟨rest, rfl, dotted⟩
  · rw [List.append_nil]
    exact Dotted.last w number
  · exact Dotted.more w rest ws number dotted

theorem Dotted.first {text : List UInt8} {ws : List (List UInt8)} (h : Dotted text ws) :
    ∃ w rest ws', text = w ++ rest ∧ ws = w :: ws' ∧ IsNumber w ∧ Tail rest ws' := by
  cases h with
  | last w number => exact ⟨text, [], [], (List.append_nil _).symm, rfl, number, Or.inl ⟨rfl, rfl⟩⟩
  | more w text ws number rest =>
      exact ⟨w, byte '.' :: text, ws, rfl, rfl, number, Or.inr ⟨text, rfl, rest⟩⟩

theorem Dotted.unique {text : List UInt8} {ws ws' : List (List UInt8)} (h : Dotted text ws)
    (h' : Dotted text ws') : ws = ws' := by
  induction ws generalizing text ws' with
  | nil =>
      obtain ⟨w, rest, later, -, impossible, -⟩ := h.first
      cases impossible
  | cons v vs ih =>
      obtain ⟨w, rest, later, split, same, number, tail⟩ := h.first
      obtain ⟨w', rest', later', split', rfl, number', tail'⟩ := h'.first
      obtain ⟨rfl, rfl⟩ := List.cons.inj same
      have whole := split.symm.trans split'
      have base : baseOf v = baseOf w' := by
        rw [← baseOf_append number.1 rest, whole, baseOf_append number'.1]
      obtain ⟨rfl, rfl⟩ := append_stop whole number.2 (base ▸ number'.2)
        (fun c hc => tail.stop c hc ▸ isDigit_ne_dot) (fun c hc => tail'.stop c hc ▸ isDigit_ne_dot)
      rcases tail with ⟨rfl, rfl⟩ | ⟨text', rfl, dotted⟩
      · rcases tail' with ⟨-, rfl⟩ | ⟨text'', impossible, -⟩
        · rfl
        · cases impossible
      · rcases tail' with ⟨impossible, -⟩ | ⟨text'', rest'', dotted'⟩
        · cases impossible
        · rw [ih dotted (List.cons.inj rest'' |>.2 ▸ dotted')]

def wrapped (ws : List (List UInt8)) : List UInt32 := ws.map fun w => UInt32.ofNat (value w)

section Rounds
variable {n : Nat} {p : List UInt8} {os : List UInt32}

theorem round_iff
    (later : ∀ {p os}, octetsLoop n false p = some (os, []) ↔
      ∃ ws, os = wrapped ws ∧ ws.length ≤ n ∧ Tail p ws) :
    (match readOctet p with
      | none => none
      | some (octet, rest) => (octetsLoop n false rest).map fun r => (octet :: r.1, r.2)) =
        some (os, []) ↔
      ∃ ws, os = wrapped ws ∧ ws.length ≤ n + 1 ∧ Dotted p ws := by
  constructor
  · intro h
    cases read : readOctet p with
    | none => rw [read] at h; cases h
    | some octet =>
        obtain ⟨octet, rest⟩ := octet
        rw [read] at h
        obtain ⟨⟨os', rest'⟩, loop, same⟩ := Option.map_eq_some_iff.mp h
        obtain ⟨rfl, rfl⟩ := Prod.mk.inj same
        obtain ⟨ws, rfl, short, tail⟩ := later.mp loop
        obtain ⟨w, rfl, number, rfl⟩ := readOctet_eq_some read
        exact ⟨w :: ws, rfl, Nat.succ_le_succ short, Dotted.cons number tail⟩
  · rintro ⟨ws, rfl, short, dotted⟩
    obtain ⟨w, rest, ws', rfl, rfl, number, tail⟩ := dotted.first
    rw [readOctet_number number tail.stop]
    exact Option.map_eq_some_iff.mpr
      ⟨(wrapped ws', []), later.mpr ⟨ws', rfl, Nat.le_of_succ_le_succ short, tail⟩, rfl⟩

theorem octetsLoop_tail :
    octetsLoop n false p = some (os, []) ↔ ∃ ws, os = wrapped ws ∧ ws.length ≤ n ∧ Tail p ws := by
  induction n generalizing p os with
  | zero =>
      rw [octetsLoop]
      constructor
      · intro h
        obtain ⟨rfl, rfl⟩ := Prod.mk.inj (Option.some.inj h)
        exact ⟨[], rfl, Nat.le_refl _, Or.inl ⟨rfl, rfl⟩⟩
      · rintro ⟨ws, rfl, short, tail⟩
        obtain rfl := List.eq_nil_of_length_eq_zero (Nat.le_zero.mp short)
        rcases tail with ⟨rfl, -⟩ | ⟨rest, rfl, dotted⟩
        · rfl
        · obtain ⟨w, rest', later, -, impossible, -⟩ := dotted.first
          cases impossible
  | succ n ih =>
      cases p with
      | nil =>
          constructor
          · intro h
            obtain ⟨rfl, -⟩ := Prod.mk.inj (Option.some.inj h)
            exact ⟨[], rfl, Nat.zero_le _, Or.inl ⟨rfl, rfl⟩⟩
          · rintro ⟨ws, rfl, short, tail⟩
            rcases tail with ⟨-, rfl⟩ | ⟨rest, impossible, -⟩
            · rfl
            · cases impossible
      | cons c p =>
          rw [octetsLoop, if_neg Bool.false_ne_true]
          by_cases dot : c = byte '.'
          · subst dot
            rw [if_neg fun h => h rfl, round_iff ih]
            constructor
            · rintro ⟨ws, rfl, short, dotted⟩
              exact ⟨ws, rfl, short, Or.inr ⟨p, rfl, dotted⟩⟩
            · rintro ⟨ws, rfl, short, ⟨impossible, -⟩ | ⟨rest, same, dotted⟩⟩
              · cases impossible
              · exact ⟨ws, rfl, short, (List.cons.inj same).2 ▸ dotted⟩
          · rw [if_pos dot]
            constructor
            · intro h
              cases h
            · rintro ⟨ws, rfl, short, tail⟩
              exact absurd (tail.stop c rfl) dot

theorem octetsLoop_dotted :
    octetsLoop (n + 1) true p = some (os, []) ↔
      ∃ ws, os = wrapped ws ∧ ws.length ≤ n + 1 ∧ Dotted p ws := by
  have first : octetsLoop (n + 1) true p =
      match readOctet p with
      | none => none
      | some (octet, rest) => (octetsLoop n false rest).map fun r => (octet :: r.1, r.2) := by
    cases p <;> rfl
  rw [first]
  exact round_iff octetsLoop_tail

end Rounds

/-! ## The number -/

theorem toNat_or_shift {a b : UInt32} {k : UInt32} (small : k.toNat < 32)
    (fits : a.toNat * 2 ^ k.toNat < 2 ^ 32) (low : b.toNat < 2 ^ k.toNat) :
    (a <<< k ||| b).toNat = a.toNat * 2 ^ k.toNat + b.toNat := by
  rw [UInt32.toNat_or, UInt32.toNat_shiftLeft, Nat.mod_eq_of_lt small, Nat.shiftLeft_eq,
    Nat.mod_eq_of_lt fits, ← Nat.shiftLeft_eq, Nat.shiftLeft_add_eq_or_of_lt low]

theorem ofWord_number (n : UInt32) : (InAddr.ofWord n).number = n.toNat := by
  have bound := n.toNat_lt
  simp only [InAddr.number, InAddr.ofWord, UInt32.toNat_toUInt8, UInt32.toNat_shiftRight,
    Nat.shiftRight_eq_div_pow]
  simp
  omega

theorem number_injective {a b : InAddr} (h : a.number = b.number) : a = b := by
  obtain ⟨a0, a1, a2, a3⟩ := a
  obtain ⟨b0, b1, b2, b3⟩ := b
  have := a0.toNat_lt
  have := a1.toNat_lt
  have := a2.toNat_lt
  have := a3.toNat_lt
  have := b0.toNat_lt
  have := b1.toNat_lt
  have := b2.toNat_lt
  have := b3.toNat_lt
  simp only [InAddr.number] at h
  rw [InAddr.mk.injEq, ← UInt8.toNat_inj, ← UInt8.toNat_inj, ← UInt8.toNat_inj, ← UInt8.toNat_inj]
  omega

section Bounds
variable {a b : UInt32}

theorem not_gt (h : a.toNat ≤ b.toNat) : ¬ a > b := fun h' =>
  absurd (UInt32.lt_iff_toNat_lt.mp h') (Nat.not_lt.mpr h)

theorem le_of_not_gt (h : ¬ a > b) : a.toNat ≤ b.toNat :=
  Nat.not_lt.mp fun h' => h (UInt32.lt_iff_toNat_lt.mpr h')

end Bounds

theorem number_lt (a : InAddr) : a.number < UInt32.size := by
  have := a.addr0.toNat_lt
  have := a.addr1.toNat_lt
  have := a.addr2.toNat_lt
  have := a.addr3.toNat_lt
  rw [InAddr.number, UInt32.size]
  omega

theorem doaton_octets {p : List UInt8} {os : List UInt32}
    (loop : octetsLoop 4 true p = some (os, [])) :
    (InRange 4 (os.map UInt32.toNat) →
      ∃ n, doaton p = some n ∧ n.toNat = denoted 4 (os.map UInt32.toNat)) ∧
    (¬ InRange 4 (os.map UInt32.toNat) → doaton p = none) := by
  rw [doaton, loop]
  match os with
  | [] => exact ⟨fun h => h.elim, fun _ => rfl⟩
  | [a] => exact ⟨fun _ => ⟨a, rfl, rfl⟩, fun h => absurd a.toNat_lt h⟩
  | [a, b] =>
      simp only [List.map_cons, List.map_nil, InRange, denoted]
      constructor
      · rintro ⟨ha, hb⟩
        have ha' : ¬ a > 255 := not_gt ha
        have hb' : ¬ b > 0x00FFFFFF := not_gt (Nat.le_of_lt_succ hb)
        rw [if_neg ha', if_neg hb']
        exact ⟨_, rfl, toNat_or_shift (by decide) (by simp; omega) hb⟩
      · intro out
        by_cases ha : a > 255
        · rw [if_pos ha]
        · by_cases hb : b > 0x00FFFFFF
          · rw [if_neg ha, if_pos hb]
          · exact absurd ⟨le_of_not_gt ha, Nat.lt_succ_of_le (le_of_not_gt hb)⟩ out
  | [a, b, c] =>
      simp only [List.map_cons, List.map_nil, InRange, denoted]
      constructor
      · rintro ⟨ha, hb, hc⟩
        have ha' : ¬ a > 255 := not_gt ha
        have hb' : ¬ b > 255 := not_gt hb
        have hc' : ¬ c > 0x0000FFFF := not_gt (Nat.le_of_lt_succ hc)
        rw [if_neg ha', if_neg hb', if_neg hc']
        have low : (b <<< 16 ||| c).toNat = b.toNat * 2 ^ 16 + c.toNat :=
          toNat_or_shift (by decide) (by simp; omega) hc
        refine ⟨_, rfl, ?_⟩
        rw [UInt32.or_assoc, toNat_or_shift (by decide) (by simp; omega), low]
        · rfl
        · rw [low]
          simp
          omega
      · intro out
        by_cases ha : a > 255
        · rw [if_pos ha]
        · by_cases hb : b > 255
          · rw [if_neg ha, if_pos hb]
          · by_cases hc : c > 0x0000FFFF
            · rw [if_neg ha, if_neg hb, if_pos hc]
            · exact absurd ⟨le_of_not_gt ha, le_of_not_gt hb,
                Nat.lt_succ_of_le (le_of_not_gt hc)⟩ out
  | [a, b, c, d] =>
      simp only [List.map_cons, List.map_nil, InRange, denoted]
      constructor
      · rintro ⟨ha, hb, hc, hd⟩
        have ha' : ¬ a > 255 := not_gt ha
        have hb' : ¬ b > 255 := not_gt hb
        have hcd : ¬ (c > 255 ∨ d > 255) :=
          not_or.mpr ⟨not_gt hc, not_gt (Nat.le_of_lt_succ hd)⟩
        rw [if_neg ha', if_neg hb', if_neg hcd]
        have low : (c <<< 8 ||| d).toNat = c.toNat * 2 ^ 8 + d.toNat :=
          toNat_or_shift (by decide) (by simp; omega) hd
        have mid : (b <<< 16 ||| (c <<< 8 ||| d)).toNat =
            b.toNat * 2 ^ 16 + (c.toNat * 2 ^ 8 + d.toNat) := by
          rw [toNat_or_shift (by decide) (by simp; omega), low]
          · rfl
          · rw [low]
            simp
            omega
        refine ⟨_, rfl, ?_⟩
        rw [UInt32.or_assoc, UInt32.or_assoc, toNat_or_shift (by decide) (by simp; omega), mid]
        · rfl
        · rw [mid]
          simp
          omega
      · intro out
        by_cases ha : a > 255
        · rw [if_pos ha]
        · by_cases hb : b > 255
          · rw [if_neg ha, if_pos hb]
          · by_cases h : c > 255 ∨ d > 255
            · rw [if_neg ha, if_neg hb, if_pos h]
            · obtain ⟨hc, hd⟩ := not_or.mp h
              exact absurd ⟨le_of_not_gt ha, le_of_not_gt hb, le_of_not_gt hc,
                Nat.lt_succ_of_le (le_of_not_gt hd)⟩ out
  | a :: b :: c :: d :: e :: os =>
      obtain ⟨ws, same, short, -⟩ := octetsLoop_dotted.mp loop
      have length := congrArg List.length same
      rw [wrapped, List.length_map] at length
      simp only [List.length_cons] at length
      omega

theorem toNat_wrapped (ws : List (List UInt8)) :
    (wrapped ws).map UInt32.toNat = ws.map fun w => value w % 2 ^ 32 := by
  rw [wrapped, List.map_map]
  exact List.map_congr_left fun w _ => UInt32.toNat_ofNat'

theorem octets_of_doaton {p : List UInt8} {n : UInt32} (h : doaton p = some n) :
    ∃ os, octetsLoop 4 true p = some (os, []) := by
  rw [doaton] at h
  cases loop : octetsLoop 4 true p with
  | none => rw [loop] at h; cases h
  | some r =>
      obtain ⟨os, rest⟩ := r
      cases rest with
      | nil => exact ⟨os, rfl⟩
      | cons c rest => rw [loop] at h; cases h

/-- What is taken, and for what: every number is first reduced to 32 bits. -/
theorem doaton_eq_some {text : List UInt8} {n : UInt32} :
    doaton text = some n ↔ ∃ ws, Dotted text ws ∧ ws.length ≤ 4 ∧
      InRange 4 (ws.map fun w => value w % 2 ^ 32) ∧
      n.toNat = denoted 4 (ws.map fun w => value w % 2 ^ 32) := by
  constructor
  · intro h
    obtain ⟨os, loop⟩ := octets_of_doaton h
    obtain ⟨ws, rfl, short, dotted⟩ := octetsLoop_dotted.mp loop
    obtain ⟨taken, refused⟩ := doaton_octets loop
    rw [toNat_wrapped] at taken refused
    by_cases range : InRange 4 (ws.map fun w => value w % 2 ^ 32)
    · obtain ⟨n', same, number⟩ := taken range
      obtain rfl := Option.some.inj (same.symm.trans h)
      exact ⟨ws, dotted, short, range, number⟩
    · rw [refused range] at h
      cases h
  · rintro ⟨ws, dotted, short, range, number⟩
    obtain ⟨taken, -⟩ := doaton_octets (octetsLoop_dotted.mpr ⟨ws, rfl, short, dotted⟩)
    rw [toNat_wrapped] at taken
    obtain ⟨n', same, number'⟩ := taken range
    rw [same, UInt32.toNat_inj.mp (number'.trans number.symm)]

theorem atonIpv4_iff {text : List UInt8} {a : InAddr} :
    atonIpv4 text = (0, a) ↔ ∃ ws, Dotted text ws ∧ ws.length ≤ 4 ∧
      InRange 4 (ws.map fun w => value w % 2 ^ 32) ∧
      a.number = denoted 4 (ws.map fun w => value w % 2 ^ 32) := by
  rw [atonIpv4]
  constructor
  · intro h
    cases word : doaton text with
    | none => rw [word] at h; cases h
    | some n =>
        rw [word] at h
        obtain ⟨-, rfl⟩ := Prod.mk.inj h
        rw [ofWord_number]
        exact doaton_eq_some.mp word
  · rintro ⟨ws, dotted, short, range, number⟩
    have word : doaton text = some (UInt32.ofNat a.number) := by
      refine doaton_eq_some.mpr ⟨ws, dotted, short, range, ?_⟩
      rw [UInt32.toNat_ofNat_of_lt' (number_lt a), number]
    rw [word]
    refine Prod.ext rfl (number_injective ?_)
    rw [ofWord_number, UInt32.toNat_ofNat_of_lt' (number_lt a)]

/-! ## The promise -/

theorem inRange_lt {bytes : Nat} (four : bytes ≤ 4) {ns : List Nat} (h : InRange bytes ns) :
    ∀ n ∈ ns, n < 2 ^ 32 := by
  induction ns generalizing bytes with
  | nil => exact h.elim
  | cons n ns ih =>
      cases ns with
      | nil =>
          intro m hm
          rw [List.mem_singleton.mp hm]
          exact Nat.lt_of_lt_of_le h (Nat.pow_le_pow_right (by decide) four)
      | cons n' ns =>
          intro m hm
          rcases List.mem_cons.mp hm with rfl | hm
          · exact Nat.lt_of_le_of_lt h.1 (by decide)
          · exact ih (Nat.le_trans (Nat.sub_le _ _) four) h.2 m hm

theorem map_mod_of_lt {ws : List (List UInt8)} (h : ∀ w ∈ ws, value w < 2 ^ 32) :
    (ws.map fun w => value w % 2 ^ 32) = ws.map value :=
  List.map_congr_left fun w hw => Nat.mod_eq_of_lt (h w hw)

def Valid (text : List UInt8) (ws : List (List UInt8)) : Prop :=
  Dotted text ws ∧ ws.length ≤ 4 ∧ InRange 4 (ws.map value)

def Accepted (text : List UInt8) : Prop := (atonIpv4 text).1 = 0

def Meets (text : List UInt8) : Prop :=
  (Accepted text ↔ ∃ ws, Valid text ws) ∧
    ∀ ws, Accepted text → Dotted text ws → (atonIpv4 text).2.number = denoted 4 (ws.map value)

def Wraps (text : List UInt8) : Prop :=
  ∃ ws, Dotted text ws ∧ ws.length ≤ 4 ∧ (∃ w ∈ ws, 2 ^ 32 ≤ value w) ∧
    InRange 4 (ws.map fun w => value w % 2 ^ 32)

theorem accepted_iff {text : List UInt8} :
    Accepted text ↔ ∃ ws, Dotted text ws ∧ ws.length ≤ 4 ∧
      InRange 4 (ws.map fun w => value w % 2 ^ 32) := by
  constructor
  · intro h
    obtain ⟨ws, dotted, short, range, -⟩ := atonIpv4_iff.mp (Prod.ext h rfl)
    exact ⟨ws, dotted, short, range⟩
  · rintro ⟨ws, dotted, short, range⟩
    obtain ⟨taken, -⟩ := doaton_octets (octetsLoop_dotted.mpr ⟨ws, rfl, short, dotted⟩)
    rw [toNat_wrapped] at taken
    obtain ⟨n, word, -⟩ := taken range
    rw [Accepted, atonIpv4, word]

theorem meets_iff (text : List UInt8) : Meets text ↔ ¬ Wraps text := by
  constructor
  · rintro ⟨accepted, -⟩ ⟨ws, dotted, short, ⟨w, hw, large⟩, range⟩
    obtain ⟨ws', dotted', -, range'⟩ := accepted.mp (accepted_iff.mpr ⟨ws, dotted, short, range⟩)
    obtain rfl := dotted.unique dotted'
    have small := inRange_lt (Nat.le_refl 4) range' (value w) (List.mem_map_of_mem hw)
    omega
  · intro no
    have small : ∀ ws, Dotted text ws → ws.length ≤ 4 →
        InRange 4 (ws.map fun w => value w % 2 ^ 32) → ∀ w ∈ ws, value w < 2 ^ 32 := by
      intro ws dotted short range w hw
      exact Nat.not_le.mp fun large => no ⟨ws, dotted, short, ⟨w, hw, large⟩, range⟩
    refine ⟨⟨?_, ?_⟩, ?_⟩
    · intro h
      obtain ⟨ws, dotted, short, range⟩ := accepted_iff.mp h
      refine ⟨ws, dotted, short, ?_⟩
      rw [← map_mod_of_lt (small ws dotted short range)]
      exact range
    · rintro ⟨ws, dotted, short, range⟩
      refine accepted_iff.mpr ⟨ws, dotted, short, ?_⟩
      rw [map_mod_of_lt fun w hw => inRange_lt (Nat.le_refl 4) range _ (List.mem_map_of_mem hw)]
      exact range
    · intro ws h dotted
      obtain ⟨ws', dotted', short, range, number⟩ := atonIpv4_iff.mp (Prod.ext h rfl)
      obtain rfl := dotted.unique dotted'
      rw [number, map_mod_of_lt (small ws dotted short range)]

/-! ## What is written is read back -/

theorem octetText_number : ∀ octet : UInt8,
    IsNumber (octetText octet) ∧ value (octetText octet) = octet.toNat := by
  have checked : ∀ n ∈ List.range 256,
      octetText (UInt8.ofNat n) ≠ [] ∧
        (octetText (UInt8.ofNat n)).all (IsDigit (baseOf (octetText (UInt8.ofNat n)))) ∧
        value (octetText (UInt8.ofNat n)) = n := by
    decide +kernel
  intro octet
  have h := checked octet.toNat (List.mem_range.mpr octet.toNat_lt)
  rw [UInt8.ofNat_toNat] at h
  exact ⟨⟨h.1, fun c mem => of_decide_eq_true (List.all_eq_true.mp h.2.1 c mem)⟩, h.2.2⟩

theorem aton_ntoa (a : InAddr) : atonIpv4 (ntoaIpv4 a) = (0, a) := by
  obtain ⟨number0, value0⟩ := octetText_number a.addr0
  obtain ⟨number1, value1⟩ := octetText_number a.addr1
  obtain ⟨number2, value2⟩ := octetText_number a.addr2
  obtain ⟨number3, value3⟩ := octetText_number a.addr3
  have dotted := Dotted.more _ _ _ number0 (Dotted.more _ _ _ number1
    (Dotted.more _ _ _ number2 (Dotted.last _ number3)))
  have le255 : ∀ octet : UInt8, octet.toNat ≤ 255 := fun octet => Nat.le_of_lt_succ octet.toNat_lt
  have range : InRange 4 [a.addr0.toNat, a.addr1.toNat, a.addr2.toNat, a.addr3.toNat] :=
    ⟨le255 _, le255 _, le255 _, a.addr3.toNat_lt⟩
  have values := congrArg₂ List.cons value0 (congrArg₂ List.cons value1
    (congrArg₂ List.cons value2 (congrArg₂ List.cons value3 (rfl : ([] : List Nat) = []))))
  rw [← values] at range
  refine atonIpv4_iff.mpr ⟨_, dotted, Nat.le_refl 4, ?_⟩
  rw [map_mod_of_lt fun w hw => inRange_lt (Nat.le_refl 4) range _ (List.mem_map_of_mem hw)]
  refine ⟨range, ?_⟩
  simp only [List.map_cons, List.map_nil, value0, value1, value2, value3, InAddr.number, denoted]
  omega

/-- Every address written is read back, and a text gets its due if and only if none of its
numbers is lost beyond 32 bits. -/
theorem address_iff (a : InAddr) (text : List UInt8) :
    atonIpv4 (ntoaIpv4 a) = (0, a) ∧ (Meets text ↔ ¬ Wraps text) :=
  ⟨aton_ntoa a, meets_iff text⟩

theorem wrapped_zero : ¬ Meets (str "4294967296") ∧
    atonIpv4 (str "4294967296") = (0, ⟨0, 0, 0, 0⟩) := by
  refine ⟨fun h => (meets_iff _).mp h ?_, by decide +kernel⟩
  refine ⟨[str "4294967296"], Dotted.last _ ⟨by decide, by decide +kernel⟩, by decide,
    ?_, ?_⟩
  · exact ⟨_, List.mem_singleton_self _, by decide +kernel⟩
  · exact (by decide +kernel : value (str "4294967296") % 2 ^ 32 < 256 ^ 4)

end Cone.Rfc1035An
