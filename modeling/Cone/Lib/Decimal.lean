import Cone.Ctype

/-! # Decimal numbers

`decimal` is what `printf` writes for `%d`, `atoi` what the C library reads; neither knows an
upper bound. -/
set_option autoImplicit false
namespace Cone.Lib.Decimal

open Cone.Ctype

def decimal (n : Nat) : List UInt8 := (Nat.toDigits 10 n).map byte

def isdigit (c : UInt8) : Bool := byte '0' ≤ c && c ≤ byte '9'

def readDigits (p : List UInt8) : Nat :=
  (p.takeWhile isdigit).foldl (fun n c => 10 * n + (c.toNat - (byte '0').toNat)) 0

def atoi (p : List UInt8) : Int :=
  match p.dropWhile isspace with
  | [] => 0
  | c :: q =>
    if c = byte '-' then -(readDigits q : Int)
    else if c = byte '+' then readDigits q
    else readDigits (c :: q)

section Digits
variable {c : Char}

theorem toNat_byte_of_isDigit (hc : c.isDigit = true) : (byte c).toNat = c.toNat := by
  simp only [Char.isDigit, Bool.and_eq_true, decide_eq_true_eq, UInt32.le_iff_toNat_le] at hc
  have hlt : c.toNat < 256 := lt_of_le_of_lt hc.2 (by decide)
  simp only [byte, UInt8.toNat_ofNat']
  omega

theorem isdigit_byte (hc : c.isDigit = true) : isdigit (byte c) = true := by
  have hval := toNat_byte_of_isDigit hc
  simp only [Char.isDigit, Bool.and_eq_true, decide_eq_true_eq, UInt32.le_iff_toNat_le] at hc
  simp only [isdigit, Bool.and_eq_true, decide_eq_true_eq, UInt8.le_iff_toNat_le, hval]
  exact hc

theorem isdigit_of_mem_decimal {n : Nat} {b : UInt8} (hb : b ∈ decimal n) : isdigit b = true := by
  obtain ⟨c, hc, rfl⟩ := List.mem_map.mp hb
  exact isdigit_byte (Nat.isDigit_of_mem_toDigits (by decide) (by decide) hc)

theorem foldl_digits (cs : List Char) (hcs : ∀ c ∈ cs, c.isDigit = true) (n : Nat) :
    (cs.map byte).foldl (fun n c => 10 * n + (c.toNat - (byte '0').toNat)) n =
      Nat.ofDigitChars 10 cs n := by
  induction cs generalizing n with
  | nil => rfl
  | cons c cs ih =>
      rw [List.map_cons, List.foldl_cons, ih fun d hd => hcs d (List.mem_cons_of_mem _ hd),
        Nat.ofDigitChars_cons, toNat_byte_of_isDigit (hcs c List.mem_cons_self)]
      rfl

end Digits

theorem readDigits_decimal (n : Nat) {rest : List UInt8}
    (hrest : ∀ c ∈ rest.head?, isdigit c = false) : readDigits (decimal n ++ rest) = n := by
  have hspan : (decimal n ++ rest).takeWhile isdigit = decimal n := by
    rw [List.takeWhile_append_of_pos fun c => isdigit_of_mem_decimal]
    cases rest with
    | nil => simp
    | cons c rest => simp [hrest c (by simp)]
  rw [readDigits, hspan, decimal,
    foldl_digits _ fun c hc => Nat.isDigit_of_mem_toDigits (by decide) (by decide) hc,
    Nat.ofDigitChars_ten_toDigits]

theorem decimal_ne_nil (n : Nat) : decimal n ≠ [] := by
  simp [decimal, Nat.toDigits_ne_nil]

theorem isdigit_facts : ∀ c, isdigit c = true → isspace c = false ∧ c ≠ byte '-' ∧ c ≠ byte '+' :=
  forall_byte (by decide +kernel)

theorem atoi_decimal (n : Nat) {rest : List UInt8}
    (hrest : ∀ c ∈ rest.head?, isdigit c = false) : atoi (decimal n ++ rest) = n := by
  have hread := readDigits_decimal n hrest
  obtain ⟨c, q, hcq⟩ := List.exists_cons_of_ne_nil (decimal_ne_nil n)
  obtain ⟨hspace, hminus, hplus⟩ :=
    isdigit_facts c (isdigit_of_mem_decimal (n := n) (by simp [hcq]))
  rw [hcq, List.cons_append] at hread ⊢
  rw [atoi, List.dropWhile_cons_of_neg (by simp [hspace])]
  simp only [if_neg hminus, if_neg hplus, hread]

theorem decimal_injective {m n : Nat} (h : decimal m = decimal n) : m = n := by
  have hm : readDigits (decimal m ++ []) = m := readDigits_decimal m (by simp)
  rw [h, readDigits_decimal n (by simp)] at hm
  exact hm.symm

theorem lt_length_decimal {k n : Nat} (hk : 0 < k) (hn : 10 ^ k ≤ n) : k < (decimal n).length := by
  by_contra hle
  have hlen : (Nat.toDigits 10 n).length ≤ k := by simpa [decimal] using hle
  rw [Nat.length_toDigits_le_iff (by decide) hk] at hlen
  omega

/-- No leading zeros. -/
theorem head_decimal (n : Nat) : (decimal n).head? = some (byte '0') ↔ n = 0 := by
  induction n using Nat.strongRecOn with
  | ind n ih =>
      by_cases hn : n < 10
      · have hcases : ∀ n < 10, (decimal n).head? = some (byte '0') ↔ n = 0 := by decide
        exact hcases n hn
      · have hrec := ih (n / 10) (by omega)
        have hhead : (decimal n).head? = (decimal (n / 10)).head? := by
          rw [decimal, Nat.toDigits_of_base_le (by decide) (by omega), List.map_append]
          exact List.head?_append_of_ne_nil _ (decimal_ne_nil _)
        rw [hhead, hrec]
        omega

end Cone.Lib.Decimal
