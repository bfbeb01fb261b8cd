import Mathlib.Data.Nat.Bitwise

/-! # Radix-64 quanta

Three octets are four sextets.  The shifts and masks are those every base64 coder writes; the
lemmas read them as arithmetic, so that undoing a quantum is linear arithmetic.  The operands
are natural numbers: `octet` results are to be taken modulo 256. -/
set_option autoImplicit false
namespace Cone.Lib.Radix64

def sextet0 (a : Nat) : Nat := a >>> 2
def sextet1 (a b : Nat) : Nat := ((a &&& 3) <<< 4) ||| (b >>> 4)
def sextet2 (b c : Nat) : Nat := ((b &&& 15) <<< 2) ||| (c >>> 6)
def sextet3 (c : Nat) : Nat := c &&& 63

def octet0 (w x : Nat) : Nat := (w <<< 2) ||| (x >>> 4)
def octet1 (x y : Nat) : Nat := (x <<< 4) ||| (y >>> 2)
def octet2 (y z : Nat) : Nat := (y <<< 6) ||| z

theorem shiftLeft_or_eq (a b i : Nat) (hb : b < 2 ^ i) : (a <<< i) ||| b = a * 2 ^ i + b := by
  rw [Nat.shiftLeft_eq, Nat.mul_comm, ← Nat.two_pow_add_eq_or_of_lt hb]

theorem sextet0_eq (a : Nat) : sextet0 a = a / 4 := Nat.shiftRight_eq_div_pow a 2

theorem sextet1_eq (a b : Nat) (hb : b < 256) : sextet1 a b = a % 4 * 16 + b / 16 := by
  have hmask : a &&& 3 = a % 4 := Nat.and_two_pow_sub_one_eq_mod a 2
  have hshift : b >>> 4 = b / 16 := Nat.shiftRight_eq_div_pow b 4
  rw [sextet1, hmask, hshift]
  exact shiftLeft_or_eq _ _ 4 (by omega)

theorem sextet2_eq (b c : Nat) (hc : c < 256) : sextet2 b c = b % 16 * 4 + c / 64 := by
  have hmask : b &&& 15 = b % 16 := Nat.and_two_pow_sub_one_eq_mod b 4
  have hshift : c >>> 6 = c / 64 := Nat.shiftRight_eq_div_pow c 6
  rw [sextet2, hmask, hshift]
  exact shiftLeft_or_eq _ _ 2 (by omega)

theorem sextet3_eq (c : Nat) : sextet3 c = c % 64 := Nat.and_two_pow_sub_one_eq_mod c 6

theorem octet0_eq (w x : Nat) (hx : x < 64) : octet0 w x = w * 4 + x / 16 := by
  have hshift : x >>> 4 = x / 16 := Nat.shiftRight_eq_div_pow x 4
  rw [octet0, hshift]
  exact shiftLeft_or_eq _ _ 2 (by omega)

theorem octet1_eq (x y : Nat) (hy : y < 64) : octet1 x y = x * 16 + y / 4 := by
  have hshift : y >>> 2 = y / 4 := Nat.shiftRight_eq_div_pow y 2
  rw [octet1, hshift]
  exact shiftLeft_or_eq _ _ 4 (by omega)

theorem octet2_eq (y z : Nat) (hz : z < 64) : octet2 y z = y * 64 + z :=
  shiftLeft_or_eq y z 6 (by omega)

section Quantum
variable {a b c : Nat}

theorem sextet0_lt (ha : a < 256) : sextet0 a < 64 := by rw [sextet0_eq]; omega

theorem sextet1_lt (hb : b < 256) : sextet1 a b < 64 := by rw [sextet1_eq a b hb]; omega

theorem sextet2_lt (hc : c < 256) : sextet2 b c < 64 := by rw [sextet2_eq b c hc]; omega

theorem sextet3_lt : sextet3 c < 64 := by rw [sextet3_eq]; omega

theorem octet0_sextets (hb : b < 256) : octet0 (sextet0 a) (sextet1 a b) = a := by
  rw [octet0_eq _ _ (sextet1_lt hb), sextet0_eq, sextet1_eq a b hb]
  omega

theorem octet1_sextets (hb : b < 256) (hc : c < 256) :
    octet1 (sextet1 a b) (sextet2 b c) % 256 = b := by
  rw [octet1_eq _ _ (sextet2_lt hc), sextet1_eq a b hb, sextet2_eq b c hc]
  omega

theorem octet2_sextets (hc : c < 256) : octet2 (sextet2 b c) (sextet3 c) % 256 = c := by
  rw [octet2_eq _ _ sextet3_lt, sextet2_eq b c hc, sextet3_eq]
  omega

end Quantum

end Cone.Lib.Radix64
