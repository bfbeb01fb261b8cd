import Mathlib.Data.UInt
import Mathlib.Data.List.Basic

/-! # Bytes and the C library's character classes

The sources work on `char` and `unsigned char`; a byte here is a `UInt8`, so a test such as
`*p < ' ' || *p >= 0x7F` reads the same whether `char` is signed or not.  The classes are the
ones of the "C" locale. -/
set_option autoImplicit false
namespace Cone.Ctype

abbrev NUL : UInt8 := 0
abbrev TAB : UInt8 := 9
abbrev NL : UInt8 := 10
abbrev CR : UInt8 := 13
abbrev SP : UInt8 := 32

def byte (c : Char) : UInt8 := UInt8.ofNat c.toNat

def str (s : String) : List UInt8 := s.toList.map byte

def isspace (c : UInt8) : Bool := c = SP || (TAB ≤ c && c ≤ CR)

def xdigit : List UInt8 :=
  ['0', '1', '2', '3', '4', '5', '6', '7', '8', '9', 'A', 'B', 'C', 'D', 'E', 'F'].map byte

/-- `strchr(tab, c)-tab` for `c` other than the terminating zero. -/
def strchr (tab : List UInt8) (c : UInt8) : Option Nat := tab.idxOf? c

theorem forall_byte {p : UInt8 → Prop} (h : ∀ n : Fin 256, p (UInt8.ofFin n)) (b : UInt8) : p b := by
  have hb := h b.toFin
  simpa using hb

end Cone.Ctype
