import Mathlib.Data.Nat.Basic

/-! # Class tables of code points (`unicode_tablookup.c`)

A table is three arrays: where the ranges of a block of 256 code points begin, the ranges, and
the class of each range.  The tables themselves are generated files and stay parameters. -/
set_option autoImplicit false
namespace Cone.UnicodeTablookup

structure Tables (K : Type) where
  indextab : Array Nat
  rangetab : Array (UInt8 × UInt8)
  classtab : Array K

section Lookup
variable {K : Type}

def blockSize : Nat := 256

/-- `while (b < e)` over the ranges of one block. -/
def search (t : Tables K) (uclass : K) (startPos : Nat) (chmodcl : UInt8) (b e : Nat) : K :=
  if b < e then
    let n := b + (e - b) / 2
    let p := t.rangetab.getD (startPos + n) (0, 0)
    if p.1 ≤ chmodcl then
      if chmodcl ≤ p.2 then t.classtab.getD (startPos + n) uclass
      else search t uclass startPos chmodcl (n + 1) e
    else search t uclass startPos chmodcl b n
  else uclass
termination_by e - b

def unicodeTabLookup (ch : UInt32) (t : Tables K) (uclass : K) : K :=
  let cl := ch.toNat / blockSize
  if cl < t.indextab.size - 1 then
    let startPos := t.indextab.getD cl 0
    search t uclass startPos ch.toUInt8 0 (t.indextab.getD (cl + 1) 0 - startPos)
  else uclass

end Lookup

end Cone.UnicodeTablookup
