import Cone.Ctype

/-! # The bits of a byte string

The bits of each byte from the highest to the lowest, and byte strings that agree in their first
bits. -/
set_option autoImplicit false
namespace Cone.Lib.ByteBits

open Cone.Ctype

section Bytes

def byteBits (c : UInt8) : List Bool := [7, 6, 5, 4, 3, 2, 1, 0].map c.toNat.testBit

def ofBits (l : List Bool) : UInt8 := UInt8.ofNat (l.foldl (fun n b => 2 * n + b.toNat) 0)

/-- The first `k` bits of a byte. -/
def mask (k : Nat) : UInt8 := UInt8.ofNat (255 * 2 ^ (8 - k))

theorem length_byteBits (c : UInt8) : (byteBits c).length = 8 := rfl

theorem ofBits_byteBits (c : UInt8) : ofBits (byteBits c) = c := by
  revert c
  exact forall_byte (by decide +kernel)

theorem byteBits_injective {c d : UInt8} (h : byteBits c = byteBits d) : c = d := by
  rw [← ofBits_byteBits c, h, ofBits_byteBits]

theorem byteBits_ofBits {l : List Bool} (h : l.length = 8) : byteBits (ofBits l) = l := by
  match l, h with
  | [a, b, c, d, e, f, g, i], _ =>
    revert a b c d e f g i
    decide +kernel

theorem and_mask (c : UInt8) : ∀ k : Fin 9,
    c &&& mask k = ofBits ((byteBits c).take k ++ List.replicate (8 - k) false) := by
  revert c
  exact forall_byte (by decide +kernel)

theorem take_and_mask (c : UInt8) (k : Fin 9) :
    (byteBits (c &&& mask k)).take k = (byteBits c).take k := by
  have hk : k.val ≤ 8 := Nat.le_of_lt_succ k.isLt
  have htake : ((byteBits c).take k).length = k := by
    rw [List.length_take, length_byteBits, Nat.min_eq_left hk]
  have hlen : ((byteBits c).take k ++ List.replicate (8 - k) false).length = 8 := by
    rw [List.length_append, htake, List.length_replicate, Nat.add_sub_cancel' hk]
  rw [and_mask, byteBits_ofBits hlen, List.take_left' htake]

theorem and_mask_eq_iff {k : Nat} (hk : k ≤ 8) (c d : UInt8) :
    c &&& mask k = d &&& mask k ↔ (byteBits c).take k = (byteBits d).take k := by
  constructor
  · intro h
    have hc := take_and_mask c ⟨k, by omega⟩
    have hd := take_and_mask d ⟨k, by omega⟩
    dsimp only at hc hd
    rw [← hc, ← hd, h]
  · intro h
    have hc := and_mask c ⟨k, by omega⟩
    have hd := and_mask d ⟨k, by omega⟩
    dsimp only at hc hd
    rw [hc, hd, h]

end Bytes

section Strings

def bits (l : List UInt8) : List Bool := l.flatMap byteBits

theorem bits_cons (c : UInt8) (l : List UInt8) : bits (c :: l) = byteBits c ++ bits l :=
  List.flatMap_cons

theorem bits_append (l l' : List UInt8) : bits (l ++ l') = bits l ++ bits l' :=
  List.flatMap_append

theorem length_bits (l : List UInt8) : (bits l).length = 8 * l.length := by
  induction l with
  | nil => rfl
  | cons c l ih =>
      rw [bits_cons, List.length_append, length_byteBits, ih, List.length_cons]
      omega

theorem bits_injective {l l' : List UInt8} (h : bits l = bits l') : l = l' := by
  induction l generalizing l' with
  | nil =>
      cases l' with
      | nil => rfl
      | cons d l' => exact absurd h.symm (by rw [bits_cons]; exact List.cons_ne_nil _ _)
  | cons c l ih =>
      cases l' with
      | nil => exact absurd h (by rw [bits_cons]; exact List.cons_ne_nil _ _)
      | cons d l' =>
          rw [bits_cons, bits_cons] at h
          obtain ⟨hc, hl⟩ := List.append_inj h rfl
          rw [byteBits_injective hc, ih hl]

theorem exists_bits {k : Nat} {l : List Bool} (h : l.length = 8 * k) :
    ∃ s : List UInt8, s.length = k ∧ bits s = l := by
  induction k generalizing l with
  | zero => exact ⟨[], rfl, (List.length_eq_zero_iff.1 h).symm⟩
  | succ k ih =>
      obtain ⟨s, hs, hbits⟩ := @ih (l.drop 8) (by rw [List.length_drop]; omega)
      refine ⟨ofBits (l.take 8) :: s, by rw [List.length_cons, hs], ?_⟩
      rw [bits_cons, byteBits_ofBits (by rw [List.length_take]; omega), hbits,
        List.take_append_drop]

def Agree (n : Nat) (a b : List UInt8) : Prop := (bits a).take n = (bits b).take n

instance (n : Nat) (a b : List UInt8) : Decidable (Agree n a b) :=
  inferInstanceAs (Decidable ((bits a).take n = (bits b).take n))

theorem Agree.refl (n : Nat) (a : List UInt8) : Agree n a a := rfl

theorem Agree.symm {n : Nat} {a b : List UInt8} (h : Agree n a b) : Agree n b a := Eq.symm h

theorem Agree.trans {n : Nat} {a b c : List UInt8} (h : Agree n a b) (h' : Agree n b c) :
    Agree n a c := Eq.trans h h'

theorem Agree.mono {m n : Nat} {a b : List UInt8} (h : Agree n a b) (hle : m ≤ n) :
    Agree m a b := by
  have htake := congrArg (List.take m) h
  rwa [List.take_take, List.take_take, Nat.min_eq_left hle] at htake

theorem agree_append {n : Nat} {a a' b b' : List UInt8} (h : a.length = a'.length) :
    Agree (8 * a.length + n) (a ++ b) (a' ++ b') ↔ a = a' ∧ Agree n b b' := by
  have hlen := length_bits a
  have hlen' := length_bits a'
  have htake : ∀ {c d : List UInt8}, c.length = a.length →
      (bits (c ++ d)).take (8 * a.length + n) = bits c ++ (bits d).take n := by
    intro c d hc
    rw [bits_append, ← hc, ← length_bits c, List.take_length_add_append]
  rw [Agree, htake rfl, htake h.symm, Agree]
  constructor
  · intro he
    obtain ⟨hab, hn⟩ := List.append_inj he (by rw [hlen, hlen', h])
    exact ⟨bits_injective hab, hn⟩
  · rintro ⟨rfl, hn⟩
    rw [hn]

/-- Shorter than the first string, only the first string counts. -/
theorem agree_append_left {n : Nat} {a b b' : List UInt8} (h : n ≤ 8 * a.length) :
    Agree n (a ++ b) (a ++ b') := by
  have hlen := length_bits a
  rw [Agree, bits_append, bits_append, List.take_append_of_le_length (by omega),
    List.take_append_of_le_length (by omega)]

/-- A byte string that agrees in `n` bits and no more. -/
theorem exists_agree {n : Nat} {a : List UInt8} (h : n < 8 * a.length) :
    ∃ b : List UInt8, b.length = a.length ∧ Agree n a b ∧ ∀ m, n < m → ¬ Agree m a b := by
  have hlen := length_bits a
  obtain ⟨b, hb, hbits⟩ := @exists_bits a.length ((bits a).set n (!(bits a)[n]))
    (by rw [List.length_set, hlen])
  refine ⟨b, hb, ?_, fun m hm hagree => ?_⟩
  · rw [Agree, hbits, List.take_set_of_le (Nat.le_refl n)]
  · have hbit := congrArg (·[n]?) hagree
    simp only [List.getElem?_take, hm, if_true, hbits] at hbit
    rw [List.getElem?_set_self (by omega), List.getElem?_eq_getElem (by omega)] at hbit
    exact absurd (Option.some.inj hbit) (by simp)

end Strings
end Cone.Lib.ByteBits
