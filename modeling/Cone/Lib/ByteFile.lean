import Cone.Ctype

/-! # Files of bytes

A file that is read and written in blocks at positions, and 64-bit words in it, lowest byte
first. -/
set_option autoImplicit false
namespace Cone.Lib.ByteFile

abbrev Bytes := List UInt8

section Blocks

def readAt (file : Bytes) (pos n : Nat) : Option Bytes :=
  if pos + n ≤ file.length then some ((file.drop pos).take n) else none

def writeAt (file : Bytes) (pos : Nat) (block : Bytes) : Bytes :=
  file.take pos ++ block ++ file.drop (pos + block.length)

variable {file block a b : Bytes} {pos n p m : Nat}

theorem length_writeAt (h : pos + block.length ≤ file.length) :
    (writeAt file pos block).length = file.length := by
  rw [writeAt, List.length_append, List.length_append, List.length_take, List.length_drop]
  omega

theorem readAt_writeAt (h : pos + block.length ≤ file.length) :
    readAt (writeAt file pos block) pos block.length = some block := by
  have hpos : (file.take pos).length = pos := by rw [List.length_take]; omega
  rw [readAt, length_writeAt h, if_pos h, writeAt, List.append_assoc]
  nth_rewrite 1 [← hpos]
  rw [List.drop_left, List.take_left]

theorem getElem?_writeAt_of_lt {i : Nat} (h : pos + block.length ≤ file.length) (hi : i < pos) :
    (writeAt file pos block)[i]? = file[i]? := by
  have hlen : (file.take pos).length = pos := by rw [List.length_take]; omega
  rw [writeAt, List.append_assoc, List.getElem?_append_left (by omega), List.getElem?_take,
    if_pos hi]

theorem getElem?_writeAt_of_ge {i : Nat} (h : pos + block.length ≤ file.length)
    (hi : pos + block.length ≤ i) : (writeAt file pos block)[i]? = file[i]? := by
  have hlen : (file.take pos ++ block).length = pos + block.length := by
    rw [List.length_append, List.length_take]
    omega
  rw [writeAt, List.getElem?_append_right (by omega), hlen, List.getElem?_drop]
  congr 1
  omega

theorem readAt_congr {after : Bytes} (hlen : after.length = file.length)
    (h : ∀ i, p ≤ i → i < p + n → after[i]? = file[i]?) :
    readAt after p n = readAt file p n := by
  rw [readAt, readAt, hlen]
  split
  · refine congrArg some (List.ext_getElem? fun i => ?_)
    rw [List.getElem?_take, List.getElem?_take]
    split
    · rw [List.getElem?_drop, List.getElem?_drop]
      exact h _ (by omega) (by omega)
    · rfl
  · rfl

theorem readAt_writeAt_of_disjoint (h : pos + block.length ≤ file.length)
    (apart : p + n ≤ pos ∨ pos + block.length ≤ p) :
    readAt (writeAt file pos block) p n = readAt file p n := by
  refine readAt_congr (length_writeAt h) fun i hi hi' => ?_
  rcases apart with hbefore | hbehind
  · exact getElem?_writeAt_of_lt h (by omega)
  · exact getElem?_writeAt_of_ge h (by omega)

theorem length_readAt (h : readAt file p n = some a) : a.length = n ∧ p + n ≤ file.length := by
  rw [readAt] at h
  split at h
  · next hle =>
      obtain rfl := Option.some.inj h
      refine ⟨?_, hle⟩
      rw [List.length_take, List.length_drop]
      omega
  · cases h

/-- A block in two parts. -/
theorem readAt_append (ha : a.length = n) (hb : b.length = m) :
    readAt file p (n + m) = some (a ++ b) ↔
      readAt file p n = some a ∧ readAt file (p + n) m = some b := by
  constructor
  · intro h
    have hle := (length_readAt h).2
    rw [readAt, if_pos hle, Option.some.injEq, List.take_add, List.drop_drop] at h
    obtain ⟨h1, h2⟩ := List.append_inj h (by
      rw [List.length_take, List.length_drop, ha]
      omega)
    exact ⟨by rw [readAt, if_pos (by omega), h1], by rw [readAt, if_pos (by omega), h2]⟩
  · rintro ⟨h1, h2⟩
    have hle := (length_readAt h2).2
    rw [readAt, if_pos (by omega), Option.some.injEq] at h1 h2
    rw [readAt, if_pos (by omega), List.take_add, List.drop_drop, h1, h2]

theorem writeAt_append (h : pos + (a ++ b).length ≤ file.length) :
    writeAt file pos (a ++ b) = writeAt (writeAt file pos a) (pos + a.length) b := by
  rw [List.length_append] at h
  have hlen : (file.take pos ++ a).length = pos + a.length := by
    rw [List.length_append, List.length_take]
    omega
  have hbehind : (writeAt file pos a).drop (pos + a.length + b.length) =
      file.drop (pos + a.length + b.length) := by
    rw [writeAt, ← List.drop_drop, List.drop_left' hlen, List.drop_drop]
  rw [writeAt, writeAt.eq_1 (writeAt file pos a), hbehind, writeAt, List.take_left' hlen,
    List.length_append, List.append_assoc, List.append_assoc, List.append_assoc, List.append_assoc,
    Nat.add_assoc]

end Blocks

section Changes

structure SameOutside (file after : Bytes) (p q : Nat) : Prop where
  length : after.length = file.length
  bytes : ∀ i, i < p ∨ q ≤ i → after[i]? = file[i]?

variable {file after last block : Bytes} {p q p₁ q₁ pos n : Nat}

theorem SameOutside.refl : SameOutside file file p q := ⟨rfl, fun _ _ => rfl⟩

theorem SameOutside.trans (h : SameOutside file after p q) (h₁ : SameOutside after last p q) :
    SameOutside file last p q :=
  ⟨h₁.length.trans h.length, fun i hi => (h₁.bytes i hi).trans (h.bytes i hi)⟩

theorem SameOutside.mono (h : SameOutside file after p q) (hp : p₁ ≤ p) (hq : q ≤ q₁) :
    SameOutside file after p₁ q₁ :=
  ⟨h.length, fun i hi => h.bytes i (by omega)⟩

theorem sameOutside_writeAt (h : pos + block.length ≤ file.length) :
    SameOutside file (writeAt file pos block) pos (pos + block.length) :=
  ⟨length_writeAt h, fun _ hi =>
    hi.elim (getElem?_writeAt_of_lt h) (getElem?_writeAt_of_ge h)⟩

theorem SameOutside.readAt (h : SameOutside file after p q) (apart : pos + n ≤ p ∨ q ≤ pos) :
    readAt after pos n = readAt file pos n :=
  readAt_congr h.length fun i hi hi' => h.bytes i (by omega)

end Changes

section Words

def word (n : Nat) : Bytes := (List.range 8).map fun i => UInt8.ofNat (n / 256 ^ i)

def unword (p : Bytes) : Nat := p.foldr (fun c n => c.toNat + 256 * n) 0

theorem length_word (n : Nat) : (word n).length = 8 := rfl

theorem unword_word {n : Nat} (h : n < 2 ^ 64) : unword (word n) = n := by
  simp only [unword, word, List.range_succ, List.range_zero, List.nil_append,
    List.map_cons, List.map_nil, List.cons_append, List.foldr_cons, List.foldr_nil,
    UInt8.toNat_ofNat']
  omega

end Words
end Cone.Lib.ByteFile
