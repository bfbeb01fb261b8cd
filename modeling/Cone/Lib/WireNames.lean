import Cone.Ctype
import Mathlib.Logic.Relation
import Mathlib.Tactic.SplitIfs

/-! # Compressed domain names

A name in a message `b` is a chain of labels, each behind its length, that ends with a zero byte
or goes on at the target of a compression pointer.  `Spells` gives the labels of the name at an
offset and the number of its pointers, `Ends` where the name ends in place.  A reader that keeps
to names of 255 bytes and 100 pointers walks by `Move`s; the name `Fits` the message when no walk
leaves it. -/
set_option autoImplicit false
namespace Cone.Lib.WireNames

open Cone.Ctype

/-- What a byte of a name starts. -/
inductive Item where
  | missing
  | root
  | label (l : Nat)
  | reserved
  | cut
  | pointer (target : Nat)
  deriving DecidableEq

section Names
variable (b : List UInt8)

def item (o : Nat) : Item :=
  match b[o]? with
  | none => .missing
  | some l =>
    if l = 0 then .root
    else if l ≤ 63 then .label l.toNat
    else if l < 0xC0 then .reserved
    else match b[o + 1]? with
      | none => .cut
      | some lo => .pointer ((l &&& 63).toNat * 2 ^ 8 + lo.toNat)

inductive Spells : Nat → List (List UInt8) → Nat → Prop where
  | root {o : Nat} (h : item b o = .root) : Spells o [] 0
  | label {o l : Nat} {ls : List (List UInt8)} {k : Nat} (h : item b o = .label l)
      (rest : Spells (o + 1 + l) ls k) : Spells o ((b.drop (o + 1)).take l :: ls) k
  | pointer {o target : Nat} {ls : List (List UInt8)} {k : Nat} (h : item b o = .pointer target)
      (rest : Spells target ls k) : Spells o ls (k + 1)

inductive Ends : Nat → Nat → Prop where
  | root {o : Nat} (h : item b o = .root) : Ends o (o + 1)
  | label {o l e : Nat} (h : item b o = .label l) (rest : Ends (o + 1 + l) e) : Ends o e
  | pointer {o target : Nat} (h : item b o = .pointer target) : Ends o (o + 2)

/-- Where a reader is: the offset, the length of the name so far, the pointers followed. -/
structure Place where
  off : Nat
  len : Nat
  pointers : Nat

/-- The length with a label of `l` bytes, and a dot unless it is the first. -/
def grown (len l : Nat) : Nat := (if len = 0 then 0 else len + 1) + l

inductive Move : Place → Place → Prop where
  | label {p : Place} {l : Nat} (h : item b p.off = .label l) (room : grown p.len l ≤ 255) :
      Move p ⟨p.off + 1 + l, grown p.len l, p.pointers⟩
  | pointer {p : Place} {target : Nat} (h : item b p.off = .pointer target)
      (inside : target < b.length) (few : p.pointers < 100) :
      Move p ⟨target, p.len, p.pointers + 1⟩

def FitsFrom (p : Place) : Prop :=
  ∀ q, Relation.ReflTransGen (Move b) p q → q.off ≤ b.length

/-- Reading the name at `o` stays within the message. -/
def Fits (o : Nat) : Prop := FitsFrom b ⟨o, 0, 0⟩

end Names

section Inversion
variable {b : List UInt8} {o l target : Nat} {ls : List (List UInt8)} {k e : Nat}

theorem item_missing (h : b.length ≤ o) : item b o = .missing := by
  rw [item, List.getElem?_eq_none h]

theorem item_ne_missing (h : o < b.length) : item b o ≠ .missing := by
  rw [item, List.getElem?_eq_getElem h]
  dsimp only
  split_ifs
  · nofun
  · nofun
  · nofun
  · split
    · nofun
    · nofun

theorem item_label (h : item b o = .label l) : 0 < l ∧ l ≤ 63 ∧ o < b.length := by
  have hlt : o < b.length := by
    by_contra hge
    rw [item_missing (Nat.le_of_not_lt hge)] at h
    cases h
  rw [item, List.getElem?_eq_getElem hlt] at h
  dsimp only at h
  split_ifs at h with hzero hle
  · cases h
    have hpos : 0 < b[o].toNat := Nat.pos_of_ne_zero fun h0 => hzero (UInt8.toNat_inj.mp h0)
    exact ⟨hpos, UInt8.le_iff_toNat_le.mp hle, hlt⟩
  · split at h
    · cases h
    · cases h

theorem spells_root (h : item b o = .root) : Spells b o ls k ↔ ls = [] ∧ k = 0 := by
  constructor
  · intro hs
    cases hs with
    | root _ => exact ⟨rfl, rfl⟩
    | label h' _ => cases h.symm.trans h'
    | pointer h' _ => cases h.symm.trans h'
  · intro ⟨hls, hk⟩
    rw [hls, hk]
    exact .root h

theorem spells_label (h : item b o = .label l) :
    Spells b o ls k ↔
      ∃ rest, ls = (b.drop (o + 1)).take l :: rest ∧ Spells b (o + 1 + l) rest k := by
  constructor
  · intro hs
    cases hs with
    | root h' => cases h.symm.trans h'
    | label h' rest =>
        cases h.symm.trans h'
        exact ⟨_, rfl, rest⟩
    | pointer h' _ => cases h.symm.trans h'
  · intro ⟨rest, hls, hs⟩
    rw [hls]
    exact .label h hs

theorem spells_pointer (h : item b o = .pointer target) :
    Spells b o ls k ↔ ∃ k', k = k' + 1 ∧ Spells b target ls k' := by
  constructor
  · intro hs
    cases hs with
    | root h' => cases h.symm.trans h'
    | label h' _ => cases h.symm.trans h'
    | pointer h' rest =>
        cases h.symm.trans h'
        exact ⟨_, rfl, rest⟩
  · intro ⟨k', hk, hs⟩
    rw [hk]
    exact .pointer h hs

def Stuck (i : Item) : Prop := i = .missing ∨ i = .reserved ∨ i = .cut

theorem not_spells (h : Stuck (item b o)) : ¬ Spells b o ls k := by
  intro hs
  unfold Stuck at h
  cases hs with
  | root h' => simp [h'] at h
  | label h' _ => simp [h'] at h
  | pointer h' _ => simp [h'] at h

theorem Spells.lt_length (hs : Spells b o ls k) : o < b.length := by
  by_contra hge
  exact not_spells (Or.inl (item_missing (Nat.le_of_not_lt hge))) hs

theorem Spells.ends (hs : Spells b o ls k) : ∃ e, Ends b o e := by
  induction hs with
  | root h => exact ⟨_, .root h⟩
  | label h _ ih =>
      obtain ⟨e, he⟩ := ih
      exact ⟨e, .label h he⟩
  | pointer h _ _ => exact ⟨_, .pointer h⟩

theorem Ends.lt (he : Ends b o e) : o < e := by
  induction he with
  | root _ => omega
  | label _ _ ih => omega
  | pointer _ => omega

theorem ends_root (h : item b o = .root) : Ends b o e ↔ e = o + 1 := by
  constructor
  · intro he
    cases he with
    | root _ => rfl
    | label h' _ => cases h.symm.trans h'
    | pointer h' => cases h.symm.trans h'
  · intro he
    rw [he]
    exact .root h

theorem ends_label (h : item b o = .label l) : Ends b o e ↔ Ends b (o + 1 + l) e := by
  constructor
  · intro he
    cases he with
    | root h' => cases h.symm.trans h'
    | label h' rest =>
        cases h.symm.trans h'
        exact rest
    | pointer h' => cases h.symm.trans h'
  · intro he
    exact .label h he

theorem ends_pointer (h : item b o = .pointer target) : Ends b o e ↔ e = o + 2 := by
  constructor
  · intro he
    cases he with
    | root h' => cases h.symm.trans h'
    | label h' _ => cases h.symm.trans h'
    | pointer _ => rfl
  · intro he
    rw [he]
    exact .pointer h

end Inversion

section Growing
variable {a b x : List UInt8} {o l target : Nat} {ls : List (List UInt8)} {k e : Nat}

theorem getElem?_append_some {c : UInt8} (h : b[o]? = some c) : (b ++ x)[o]? = some c := by
  have hlt := (List.getElem?_eq_some_iff.mp h).1
  rw [List.getElem?_append_left hlt, h]

/-- What a message holds, a message that goes on after it holds too. -/
theorem item_append (h : item b o ≠ .missing) (h' : item b o ≠ .cut) :
    item (b ++ x) o = item b o := by
  cases hc : b[o]? with
  | none =>
      rw [item, hc] at h
      exact absurd rfl h
  | some c =>
      rw [item, item, getElem?_append_some hc, hc]
      dsimp only
      cases hd : b[o + 1]? with
      | some d => rw [getElem?_append_some hd]
      | none =>
          rw [item, hc] at h'
          dsimp only at h'
          rw [hd] at h'
          split_ifs at h' ⊢
          · rfl
          · rfl
          · rfl
          · exact absurd rfl h'

theorem item_append_eq {i : Item} (h : item b o = i) (hm : i ≠ .missing) (hc : i ≠ .cut) :
    item (b ++ x) o = i := by
  rw [item_append (by rw [h]; exact hm) (by rw [h]; exact hc), h]

theorem Spells.append (hs : Spells b o ls k) : Spells (b ++ x) o ls k := by
  induction hs with
  | root h => exact .root (item_append_eq h nofun nofun)
  | @label o l ls k h rest ih =>
      have hlt := rest.lt_length
      have htext : ((b ++ x).drop (o + 1)).take l = (b.drop (o + 1)).take l := by
        rw [List.drop_append_of_le_length (by omega), List.take_append_of_le_length]
        rw [List.length_drop]
        omega
      rw [← htext]
      exact .label (item_append_eq h nofun nofun) ih
  | pointer h _ ih => exact .pointer (item_append_eq h nofun nofun) ih

theorem Ends.append (he : Ends b o e) : Ends (b ++ x) o e := by
  induction he with
  | root h => exact .root (item_append_eq h nofun nofun)
  | label h _ ih => exact .label (item_append_eq h nofun nofun) ih
  | pointer h => exact .pointer (item_append_eq h nofun nofun)

theorem item_at (a x : List UInt8) (c : UInt8) :
    item (a ++ c :: x) a.length = item (c :: x) 0 := by
  have h : (a ++ c :: x)[a.length]? = some c := by
    rw [List.getElem?_append_right (Nat.le_refl _), Nat.sub_self]
    rfl
  have h' : (a ++ c :: x)[a.length + 1]? = (c :: x)[1]? := by
    rw [List.getElem?_append_right (by omega)]
    congr 1
    omega
  rw [item, item, h, h']
  rfl

theorem item_root_at (a x : List UInt8) : item (a ++ 0 :: x) a.length = .root := by
  rw [item_at]
  rfl

theorem item_label_at (a x : List UInt8) {l : Nat} (pos : 0 < l) (le : l ≤ 63) :
    item (a ++ l.toUInt8 :: x) a.length = .label l := by
  have hval : l.toUInt8.toNat = l := by
    rw [Nat.toUInt8, UInt8.toNat_ofNat']
    omega
  have hzero : ¬ l.toUInt8 = 0 := by
    intro h
    rw [h] at hval
    simp at hval
    omega
  have hle : l.toUInt8 ≤ 63 := by
    rw [UInt8.le_iff_toNat_le, hval]
    exact le
  rw [item_at, item, List.getElem?_cons_zero]
  dsimp only
  rw [if_neg hzero, if_pos hle, hval]

theorem item_pointer_at (a x : List UInt8) {o : Nat} (h : o < 2 ^ 14) :
    item (a ++ ((o / 2 ^ 8).toUInt8 ||| 0xC0) :: o.toUInt8 :: x) a.length = .pointer o := by
  have hbits : ∀ hi : Fin 64, ¬ (UInt8.ofNat hi ||| 0xC0) = 0 ∧ ¬ (UInt8.ofNat hi ||| 0xC0) ≤ 63 ∧
      ¬ (UInt8.ofNat hi ||| 0xC0) < 0xC0 ∧ ((UInt8.ofNat hi ||| 0xC0) &&& 63).toNat = hi := by
    decide +kernel
  obtain ⟨hzero, hle, hlt, hval⟩ := hbits ⟨o / 2 ^ 8, by omega⟩
  have hlo : o.toUInt8.toNat = o % 2 ^ 8 := by
    rw [Nat.toUInt8, UInt8.toNat_ofNat']
  rw [item_at, item, List.getElem?_cons_zero, List.getElem?_cons_succ, List.getElem?_cons_zero]
  dsimp only
  rw [Nat.toUInt8] at hlo ⊢
  dsimp only at hzero hle hlt hval
  rw [if_neg hzero, if_neg hle, if_neg hlt, hval, hlo]
  congr 1
  omega

end Growing

section Walks
variable {b : List UInt8} {p q : Place} {l target : Nat}

theorem fitsFrom_of_stop (h : ∀ q, ¬ Move b p q) : FitsFrom b p ↔ p.off ≤ b.length := by
  constructor
  · intro hfits
    exact hfits p .refl
  · intro hle q hwalk
    rcases hwalk.cases_head with rfl | ⟨r, hmove, -⟩
    · exact hle
    · exact absurd hmove (h r)

theorem fitsFrom_of_move (hle : p.off ≤ b.length) (hmove : ∀ r, Move b p r ↔ r = q) :
    FitsFrom b p ↔ FitsFrom b q := by
  constructor
  · intro hfits r hwalk
    exact hfits r (.head ((hmove q).mpr rfl) hwalk)
  · intro hfits r hwalk
    rcases hwalk.cases_head with rfl | ⟨s, hstep, hrest⟩
    · exact hle
    · rw [(hmove s).mp hstep] at hrest
      exact hfits r hrest

theorem not_move_root (h : item b p.off = .root) : ¬ Move b p q := by
  intro hmove
  cases hmove with
  | label h' _ => cases h.symm.trans h'
  | pointer h' _ _ => cases h.symm.trans h'

theorem not_move_stuck (h : Stuck (item b p.off)) : ¬ Move b p q := by
  intro hmove
  unfold Stuck at h
  cases hmove with
  | label h' _ => simp [h'] at h
  | pointer h' _ _ => simp [h'] at h

theorem move_label (h : item b p.off = .label l) :
    Move b p q ↔ grown p.len l ≤ 255 ∧ q = ⟨p.off + 1 + l, grown p.len l, p.pointers⟩ := by
  constructor
  · intro hmove
    cases hmove with
    | label h' room =>
        cases h.symm.trans h'
        exact ⟨room, rfl⟩
    | pointer h' _ _ => cases h.symm.trans h'
  · intro ⟨room, hq⟩
    rw [hq]
    exact .label h room

theorem move_pointer (h : item b p.off = .pointer target) :
    Move b p q ↔
      (target < b.length ∧ p.pointers < 100) ∧ q = ⟨target, p.len, p.pointers + 1⟩ := by
  constructor
  · intro hmove
    cases hmove with
    | label h' _ => cases h.symm.trans h'
    | pointer h' inside few =>
        cases h.symm.trans h'
        exact ⟨⟨inside, few⟩, rfl⟩
  · intro ⟨⟨inside, few⟩, hq⟩
    rw [hq]
    exact .pointer h inside few

end Walks

section Length

def dottedLen (len : Nat) (ls : List (List UInt8)) : Nat :=
  ls.foldl (fun len l => grown len l.length) len

def dotted (name : List UInt8) (ls : List (List UInt8)) : List UInt8 :=
  ls.foldl (fun name l => (if name = [] then name else name ++ [byte '.']) ++ l) name

@[simp] theorem dotted_nil (name : List UInt8) : dotted name [] = name := rfl

theorem dottedLen_cons (len : Nat) (l : List UInt8) (ls : List (List UInt8)) :
    dottedLen len (l :: ls) = dottedLen (grown len l.length) ls := rfl

theorem dotted_cons (name l : List UInt8) (ls : List (List UInt8)) :
    dotted name (l :: ls) = dotted ((if name = [] then name else name ++ [byte '.']) ++ l) ls := rfl

theorem grown_length (name l : List UInt8) :
    ((if name = [] then name else name ++ [byte '.']) ++ l).length = grown name.length l.length := by
  cases name with
  | nil => simp [grown]
  | cons c name =>
      simp only [grown, List.length_append, List.length_cons, reduceCtorEq, if_false]
      simp

theorem dotted_length (name : List UInt8) (ls : List (List UInt8)) :
    (dotted name ls).length = dottedLen name.length ls := by
  induction ls generalizing name with
  | nil => rfl
  | cons l ls ih =>
      rw [dotted_cons, ih, grown_length, dottedLen_cons]

theorem le_dottedLen (len : Nat) (ls : List (List UInt8)) : len ≤ dottedLen len ls := by
  induction ls generalizing len with
  | nil => exact Nat.le_refl _
  | cons l ls ih =>
      have hgrown : len ≤ grown len l.length := by
        rw [grown]
        split <;> omega
      exact Nat.le_trans hgrown (ih _)

end Length
end Cone.Lib.WireNames
