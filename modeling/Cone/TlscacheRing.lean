import Cone.Tlscache
import Mathlib.Algebra.BigOperators.Group.List.Basic

/-! # The ring of cached objects

What the cache file stands for: the values from the newest to the oldest, the ones at the head, and
after a wraparound the older ones from `first` on. -/
set_option autoImplicit false
namespace Cone.TlscacheRing

open Cone.Lib.ByteFile Cone.Tlscache

section Objects

def size (v : Bytes) : Nat := OBJ + v.length

def total (vs : List Bytes) : Nat := (vs.map size).sum

def lastSize (prev : Nat) (vs : List Bytes) : Nat := vs.foldl (fun _ v => size v) prev

theorem total_nil : total [] = 0 := rfl

theorem total_cons (v : Bytes) (vs : List Bytes) : total (v :: vs) = size v + total vs := by
  rw [total, List.map_cons, List.sum_cons]
  rfl

theorem total_append (vs ws : List Bytes) : total (vs ++ ws) = total vs + total ws := by
  rw [total, List.map_append, List.sum_append]
  rfl

theorem total_concat (vs : List Bytes) (v : Bytes) :
    total (vs ++ [v]) = total vs + size v := by
  rw [total_append, total_cons, total_nil, Nat.add_zero]

theorem lastSize_concat (prev : Nat) (vs : List Bytes) (v : Bytes) :
    lastSize prev (vs ++ [v]) = size v := by
  rw [lastSize, List.foldl_append]
  rfl

theorem lastSize_of_ne {prev prev' : Nat} {vs : List Bytes} (h : vs ≠ []) :
    lastSize prev vs = lastSize prev' vs := by
  obtain ⟨ws, v, rfl⟩ := (List.eq_nil_or_concat' vs).resolve_left h
  rw [lastSize_concat, lastSize_concat]

theorem lastSize_append (prev : Nat) (vs ws : List Bytes) :
    lastSize prev (vs ++ ws) = lastSize (lastSize prev vs) ws := List.foldl_append

theorem total_dropLast_add {prev : Nat} {vs : List Bytes} (h : vs ≠ []) :
    total vs.dropLast + lastSize prev vs = total vs := by
  obtain ⟨ws, v, rfl⟩ := (List.eq_nil_or_concat' vs).resolve_left h
  rw [List.dropLast_concat, lastSize_concat, total_concat]

theorem lastSize_le (vs : List Bytes) : lastSize 0 vs ≤ total vs := by
  by_cases h : vs = []
  · rw [h]
    exact Nat.zero_le _
  · have hadd := @total_dropLast_add 0 vs h
    omega

theorem le_lastSize {prev : Nat} {vs : List Bytes} (h : vs ≠ []) : 16 ≤ lastSize prev vs := by
  obtain ⟨ws, v, rfl⟩ := (List.eq_nil_or_concat' vs).resolve_left h
  rw [lastSize_concat]
  exact Nat.le_add_right _ _

theorem size_eq (v : Bytes) : size v = 16 + v.length := rfl

theorem length_le_total (vs : List Bytes) : 16 * vs.length ≤ total vs := by
  induction vs with
  | nil => exact Nat.zero_le _
  | cons v vs ih =>
      have h := size_eq v
      rw [total_cons, List.length_cons]
      omega

theorem total_pos {vs : List Bytes} (h : vs ≠ []) : 16 ≤ total vs := by
  obtain ⟨v, ws, rfl⟩ := List.exists_cons_of_ne_nil h
  have hv := size_eq v
  rw [total_cons]
  omega

def Objects (file : Bytes) : Nat → Nat → List Bytes → Prop
  | _, _, [] => True
  | pos, prev, v :: vs =>
    readAt file pos OBJ = some (word prev ++ word (size v)) ∧
      readAt file (pos + OBJ) v.length = some v ∧ Objects file (pos + size v) (size v) vs

variable {file block : Bytes} {pos prev : Nat}

theorem objects_append (vs ws : List Bytes) :
    Objects file pos prev (vs ++ ws) ↔
      Objects file pos prev vs ∧ Objects file (pos + total vs) (lastSize prev vs) ws := by
  induction vs generalizing pos prev with
  | nil => exact (true_and _ ▸ Iff.rfl)
  | cons v vs ih =>
      rw [List.cons_append, Objects, Objects, ih, total_cons, Nat.add_assoc, and_assoc, and_assoc]
      rfl

theorem Objects.congr {after : Bytes} {vs : List Bytes} (h : Objects file pos prev vs)
    (hlen : after.length = file.length)
    (same : ∀ i, pos ≤ i → i < pos + total vs → after[i]? = file[i]?) :
    Objects after pos prev vs := by
  induction vs generalizing pos prev with
  | nil => exact trivial
  | cons v vs ih =>
      obtain ⟨hobj, hval, hrest⟩ := h
      have htotal := total_cons v vs
      have hsize := size_eq v
      have hobj' : OBJ = 16 := rfl
      refine ⟨?_, ?_, ih hrest fun i hi hi' => same i (by omega) (by omega)⟩
      · rw [readAt_congr hlen fun i hi hi' => same i (by omega) (by omega)]
        exact hobj
      · rw [readAt_congr hlen fun i hi hi' => same i (by omega) (by omega)]
        exact hval

theorem Objects.frame {vs : List Bytes} (h : Objects file pos prev vs) {place : Nat}
    (fits : place + block.length ≤ file.length)
    (apart : pos + total vs ≤ place ∨ place + block.length ≤ pos) :
    Objects (writeAt file place block) pos prev vs := by
  refine h.congr (length_writeAt fits) fun i hi hi' => ?_
  rcases apart with hbehind | hbefore
  · exact getElem?_writeAt_of_lt fits (by omega)
  · exact getElem?_writeAt_of_ge fits (by omega)

/-- The first object keeps the size of what is put in front of it. -/
theorem Objects.patch {v : Bytes} {vs : List Bytes} (h : Objects file pos prev (v :: vs)) (n : Nat)
    (fits : pos + 8 ≤ file.length) :
    Objects (writeAt file pos (word n)) pos n (v :: vs) := by
  obtain ⟨hobj, hval, hrest⟩ := h
  have hparts := (readAt_append (length_word prev) (length_word (size v))).1 hobj
  have hlen := length_word n
  have hobj' : OBJ = 16 := rfl
  have hsize := size_eq v
  have hword : pos + (word n).length ≤ file.length := fits
  refine ⟨(readAt_append (length_word n) (length_word (size v))).2 ⟨readAt_writeAt hword, ?_⟩, ?_,
    hrest.frame hword ?_⟩
  · rw [readAt_writeAt_of_disjoint hword (by omega)]
    exact hparts.2
  · rw [readAt_writeAt_of_disjoint hword (by omega)]
    exact hval
  · omega

theorem Objects.length_le {vs : List Bytes} (h : Objects file pos prev vs) (hne : vs ≠ []) :
    pos + total vs ≤ file.length := by
  induction vs generalizing pos prev with
  | nil => exact absurd rfl hne
  | cons v vs ih =>
      obtain ⟨_, hval, hrest⟩ := h
      have hsize := size_eq v
      have hobj' : OBJ = 16 := rfl
      rw [total_cons]
      by_cases hvs : vs = []
      · have hle := (length_readAt hval).2
        rw [hvs, total_nil]
        omega
      · have hle := ih hrest hvs
        omega

end Objects

section Rings

structure Ring where
  filesize : Nat
  head : Nat
  first : Nat
  newer : List Bytes
  older : List Bytes
  deriving DecidableEq, Repr

def Ring.values (r : Ring) : List Bytes := r.newer ++ r.older

def Ring.tail (r : Ring) : Nat :=
  if r.newer = [] then 0
  else if r.older = [] then r.head + total r.newer.dropLast
  else r.first + total r.older.dropLast

def Ring.hdr (r : Ring) : Hdr := ⟨r.filesize, r.head, r.tail, r.first⟩

/-- The objects do not overlap each other or the header, and the gap in front of `first` is smaller
than what was put behind it instead. -/
structure Ring.Ok (r : Ring) : Prop where
  filesize : TLSCACHEMINSIZE ≤ r.filesize ∧ r.filesize < 2 ^ 63
  empty : r.newer = [] → r.older = [] ∧ r.head = 0
  head : r.newer ≠ [] → HDR ≤ r.head
  unwrapped : r.older = [] → r.first = 0 ∧ r.head + total r.newer ≤ r.filesize
  wrapped : r.older ≠ [] → r.newer ≠ [] ∧ r.head + total r.newer = r.filesize ∧ HDR ≤ r.first ∧
    r.first + total r.older ≤ r.head ∧ r.first < HDR + lastSize 0 r.newer

structure Holds (file : Bytes) (r : Ring) : Prop where
  length : file.length = r.filesize
  newer : Objects file r.head 0 r.newer
  older : Objects file r.first (lastSize 0 r.newer) r.older

variable {r : Ring} {file : Bytes}

theorem Holds.writehdr (h : Holds file r) (ok : r.Ok) (hdr : Hdr) :
    Holds (writehdr file hdr) r := by
  have hlen : hdr.bytes.length = HDR := rfl
  have hmin := ok.filesize.1
  have hfits : 0 + hdr.bytes.length ≤ file.length := by
    rw [hlen, h.length]
    exact Nat.le_trans (by decide) hmin
  refine ⟨(length_writeAt hfits).trans h.length, ?_, ?_⟩
  · by_cases hne : r.newer = []
    · rw [hne]
      exact trivial
    · exact h.newer.frame hfits (Or.inr (by rw [hlen, Nat.zero_add]; exact ok.head hne))
  · by_cases hne : r.older = []
    · rw [hne]
      exact trivial
    · exact h.older.frame hfits (Or.inr (by
        rw [hlen, Nat.zero_add]
        exact (ok.wrapped hne).2.2.1))

structure Ring.Bounds (r : Ring) : Prop where
  head : HDR ≤ r.head ∧ r.head < r.filesize
  first : r.first ≤ r.head ∧ r.first ≤ r.tail
  tail : HDR ≤ r.tail ∧ r.tail + lastSize 0 r.values ≤ r.filesize
  total : HDR + total r.values ≤ r.filesize

theorem Ring.Ok.bounds (ok : r.Ok) (hne : r.newer ≠ []) : r.Bounds := by
  have hhdr : HDR = 32 := rfl
  have hhead := ok.head hne
  have hsome := total_pos hne
  by_cases hold : r.older = []
  · have hfirst := (ok.unwrapped hold).1
    have hend := (ok.unwrapped hold).2
    have hlast := @total_dropLast_add 0 r.newer hne
    have htail : r.tail = r.head + total r.newer.dropLast := by
      rw [Ring.tail, if_neg hne, if_pos hold]
    have hvalues : r.values = r.newer := by rw [Ring.values, hold, List.append_nil]
    refine ⟨⟨hhead, by omega⟩, ⟨by omega, by omega⟩, ⟨by omega, ?_⟩, ?_⟩
    · rw [hvalues]
      omega
    · rw [hvalues]
      omega
  · obtain ⟨_, hend, hfirst, hgap, _⟩ := ok.wrapped hold
    have holder := total_pos hold
    have hlast := @total_dropLast_add (lastSize 0 r.newer) r.older hold
    have htail : r.tail = r.first + total r.older.dropLast := by
      rw [Ring.tail, if_neg hne, if_neg hold]
    have hvalues : lastSize 0 r.values = lastSize (lastSize 0 r.newer) r.older :=
      lastSize_append _ _ _
    have htotal : TlscacheRing.total r.values =
        TlscacheRing.total r.newer + TlscacheRing.total r.older :=
      total_append _ _
    refine ⟨⟨hhead, by omega⟩, ⟨by omega, by omega⟩, ⟨by omega, ?_⟩, by omega⟩
    rw [hvalues]
    omega

theorem Holds.tail_obj (h : Holds file r) (hne : r.newer ≠ []) :
    readAt file r.tail OBJ =
      some (word (lastSize 0 r.values.dropLast) ++ word (lastSize 0 r.values)) := by
  by_cases hold : r.older = []
  · obtain ⟨ws, v, hvs⟩ := (List.eq_nil_or_concat' r.newer).resolve_left hne
    have hnewer := h.newer
    rw [hvs, objects_append] at hnewer
    rw [Ring.tail, if_neg hne, if_pos hold, Ring.values, hold, List.append_nil, hvs,
      List.dropLast_concat, lastSize_concat]
    exact hnewer.2.1
  · obtain ⟨ws, v, hvs⟩ := (List.eq_nil_or_concat' r.older).resolve_left hold
    have holder := h.older
    rw [hvs, objects_append] at holder
    rw [Ring.tail, if_neg hne, if_neg hold, Ring.values, hvs, ← List.append_assoc,
      List.dropLast_concat, List.dropLast_concat, lastSize_concat, lastSize_append]
    exact holder.2.1

theorem obj_ofBytes {m n : Nat} (hm : m < 2 ^ 64) (hn : n < 2 ^ 64) :
    Obj.ofBytes (word m ++ word n) = ⟨m, n⟩ := by
  rw [Obj.ofBytes, List.take_left' (length_word m), List.drop_left' (length_word m),
    unword_word hm, unword_word hn]

/-- The newest object has nothing in front of it, and does not pass the check. -/
theorem Holds.readobj_tail (h : Holds file r) (ok : r.Ok) (hne : r.newer ≠ []) {hdr : Hdr}
    (hfile : hdr.filesize = r.filesize) :
    readobj file r.tail hdr =
      if 2 ≤ r.values.length then some ⟨lastSize 0 r.values.dropLast, lastSize 0 r.values⟩
      else none := by
  have hobj : OBJ = 16 := rfl
  have hhdr : HDR = 32 := rfl
  have hsize := ok.filesize.2
  have hb := ok.bounds hne
  have hvs : r.values ≠ [] := fun hnil => hne (List.append_eq_nil_iff.1 hnil).1
  have hmy := @le_lastSize 0 r.values hvs
  have htail := hb.tail
  have htotal := hb.total
  have hlast := lastSize_le r.values
  have hprev := lastSize_le r.values.dropLast
  have hsum := @total_dropLast_add 0 r.values hvs
  rw [readobj, h.tail_obj hne, Option.bind_some, obj_ofBytes (by omega) (by omega), Obj.sane, hfile]
  by_cases htwo : 2 ≤ r.values.length
  · have hdrop : r.values.dropLast ≠ [] := fun hnil => by
      have hlen := congrArg List.length hnil
      rw [List.length_dropLast, List.length_nil] at hlen
      omega
    have hsome := @le_lastSize 0 r.values.dropLast hdrop
    rw [if_pos htwo, if_pos]
    simp only [Bool.not_eq_true', Bool.or_eq_false_iff, decide_eq_false_iff_not]
    omega
  · have hdrop : r.values.dropLast = [] := by
      rw [← List.length_eq_zero_iff, List.length_dropLast]
      omega
    rw [if_neg htwo, if_neg]
    simp only [hdrop, lastSize, List.foldl_nil, Bool.not_eq_true', Bool.or_eq_false_iff,
      decide_eq_false_iff_not]
    omega

end Rings
end Cone.TlscacheRing
