import Cone.Rfc2231

/-! # Fragments of an extended value

The value is a row of units, a character or a whole escape.  `docreate` cuts between units, so
that what the fragments say is what the whole value says. -/
set_option autoImplicit false
namespace Cone.Rfc2231Fragments

open Cone.Ctype Cone.Lib.Decimal Cone.Rfc2231

inductive IsUnit : List UInt8 → Prop
  | char {c : UInt8} (hc : c ≠ byte '%') : IsUnit [c]
  | escape {a b : UInt8} (ha : a ∈ xdigit) (hb : b ∈ xdigit) : IsUnit [byte '%', a, b]

theorem getD_xdigit_mem : ∀ n < 16, xdigit.getD n 0 ∈ xdigit := by decide

theorem escape_isUnit (c : UInt8) : IsUnit (escape c) := by
  rw [escape]
  split
  · exact .escape (getD_xdigit_mem _ (Nat.mod_lt _ (by decide)))
      (getD_xdigit_mem _ (Nat.mod_lt _ (by decide)))
  · rename_i hc
    refine .char ?_
    rintro rfl
    exact hc (by decide)

theorem eq_nil_of_flatten {us : List (List UInt8)} (hus : ∀ u ∈ us, IsUnit u)
    (h : us.flatten = []) : us = [] := by
  cases us with
  | nil => rfl
  | cons u us => cases hus u List.mem_cons_self <;> simp at h

theorem xdigit_ne_percent : ∀ a ∈ xdigit, a ≠ byte '%' := by decide +kernel

/-! ## Where `docreate` cuts -/

section Cuts
variable {u q : List UInt8}

theorem wholeEscape_append (hu : IsUnit u) (l : Nat) :
    wholeEscape (u ++ q) (u.length + l) = u.length + wholeEscape q l := by
  cases hu with
  | @char c hc =>
      rcases l with _ | _ | l
      · simp [wholeEscape, hc]
        split <;> rfl
      · simp [wholeEscape, hc]
        grind
      · have hl : 1 + (l + 1 + 1) = (l + 2) + 1 := by omega
        simp [wholeEscape, hl]
        grind
  | @escape a b ha hb =>
      have ha := xdigit_ne_percent a ha
      have hb := xdigit_ne_percent b hb
      rcases l with _ | _ | l
      · simp [wholeEscape, ha, hb]
        grind
      · simp [wholeEscape, hb]
        grind
      · have hl : 3 + (l + 1 + 1) = (l + 4) + 1 := by omega
        simp [wholeEscape, hl]
        grind

theorem wholeEscape_inside (hu : IsUnit u) {l : Nat} (hl : l < u.length) :
    wholeEscape (u ++ q) l = 0 ∨ wholeEscape (u ++ q) l = u.length := by
  cases hu with
  | char hc =>
      obtain rfl : l = 0 := by simpa using hl
      simp [wholeEscape, hc]
  | escape ha hb =>
      right
      have ha := xdigit_ne_percent _ ha
      have hb := xdigit_ne_percent _ hb
      obtain rfl | rfl | rfl : l = 0 ∨ l = 1 ∨ l = 2 := by simp at hl; omega
      · simp [wholeEscape]
      · simp [wholeEscape, ha]
      · simp [wholeEscape, ha, hb]

end Cuts

theorem exists_wholeEscape_take (us : List (List UInt8)) (hus : ∀ u ∈ us, IsUnit u) (l : Nat)
    (hl : l ≤ us.flatten.length) :
    ∃ k, wholeEscape us.flatten l = (us.take k).flatten.length := by
  induction us generalizing l with
  | nil =>
      obtain rfl : l = 0 := by simpa using hl
      exact ⟨0, rfl⟩
  | cons u us ih =>
      have hu := hus u List.mem_cons_self
      rw [List.flatten_cons] at hl ⊢
      by_cases hin : l < u.length
      · obtain h | h := wholeEscape_inside (q := us.flatten) hu hin
        · exact ⟨0, by simp [h]⟩
        · exact ⟨1, by simp [h]⟩
      · obtain ⟨m, rfl⟩ : ∃ m, l = u.length + m := ⟨l - u.length, by omega⟩
        obtain ⟨k, hk⟩ := ih (fun v hv => hus v (List.mem_cons_of_mem _ hv)) m
          (by rw [List.length_append] at hl; omega)
        exact ⟨k + 1, by simp [wholeEscape_append hu, hk]⟩

/-- Nothing is moved at the end of the text. -/
theorem wholeEscape_length (us : List (List UInt8)) (hus : ∀ u ∈ us, IsUnit u) :
    wholeEscape us.flatten us.flatten.length = us.flatten.length := by
  induction us with
  | nil => rfl
  | cons u us ih =>
      rw [List.flatten_cons, List.length_append, wholeEscape_append (hus u List.mem_cons_self),
        ih fun v hv => hus v (List.mem_cons_of_mem _ hv)]

theorem exists_fragmentLen_take (r : List UInt8) (us : List (List UInt8))
    (hus : ∀ u ∈ us, IsUnit u) :
    ∃ k, fragmentLen r us.flatten = (us.take k).flatten.length := by
  apply exists_wholeEscape_take us hus
  split <;> omega

theorem fragmentLen_of_lt {r : List UInt8} (hr : 70 < r.length) (us : List (List UInt8))
    (hus : ∀ u ∈ us, IsUnit u) : fragmentLen r us.flatten = us.flatten.length := by
  rw [fragmentLen, if_neg (by omega), wholeEscape_length us hus]

def numbered (name : List UInt8) : Nat → List (List UInt8) → List Parameter
  | _, [] => []
  | n, piece :: pieces => ⟨fragmentName name n, piece⟩ :: numbered name (n + 1) pieces

theorem fragments_spec (name : List UInt8) (fuel n : Nat) (us : List (List UInt8))
    (hus : ∀ u ∈ us, IsUnit u) (ps : List Parameter)
    (h : fragments name fuel n us.flatten = some ps) :
    ∃ groups : List (List (List UInt8)), groups.flatten = us ∧
      ps = numbered name n (groups.map List.flatten) := by
  induction fuel generalizing n us ps with
  | zero =>
      cases hq : us.flatten with
      | nil => exact ⟨[], by simp [eq_nil_of_flatten hus hq], by simpa [hq, fragments, numbered] using h.symm⟩
      | cons c q => rw [hq, fragments] at h; contradiction
  | succ fuel ih =>
      cases hq : us.flatten with
      | nil => exact ⟨[], by simp [eq_nil_of_flatten hus hq], by simpa [hq, fragments, numbered] using h.symm⟩
      | cons c q =>
          obtain ⟨k, hk⟩ := exists_fragmentLen_take (fragmentName name n) us hus
          have hsplit : (us.take k).flatten ++ (us.drop k).flatten = c :: q := by
            rw [← List.flatten_append, List.take_append_drop, hq]
          have hlen : fragmentLen (fragmentName name n) (c :: q) = (us.take k).flatten.length := by
            rw [← hq, hk]
          rw [hq, fragments, hlen] at h
          obtain ⟨rest, hrest, rfl⟩ := Option.map_eq_some_iff.mp h
          rw [← hsplit, List.drop_left] at hrest
          obtain ⟨groups, hgroups, rfl⟩ :=
            ih (n + 1) (us.drop k) (fun u hu => hus u (List.mem_of_mem_drop hu)) rest hrest
          refine ⟨us.take k :: groups, by simp [hgroups], ?_⟩
          rw [← hsplit, List.take_left]
          rfl

theorem fragments_head {name : List UInt8} {fuel n : Nat} {q : List UInt8} {ps : List Parameter}
    (hq : q ≠ []) (h : fragments name fuel n q = some ps) :
    ∃ rest, ps = ⟨fragmentName name n, q.take (fragmentLen (fragmentName name n) q)⟩ :: rest := by
  cases q with
  | nil => exact absurd rfl hq
  | cons c q =>
      cases fuel with
      | zero => rw [fragments] at h; contradiction
      | succ fuel =>
          rw [fragments] at h
          obtain ⟨rest, _, rfl⟩ := Option.map_eq_some_iff.mp h
          exact ⟨rest, rfl⟩

/-- With `d` more fragments the name leaves no room to be computed, and the rest is written at
once. -/
theorem fragments_isSome (name : List UInt8) (d n : Nat) (us : List (List UInt8))
    (hus : ∀ u ∈ us, IsUnit u) (hlong : 70 < (fragmentName name (n + d)).length) :
    (fragments name (d + 1) n us.flatten).isSome = true := by
  induction d generalizing n us with
  | zero =>
      have hall := fragmentLen_of_lt hlong us hus
      cases hq : us.flatten with
      | nil => rfl
      | cons c q =>
          rw [hq, Nat.add_zero] at hall
          rw [fragments, hall, List.drop_length]
          rfl
  | succ d ih =>
      cases hq : us.flatten with
      | nil => rfl
      | cons c q =>
          obtain ⟨k, hk⟩ := exists_fragmentLen_take (fragmentName name n) us hus
          have hdrop : (c :: q).drop (fragmentLen (fragmentName name n) (c :: q)) =
              (us.drop k).flatten := by
            have hsplit : (us.take k).flatten ++ (us.drop k).flatten = c :: q := by
              rw [← List.flatten_append, List.take_append_drop, hq]
            rw [← hq, hk, hq, ← hsplit, List.drop_left]
          have hrest := ih (n + 1) (us.drop k) (fun u hu => hus u (List.mem_of_mem_drop hu))
            (by rwa [show n + 1 + d = n + (d + 1) by omega])
          rw [fragments, hdrop, Option.isSome_map]
          exact hrest

theorem exists_long_fragmentName (name : List UInt8) :
    ∃ d, 70 < (fragmentName name d).length := by
  obtain ⟨d, hd⟩ : ∃ d, d = 10 ^ 70 := ⟨_, rfl⟩
  have hlen := lt_length_decimal (by decide) hd.ge
  refine ⟨d, ?_⟩
  simp only [fragmentName, List.length_append, List.length_cons]
  omega

theorem exists_fragments (name : List UInt8) (us : List (List UInt8))
    (hus : ∀ u ∈ us, IsUnit u) : ∃ fuel ps, fragments name fuel 0 us.flatten = some ps := by
  obtain ⟨d, hd⟩ := exists_long_fragmentName name
  rw [← Nat.zero_add d] at hd
  exact ⟨d + 1, Option.isSome_iff_exists.mp (fragments_isSome name d 0 us hus hd)⟩

/-! ## What the fragments say -/

section Reading
variable {u : List UInt8} {us vs : List (List UInt8)}

theorem decodeText_unit (hu : IsUnit u) (q : List UInt8) :
    decodeText true (u ++ q) = decodeText true u ++ decodeText true q := by
  cases hu with
  | @char c hc =>
      rcases q with _ | ⟨a, _ | ⟨b, q⟩⟩
      · rfl
      · rfl
      · simp [decodeText, hc]
  | escape ha hb => simp [decodeText]

theorem decodeText_append (hus : ∀ u ∈ us, IsUnit u) (q : List UInt8) :
    decodeText true (us.flatten ++ q) = decodeText true us.flatten ++ decodeText true q := by
  induction us with
  | nil => rfl
  | cons u us ih =>
      have hu := hus u List.mem_cons_self
      have ih := ih fun v hv => hus v (List.mem_cons_of_mem _ hv)
      rw [List.flatten_cons, List.append_assoc, decodeText_unit hu, ih, decodeText_unit hu,
        List.append_assoc]

theorem nyb_digit : ∀ n < 16, nyb (xdigit.getD n 0) = n := by decide

theorem decodeText_escape (c : UInt8) : decodeText true (escape c) = [c] := by
  rw [escape]
  split
  · have hc := c.toNat_lt
    have hdigits : c.toNat / 16 % 16 * 16 + c.toNat % 16 = c.toNat := by omega
    rw [decodeText, if_pos ⟨rfl, rfl⟩, nyb_digit _ (Nat.mod_lt _ (by decide)),
      nyb_digit _ (Nat.mod_lt _ (by decide)), hdigits, UInt8.ofNat_toNat, decodeText]
  · rfl

theorem decodeText_value (value : List UInt8) :
    decodeText true (value.flatMap escape) = value := by
  induction value with
  | nil => rfl
  | cons c value ih =>
      rw [List.flatMap_cons, decodeText_unit (escape_isUnit c), decodeText_escape, ih]
      rfl

theorem decodeText_of_not_mem (encoded : Bool) (p : List UInt8) (hp : byte '%' ∉ p) :
    decodeText encoded p = p := by
  induction p with
  | nil => simp [decodeText]
  | cons c p ih =>
      have hc : c ≠ byte '%' := fun he => hp (he ▸ List.mem_cons_self)
      have ih := ih fun hm => hp (List.mem_cons_of_mem _ hm)
      rcases p with _ | ⟨a, _ | ⟨b, p⟩⟩
      · simp [decodeText]
      · simp [decodeText]
      · rw [decodeText, if_neg (by simp [hc]), ih]

end Reading

end Cone.Rfc2231Fragments
