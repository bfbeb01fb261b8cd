import Cone.TransferRoundTrip

/-! # Decoding line by line

What `do_decode_qp` makes of a buffer and of the text after it, when the buffer ends within a
line.  The loop gives up on an `=` before white space or a zero byte: what follows in the buffer
is dropped, and what follows the buffer is not. -/
set_option autoImplicit false
namespace Cone.CdecodeLines

open Cone.Ctype Cone.Cdecode Cone.TransferRoundTrip
open Cone.Lib.QuotedPrintable (EQ)

/-- The loop of `do_decode_qp` breaks before it has seen the end of the buffer. -/
def stops : List UInt8 → Bool
  | [] => false
  | c :: a =>
    if c ≠ byte '=' then stops a
    else
      match a with
      | [] => false
      | x :: a' =>
        if x = NUL || isspace x then true
        else
          match strchr xdigit (tou x) with
          | none => stops (x :: a')
          | some _ =>
            match a' with
            | [] => false
            | y :: a'' =>
              if y = NUL then true
              else
                match strchr xdigit (tou y) with
                | none => stops (y :: a'')
                | some _ => stops a''

/-! ## One step of the loop -/

/-- A byte that stands where an escape needs a digit, and only makes it a literal. -/
def Closing (c : UInt8) : Prop := ¬ (c = NUL || isspace c) = true ∧ strchr xdigit (tou c) = none

instance (c : UInt8) : Decidable (Closing c) :=
  inferInstanceAs (Decidable (¬ _ = _ ∧ _ = none))

theorem closing_EQ : Closing EQ := by decide

section Steps
variable (x y : UInt8) (a : List UInt8)

theorem stops_literal (h : x ≠ EQ) : stops (x :: a) = stops a := by
  rw [stops.eq_def]
  exact if_pos h

theorem qpLoop_equals :
    qpLoop (EQ :: x :: a) =
      if (x = NUL || isspace x) = true then []
      else
        match strchr xdigit (tou x) with
        | none => qpLoop (x :: a)
        | some hi =>
          match a with
          | [] => []
          | y :: a =>
            if y = NUL then []
            else
              match strchr xdigit (tou y) with
              | none => qpLoop (y :: a)
              | some lo => UInt8.ofNat (hi * 16 + lo) :: qpLoop a := by
  rw [qpLoop.eq_def]
  exact if_neg (not_not.mpr rfl)

theorem stops_equals :
    stops (EQ :: x :: a) =
      if (x = NUL || isspace x) = true then true
      else
        match strchr xdigit (tou x) with
        | none => stops (x :: a)
        | some _ =>
          match a with
          | [] => false
          | y :: a =>
            if y = NUL then true
            else
              match strchr xdigit (tou y) with
              | none => stops (y :: a)
              | some _ => stops a := by
  rw [stops.eq_def]
  exact if_neg (not_not.mpr rfl)

theorem qpLoop_space (h : (x = NUL || isspace x) = true) : qpLoop (EQ :: x :: a) = [] := by
  rw [qpLoop_equals, if_pos h]

theorem stops_space (h : (x = NUL || isspace x) = true) : stops (EQ :: x :: a) = true := by
  rw [stops_equals, if_pos h]

theorem qpLoop_drop (h : Closing x) : qpLoop (EQ :: x :: a) = qpLoop (x :: a) := by
  rw [qpLoop_equals, if_neg h.1, h.2]

theorem stops_drop (h : Closing x) : stops (EQ :: x :: a) = stops (x :: a) := by
  rw [stops_equals, if_neg h.1, h.2]

variable {x} {hi : Nat} (notSpace : ¬ (x = NUL || isspace x) = true)
  (digit : strchr xdigit (tou x) = some hi)
include notSpace digit

theorem qpLoop_open : qpLoop [EQ, x] = [] := by
  rw [qpLoop_equals, if_neg notSpace, digit]

theorem stops_open : stops [EQ, x] = false := by
  rw [stops_equals, if_neg notSpace, digit]

theorem qpLoop_nul : qpLoop (EQ :: x :: NUL :: a) = [] := by
  rw [qpLoop_equals, if_neg notSpace, digit]
  exact if_pos rfl

theorem stops_nul : stops (EQ :: x :: NUL :: a) = true := by
  rw [stops_equals, if_neg notSpace, digit]
  exact if_pos rfl

theorem qpLoop_drop₂ (hy : y ≠ NUL) (bad : strchr xdigit (tou y) = none) :
    qpLoop (EQ :: x :: y :: a) = qpLoop (y :: a) := by
  rw [qpLoop_equals, if_neg notSpace, digit]
  simp only [if_neg hy, bad]

theorem stops_drop₂ (hy : y ≠ NUL) (bad : strchr xdigit (tou y) = none) :
    stops (EQ :: x :: y :: a) = stops (y :: a) := by
  rw [stops_equals, if_neg notSpace, digit]
  simp only [if_neg hy, bad]

theorem qpLoop_pair {lo : Nat} (hy : y ≠ NUL) (digit' : strchr xdigit (tou y) = some lo) :
    qpLoop (EQ :: x :: y :: a) = UInt8.ofNat (hi * 16 + lo) :: qpLoop a := by
  rw [qpLoop_equals, if_neg notSpace, digit]
  simp only [if_neg hy, digit']

theorem stops_pair {lo : Nat} (hy : y ≠ NUL) (digit' : strchr xdigit (tou y) = some lo) :
    stops (EQ :: x :: y :: a) = stops a := by
  rw [stops_equals, if_neg notSpace, digit]
  simp only [if_neg hy, digit']

end Steps

/-! ## A buffer and what follows it -/

theorem qpLoop_append_of_stops (w rest : List UInt8) (h : stops w = true) :
    qpLoop (w ++ rest) = qpLoop w := by
  induction w using qpLoop.induct with
  | case1 => cases h
  | case2 c a hc ih =>
      rw [stops_literal c a hc] at h
      rw [List.cons_append, qpLoop_literal c _ hc, qpLoop_literal c _ hc, ih h]
  | case3 c hc =>
      obtain rfl : c = EQ := not_not.mp hc
      cases h
  | case4 c hc x a hx =>
      obtain rfl : c = EQ := not_not.mp hc
      rw [qpLoop_space x a hx]
      exact qpLoop_space x (a ++ rest) hx
  | case5 c hc x a hx bad ih =>
      obtain rfl : c = EQ := not_not.mp hc
      rw [stops_drop x a ⟨hx, bad⟩] at h
      rw [qpLoop_drop x a ⟨hx, bad⟩, ← ih h]
      exact qpLoop_drop x (a ++ rest) ⟨hx, bad⟩
  | case6 c hc x hx hi good =>
      obtain rfl : c = EQ := not_not.mp hc
      rw [stops_open hx good] at h
      cases h
  | case7 c hc x hx hi good a =>
      obtain rfl : c = EQ := not_not.mp hc
      rw [qpLoop_nul a hx good]
      exact qpLoop_nul (a ++ rest) hx good
  | case8 c hc x hx hi good y a hy bad ih =>
      obtain rfl : c = EQ := not_not.mp hc
      rw [stops_drop₂ y a hx good hy bad] at h
      rw [qpLoop_drop₂ y a hx good hy bad, ← ih h]
      exact qpLoop_drop₂ y (a ++ rest) hx good hy bad
  | case9 c hc x hx hi good y a hy lo good' ih =>
      obtain rfl : c = EQ := not_not.mp hc
      rw [stops_pair y a hx good hy good'] at h
      rw [qpLoop_pair y a hx good hy good', ← ih h]
      exact qpLoop_pair y (a ++ rest) hx good hy good'

/-- The buffer is decoded by itself when no escape is open at its end, or when a byte that is no
digit closes the escape. -/
def Parted (w rest : List UInt8) : Prop :=
  (∃ c after, rest = c :: after ∧ Closing c) ∨ ∀ u v, w = u ++ EQ :: v → 2 ≤ v.length

theorem Parted.tail {u w rest : List UInt8} (h : Parted (u ++ w) rest) : Parted w rest := by
  rcases h with closing | closed
  · exact Or.inl closing
  · refine Or.inr fun v v' e => closed (u ++ v) v' ?_
    rw [e, List.append_assoc]

theorem qpLoop_append (w rest : List UInt8) (parted : Parted w rest) (h : stops w = false) :
    qpLoop (w ++ rest) = qpLoop w ++ qpLoop rest := by
  induction w using qpLoop.induct with
  | case1 => rfl
  | case2 d a hd ih =>
      rw [stops_literal d a hd] at h
      rw [List.cons_append, qpLoop_literal d _ hd, qpLoop_literal d _ hd, List.cons_append,
        ih (Parted.tail (u := [d]) parted) h]
  | case3 d hd =>
      obtain rfl : d = EQ := not_not.mp hd
      rcases parted with ⟨c, after, rfl, closing⟩ | closed
      · exact qpLoop_drop c after closing
      · have short := closed [] [] rfl
        simp at short
  | case4 d hd x a hx =>
      obtain rfl : d = EQ := not_not.mp hd
      rw [stops_space x a hx] at h
      cases h
  | case5 d hd x a hx bad ih =>
      obtain rfl : d = EQ := not_not.mp hd
      rw [stops_drop x a ⟨hx, bad⟩] at h
      rw [qpLoop_drop x a ⟨hx, bad⟩, ← ih (Parted.tail (u := [EQ]) parted) h]
      exact qpLoop_drop x (a ++ rest) ⟨hx, bad⟩
  | case6 d hd x hx hi good =>
      obtain rfl : d = EQ := not_not.mp hd
      rcases parted with ⟨c, after, rfl, closing⟩ | closed
      · have notNul : c ≠ NUL := fun e => closing.1 (by simp [e])
        rw [qpLoop_open hx good, List.nil_append]
        exact qpLoop_drop₂ c after hx good notNul closing.2
      · have short := closed [] [x] rfl
        simp at short
  | case7 d hd x hx hi good a =>
      obtain rfl : d = EQ := not_not.mp hd
      rw [stops_nul a hx good] at h
      cases h
  | case8 d hd x hx hi good y a hy bad ih =>
      obtain rfl : d = EQ := not_not.mp hd
      rw [stops_drop₂ y a hx good hy bad] at h
      rw [qpLoop_drop₂ y a hx good hy bad, ← ih (Parted.tail (u := [EQ, x]) parted) h]
      exact qpLoop_drop₂ y (a ++ rest) hx good hy bad
  | case9 d hd x hx hi good y a hy lo good' ih =>
      obtain rfl : d = EQ := not_not.mp hd
      rw [stops_pair y a hx good hy good'] at h
      have whole := qpLoop_pair y (a ++ rest) hx good hy good'
      rw [ih (Parted.tail (u := [EQ, x, y]) parted) h] at whole
      rw [qpLoop_pair y a hx good hy good']
      exact whole

/-- A zero byte after the buffer ends the decoding, or stands for itself. -/
theorem qpLoop_append_nul (w rest : List UInt8) (h : stops w = false) :
    qpLoop (w ++ NUL :: rest) = qpLoop w ∨
      qpLoop (w ++ NUL :: rest) = qpLoop w ++ NUL :: qpLoop rest := by
  induction w using qpLoop.induct with
  | case1 => exact Or.inr (qpLoop_literal NUL rest (by decide))
  | case2 d a hd ih =>
      rw [stops_literal d a hd] at h
      rw [List.cons_append, qpLoop_literal d _ hd, qpLoop_literal d _ hd]
      rcases ih h with last | more
      · exact Or.inl (by rw [last])
      · exact Or.inr (by rw [more, List.cons_append])
  | case3 d hd =>
      obtain rfl : d = EQ := not_not.mp hd
      exact Or.inl (qpLoop_space NUL rest (by decide))
  | case4 d hd x a hx =>
      obtain rfl : d = EQ := not_not.mp hd
      rw [stops_space x a hx] at h
      cases h
  | case5 d hd x a hx bad ih =>
      obtain rfl : d = EQ := not_not.mp hd
      rw [stops_drop x a ⟨hx, bad⟩] at h
      have whole := qpLoop_drop x (a ++ NUL :: rest) ⟨hx, bad⟩
      rw [qpLoop_drop x a ⟨hx, bad⟩, List.cons_append, List.cons_append, whole]
      exact ih h
  | case6 d hd x hx hi good =>
      obtain rfl : d = EQ := not_not.mp hd
      refine Or.inl ?_
      rw [qpLoop_open hx good]
      exact qpLoop_nul rest hx good
  | case7 d hd x hx hi good a =>
      obtain rfl : d = EQ := not_not.mp hd
      rw [stops_nul a hx good] at h
      cases h
  | case8 d hd x hx hi good y a hy bad ih =>
      obtain rfl : d = EQ := not_not.mp hd
      rw [stops_drop₂ y a hx good hy bad] at h
      have whole := qpLoop_drop₂ y (a ++ NUL :: rest) hx good hy bad
      rw [qpLoop_drop₂ y a hx good hy bad, List.cons_append, List.cons_append, List.cons_append,
        whole]
      exact ih h
  | case9 d hd x hx hi good y a hy lo good' ih =>
      obtain rfl : d = EQ := not_not.mp hd
      rw [stops_pair y a hx good hy good'] at h
      have whole := qpLoop_pair y (a ++ NUL :: rest) hx good hy good'
      rw [qpLoop_pair y a hx good hy good', List.cons_append, List.cons_append, List.cons_append,
        whole]
      rcases ih h with last | more
      · exact Or.inl (by rw [last])
      · exact Or.inr (by rw [more, List.cons_append])

/-! ## The long-line flush -/

def kept (w : List UInt8) : List UInt8 := w.take (w.length - (heldBack w).length)

/-- What `rfc2045_add_workbuf(p, buf, strlen(buf))` puts back. -/
def putBack (w : List UInt8) : List UInt8 := (heldBack w).takeWhile (· ≠ NUL)

theorem kept_heldBack (w : List UInt8) : kept w ++ heldBack w = w := heldBack_split w

/-- The flush of `w` loses nothing and makes nothing up, whatever follows. -/
def Harmless (w : List UInt8) : Prop :=
  if stops (putBack w) then stops (kept w) = true → qpLoop (putBack w) = []
  else stops (kept w) = false ∧ NUL ∉ heldBack w

instance (w : List UInt8) : Decidable (Harmless w) := by
  unfold Harmless
  infer_instance

theorem qpLoop_kept (w rest : List UInt8) (long : 1024 < w.length) (h : stops (kept w) = false) :
    qpLoop (w ++ rest) = qpLoop (kept w) ++ qpLoop (heldBack w ++ rest) := by
  have whole : w ++ rest = kept w ++ (heldBack w ++ rest) := by
    rw [← List.append_assoc, kept_heldBack]
  rcases heldBack_fits w long with ⟨v, hv⟩ | ⟨none, far⟩
  · rw [whole, hv]
    exact qpLoop_append (kept w) _ (Or.inl ⟨EQ, v ++ rest, rfl, closing_EQ⟩) h
  · have all : kept w = w := by
      have split := kept_heldBack w
      rwa [none, List.append_nil] at split
    rw [none, List.nil_append, all]
    exact qpLoop_append w rest (Or.inr far) (all ▸ h)

theorem heldBack_putBack (w : List UInt8) (h : NUL ∈ heldBack w) :
    ∃ lost, heldBack w = putBack w ++ NUL :: lost := by
  have split := List.takeWhile_append_dropWhile (p := (· ≠ NUL)) (l := heldBack w)
  cases lost : (heldBack w).dropWhile (· ≠ NUL) with
  | nil =>
      have all := List.dropWhile_eq_nil_iff.mp lost NUL h
      simp at all
  | cons c lost' =>
      have head := List.head?_dropWhile_not (fun c => decide (c ≠ NUL)) (heldBack w)
      rw [lost] at head
      have hc : c = NUL := by simpa using head
      rw [lost, hc] at split
      exact ⟨lost', split.symm⟩

theorem putBack_of_noNul (w : List UInt8) (h : NUL ∉ heldBack w) : putBack w = heldBack w := by
  rw [putBack, List.takeWhile_eq_self_iff]
  intro c hc
  exact decide_eq_true fun e : c = NUL => h (e ▸ hc)

theorem qpLoop_flush (w rest : List UInt8) (long : 1024 < w.length) (h : Harmless w) :
    qpLoop (w ++ rest) = qpLoop (kept w) ++ qpLoop (putBack w ++ rest) := by
  rw [Harmless] at h
  by_cases stop : stops (putBack w) = true
  · rw [if_pos stop] at h
    rw [qpLoop_append_of_stops (putBack w) rest stop]
    by_cases stopKept : stops (kept w) = true
    · rw [h stopKept, List.append_nil, ← qpLoop_append_of_stops (kept w) (heldBack w ++ rest) stopKept,
        ← List.append_assoc, kept_heldBack]
    · rw [qpLoop_kept w rest long (Bool.eq_false_iff.mpr stopKept)]
      by_cases zero : NUL ∈ heldBack w
      · obtain ⟨lost, hlost⟩ := heldBack_putBack w zero
        rw [hlost, List.append_assoc, qpLoop_append_of_stops (putBack w) _ stop]
      · rw [← putBack_of_noNul w zero, qpLoop_append_of_stops (putBack w) rest stop]
  · rw [if_neg stop] at h
    rw [qpLoop_kept w rest long h.1, putBack_of_noNul w h.2]

/-- A line end after a byte that is no digit, which tells every harmful flush. -/
def probe : List UInt8 := [byte 'G', NL]

theorem qpLoop_append_probe (w : List UInt8) (h : stops w = false) :
    qpLoop (w ++ probe) = qpLoop w ++ probe := by
  have closing : Closing (byte 'G') := by decide
  exact qpLoop_append w probe (Or.inl ⟨byte 'G', [NL], rfl, closing⟩) h

theorem harmless_of_probe (w : List UInt8) (long : 1024 < w.length)
    (h : qpLoop (w ++ probe) = qpLoop (kept w) ++ qpLoop (putBack w ++ probe)) : Harmless w := by
  have whole : w ++ probe = kept w ++ (heldBack w ++ probe) := by
    rw [← List.append_assoc, kept_heldBack]
  have dropped (stopKept : stops (kept w) = true) : qpLoop (putBack w ++ probe) = [] := by
    rw [whole, qpLoop_append_of_stops (kept w) _ stopKept] at h
    exact List.self_eq_append_right.mp h
  rw [Harmless]
  by_cases stop : stops (putBack w) = true
  · rw [if_pos stop]
    intro stopKept
    rw [← qpLoop_append_of_stops (putBack w) probe stop]
    exact dropped stopKept
  · rw [if_neg stop]
    have after := qpLoop_append_probe (putBack w) (Bool.eq_false_iff.mpr stop)
    have goesOn : stops (kept w) = false := by
      refine Bool.eq_false_iff.mpr fun stopKept => ?_
      have nothing := dropped stopKept
      rw [after] at nothing
      exact absurd (List.append_eq_nil_iff.mp nothing).2 (by decide)
    refine ⟨goesOn, fun zero => ?_⟩
    rw [qpLoop_kept w probe long goesOn, List.append_cancel_left_eq, after] at h
    obtain ⟨lost, hlost⟩ := heldBack_putBack w zero
    rw [hlost, List.append_assoc, List.cons_append] at h
    rcases qpLoop_append_nul (putBack w) (lost ++ probe) (Bool.eq_false_iff.mpr stop) with last | more
    · rw [last] at h
      exact absurd (List.self_eq_append_right.mp h) (by decide)
    · rw [more, List.append_cancel_left_eq] at h
      exact absurd (List.cons.inj h).1 (by decide)

end Cone.CdecodeLines
