import Cone.Rfc1035Query

/-! # Comparing host names

`rfc1035_hostnamecmp` finds two names the same when they squeeze to the same text in capitals.
For names that do not start with a dot that means the same labels, so the suffix that a
compression pointer stands for has the labels of the one it points to. -/
set_option autoImplicit false
namespace Cone.Rfc1035Query

open Cone.Ctype Cone.Lib.WireNames Cone.Lib.HostNames

theorem isDot_toupper : ∀ c, isDot (toupper c) = isDot c := forall_byte (by decide +kernel)

theorem toupper_dot : toupper DOT = DOT := by decide

def capitals (s : List UInt8) : List UInt8 := s.map toupper

@[simp] theorem capitals_nil : capitals [] = [] := rfl

@[simp] theorem capitals_cons (c : UInt8) (s : List UInt8) :
    capitals (c :: s) = toupper c :: capitals s := rfl

def key (s : List UInt8) : List (List UInt8) := (labels s).map capitals

theorem key_eq (s : List UInt8) : key s = labels (capitals s) :=
  (labels_map isDot_toupper s).symm

section Compare
variable {p q : List UInt8}

theorem squeeze_skipDots_eq_nil {s : List UInt8} : squeeze (skipDots s) = [] ↔ skipDots s = [] := by
  cases h : skipDots s with
  | nil => rw [squeeze]
  | cons c t =>
      rw [squeeze_cons (isDot_of_skipDots h)]
      exact iff_of_false (by intro no; cases no) (by intro no; cases no)

theorem squeeze_dot_eq_nil {s : List UInt8} :
    [] = squeeze (DOT :: s) ↔ [] = squeeze (skipDots s) := by
  rw [squeeze_dot, eq_comm, eq_comm (a := []), squeeze_skipDots_eq_nil]
  by_cases h : skipDots s = []
  · rw [if_pos h]
    exact iff_of_true rfl h
  · rw [if_neg h]
    exact iff_of_false nofun h

theorem squeeze_dots_iff {s t : List UInt8} :
    squeeze (DOT :: s) = squeeze (DOT :: t) ↔ squeeze (skipDots s) = squeeze (skipDots t) := by
  rw [squeeze_dot, squeeze_dot]
  by_cases hs : skipDots s = []
  · rw [if_pos hs, hs, squeeze]
    by_cases ht : skipDots t = []
    · rw [if_pos ht, ht, squeeze]
    · rw [if_neg ht]
      apply iff_of_false (by intro no; cases no)
      intro h
      exact ht (squeeze_skipDots_eq_nil.mp h.symm)
  · rw [if_neg hs]
    by_cases ht : skipDots t = []
    · rw [if_pos ht, ht, squeeze]
      apply iff_of_false (by intro no; cases no)
      intro h
      exact hs (squeeze_skipDots_eq_nil.mp h)
    · rw [if_neg ht, List.cons.injEq]
      exact and_iff_right rfl

theorem squeeze_dot_ne {s t : List UInt8} {c : UInt8} (hc : isDot c = false) :
    squeeze (DOT :: s) ≠ squeeze (c :: t) := by
  rw [squeeze_dot, squeeze_cons hc]
  by_cases hs : skipDots s = []
  · rw [if_pos hs]
    nofun
  · rw [if_neg hs]
    intro h
    obtain ⟨rfl, -⟩ := List.cons.inj h
    exact absurd hc (by decide)

theorem eq_dot {c : UInt8} (hc : isDot c = true) : c = DOT := by simpa [isDot] using hc

theorem capitals_skipDots (s : List UInt8) : capitals (skipDots s) = skipDots (capitals s) :=
  (skipDots_map isDot_toupper s).symm

theorem capitals_dot {c : UInt8} (hc : isDot c = true) (s : List UInt8) :
    capitals (c :: s) = DOT :: capitals s := by
  rw [eq_dot hc, capitals_cons, toupper_dot]

theorem squeeze_capitals {c : UInt8} (hc : isDot c = false) (s : List UInt8) :
    squeeze (capitals (c :: s)) = toupper c :: squeeze (capitals s) := by
  rw [capitals_cons, squeeze_cons (by rw [isDot_toupper, hc])]

theorem hostnamecmp_eq_zero_iff (p q : List UInt8) :
    hostnamecmp p q = 0 ↔ squeeze (capitals p) = squeeze (capitals q) := by
  induction p, q using hostnamecmp.induct with
  | case1 => rw [hostnamecmp]; simp
  | case2 d q hd ih =>
      rw [hostnamecmp, if_pos hd, ih, capitals_skipDots, capitals_dot hd, capitals_nil, squeeze]
      exact squeeze_dot_eq_nil.symm
  | case3 d q hd =>
      rw [hostnamecmp, if_neg hd, squeeze_capitals (by simpa using hd), capitals_nil, squeeze]
      exact iff_of_false (by intro no; cases no) (by intro no; cases no)
  | case4 c p hc ih =>
      rw [hostnamecmp, if_pos hc, ih, capitals_skipDots, capitals_dot hc, capitals_nil, squeeze,
        eq_comm, eq_comm (b := [])]
      exact squeeze_dot_eq_nil.symm
  | case5 c p hc =>
      rw [hostnamecmp, if_neg hc, squeeze_capitals (by simpa using hc), capitals_nil, squeeze]
      exact iff_of_false (by intro no; cases no) (by intro no; cases no)
  | case6 c p d q hdot hone =>
      rw [hostnamecmp, if_pos hdot, if_pos hone]
      apply iff_of_false (by intro no; cases no)
      rcases Bool.eq_false_or_eq_true (isDot c) with hc | hc
      · have hd : isDot d = false := by simpa [hc] using hone
        rw [capitals_dot hc, capitals_cons]
        exact squeeze_dot_ne (by rw [isDot_toupper, hd])
      · have hd : isDot d = true := by simpa [hc] using hdot
        rw [capitals_dot hd, capitals_cons]
        exact (squeeze_dot_ne (by rw [isDot_toupper, hc])).symm
  | case7 c p d q hdot hboth ih =>
      have hcd : isDot c = true ∧ isDot d = true := by simpa using hboth
      rw [hostnamecmp, if_pos hdot, if_neg hboth, ih, capitals_skipDots, capitals_skipDots,
        capitals_dot hcd.1, capitals_dot hcd.2]
      exact squeeze_dots_iff.symm
  | case8 c p d q hdot hne =>
      have hcd : isDot c = false ∧ isDot d = false := by simpa using hdot
      rw [hostnamecmp, if_neg hdot, if_pos hne, squeeze_capitals hcd.1, squeeze_capitals hcd.2]
      apply iff_of_false (by intro no; cases no)
      intro h
      exact hne (List.cons.inj h).1
  | case9 c p d q hdot hne ih =>
      have hcd : isDot c = false ∧ isDot d = false := by simpa using hdot
      rw [hostnamecmp, if_neg hdot, if_neg hne, ih, squeeze_capitals hcd.1,
        squeeze_capitals hcd.2, List.cons.injEq]
      exact (and_iff_right (not_not.mp hne)).symm

/-- Suffixes that compare the same have the same labels in capitals. -/
theorem key_eq_of_hostnamecmp (h : hostnamecmp (skipDots p) (skipDots q) = 0) : key p = key q := by
  rw [hostnamecmp_eq_zero_iff, capitals_skipDots, capitals_skipDots] at h
  rw [key_eq, key_eq]
  exact labels_eq_of_squeeze h

/-- Labels that are those of a name in capitals make a name that compares the same. -/
theorem hostnamecmp_dotted {ls : List (List UInt8)} (h : ls.map capitals = key p) :
    hostnamecmp (dotted [] ls) (skipDots p) = 0 := by
  rw [hostnamecmp_eq_zero_iff, capitals_skipDots, squeeze_skipDots, capitals,
    dotted_map toupper_dot, ← key_eq, ← h]
  have hls : ∀ l ∈ ls.map capitals, IsLabel l := by
    intro l hl
    rw [h, key_eq] at hl
    exact isLabel_of_mem_labels hl
  exact squeeze_dotted hls

end Compare
end Cone.Rfc1035Query
