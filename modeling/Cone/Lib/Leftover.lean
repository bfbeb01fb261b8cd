import Mathlib.Data.List.Basic

/-! # Scanners that keep what is left over

A scanner gives the values of as much of a text as it can, and the part that it needs more of. Each
call puts what the last one left before its own text. -/
set_option autoImplicit false
namespace Cone.Lib.Leftover

variable {A B : Type} {scan : List A → List B × List A}

def Resumes (scan : List A → List B × List A) : Prop :=
  ∀ a b, scan (a ++ b) =
    ((scan a).1 ++ (scan ((scan a).2 ++ b)).1, (scan ((scan a).2 ++ b)).2)

def call (scan : List A → List B × List A) (d : List A × List B) (text : List A) :
    List A × List B :=
  ((scan (d.1 ++ text)).2, d.2 ++ (scan (d.1 ++ text)).1)

theorem Resumes.leftover (h : Resumes scan) (a : List A) :
    scan (scan a).2 = ([], (scan a).2) := by
  have hend := h a []
  simp only [List.append_nil] at hend
  have hlength := congrArg (fun r => r.1.length) hend
  simp only [List.length_append] at hlength
  exact Prod.ext (List.length_eq_zero_iff.1 (by omega)) (congrArg Prod.snd hend).symm

/-- The calls are worth what the text is worth in one piece. -/
theorem Resumes.foldl_call (h : Resumes scan) (calls : List (List A)) {d : List A × List B}
    (hd : scan d.1 = ([], d.1)) :
    calls.foldl (call scan) d =
      ((scan (d.1 ++ calls.flatten)).2, d.2 ++ (scan (d.1 ++ calls.flatten)).1) := by
  induction calls generalizing d with
  | nil => simp [hd]
  | cons text calls ih =>
      rw [List.foldl_cons, call, ih (h.leftover _), List.flatten_cons, ← List.append_assoc,
        h (d.1 ++ text) calls.flatten]
      simp only [List.append_assoc]

end Cone.Lib.Leftover
