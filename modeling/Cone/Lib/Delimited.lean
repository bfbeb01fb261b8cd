import Mathlib.Data.List.Basic

/-! # Texts around a delimiter

The first and the last place of a value in a list, when one side of it is known. -/
set_option autoImplicit false
namespace Cone.Lib.Delimited

section Find
variable {A : Type} [DecidableEq A] {c : A} {a s : List A}

def find (s : List A) (c : A) : Option Nat := s.idxOf? c

def rfind (s : List A) (c : A) : Option Nat :=
  (find s.reverse c).map fun k => s.length - 1 - k

theorem find_none (hs : c ∉ s) : find s c = none := List.idxOf?_eq_none_iff.2 hs

theorem find_append (ha : c ∉ a) (b : List A) : find (a ++ c :: b) c = some a.length := by
  induction a with
  | nil => simp [find, List.idxOf?_cons]
  | cons d a ih =>
      have hd : (d == c) = false := by
        rw [beq_eq_false_iff_ne]
        rintro rfl
        exact ha List.mem_cons_self
      have hrest := ih fun hmem => ha (List.mem_cons_of_mem _ hmem)
      rw [find] at hrest ⊢
      rw [List.cons_append, List.idxOf?_cons, hd, hrest]
      rfl

theorem rfind_append (a : List A) {b : List A} (hb : c ∉ b) :
    rfind (a ++ c :: b) c = some a.length := by
  have hreverse : (a ++ c :: b).reverse = b.reverse ++ c :: a.reverse := by
    rw [List.reverse_append, List.reverse_cons, List.append_assoc]
    rfl
  rw [rfind, hreverse, find_append fun hmem => hb (List.mem_reverse.1 hmem), Option.map_some,
    List.length_reverse, List.length_append, List.length_cons]
  congr 1
  omega

theorem take_before (a : List A) (c : A) (b : List A) : (a ++ c :: b).take a.length = a :=
  List.take_left

theorem drop_behind (a : List A) (c : A) (b : List A) :
    (a ++ c :: b).drop (a.length + 1) = b := by
  rw [← List.drop_drop, List.drop_left, List.drop_one, List.tail_cons]

end Find
end Cone.Lib.Delimited
