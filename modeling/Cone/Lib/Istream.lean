import Cone.Lib.Decimal

/-! # Input streams

What `getline` and `>>` of the standard library take from the text of a stream. -/
set_option autoImplicit false
namespace Cone.Lib.Istream

open Cone.Ctype Cone.Lib.Decimal

section Numbers

def digits (neg : Bool) (p : List UInt8) : Option (Nat × List UInt8) :=
  let n := readDigits p
  if p.takeWhile isdigit = [] ∨ 2 ^ 64 ≤ n then none
  else some (if neg then (2 ^ 64 - n) % 2 ^ 64 else n, p.dropWhile isdigit)

/-- `>>` into a `size_t`; none where it fails. -/
def readSize (p : List UInt8) : Option (Nat × List UInt8) :=
  match p.dropWhile isspace with
  | [] => none
  | c :: q =>
    if c = byte '-' then digits true q
    else if c = byte '+' then digits false q
    else digits false (c :: q)

def failedSize (p : List UInt8) : Nat :=
  let q := p.dropWhile isspace
  let q := if q.head?.any fun c => c = byte '-' || c = byte '+' then q.drop 1 else q
  if q.takeWhile isdigit = [] then 0 else 2 ^ 64 - 1

theorem readSize_decimal {n : Nat} (small : n < 2 ^ 64) {rest : List UInt8}
    (hrest : ∀ c ∈ rest.head?, isdigit c = false) :
    readSize (decimal n ++ rest) = some (n, rest) := by
  have all : ∀ c ∈ decimal n, isdigit c = true := fun c => isdigit_of_mem_decimal
  have digits' : digits false (decimal n ++ rest) = some (n, rest) := by
    have after : (decimal n ++ rest).dropWhile isdigit = rest := by
      rw [List.dropWhile_append_of_pos all]
      cases rest with
      | nil => rfl
      | cons c rest => simp [hrest c (by simp)]
    have some' : (decimal n ++ rest).takeWhile isdigit ≠ [] := by
      rw [List.takeWhile_append_of_pos all]
      exact fun none' => decimal_ne_nil n (List.append_eq_nil_iff.mp none').1
    rw [digits, readDigits_decimal n hrest, if_neg (not_or.mpr ⟨some', by omega⟩), after]
    rfl
  cases first : decimal n with
  | nil => exact absurd first (decimal_ne_nil n)
  | cons c ds =>
      obtain ⟨space, minus, plus⟩ := isdigit_facts c (all c (by rw [first]; simp))
      rw [first, List.cons_append] at digits'
      rw [readSize, List.cons_append, List.dropWhile_cons_of_neg (by simp [space])]
      simp only [if_neg minus, if_neg plus]
      exact digits'

end Numbers

section Lines

def getlines : List UInt8 → List (List UInt8)
  | [] => []
  | c :: p =>
    if c = NL then [] :: getlines p
    else
      match getlines p with
      | [] => [[c]]
      | line :: lines => (c :: line) :: lines

/-- Lines as `<< endl` writes them. -/
def unlines (lines : List (List UInt8)) : List UInt8 := lines.flatMap fun line => line ++ [NL]

@[simp] theorem unlines_nil : unlines [] = [] := rfl

@[simp] theorem unlines_cons (line : List UInt8) (lines : List (List UInt8)) :
    unlines (line :: lines) = line ++ NL :: unlines lines := by
  simp [unlines]

theorem getlines_line (line rest : List UInt8) (single : NL ∉ line) :
    getlines (line ++ NL :: rest) = line :: getlines rest := by
  induction line with
  | nil => simp [getlines]
  | cons c line ih =>
      obtain ⟨other, single⟩ := not_or.mp (mt List.mem_cons.mpr single)
      rw [List.cons_append, getlines, if_neg (Ne.symm other), ih single]

theorem getlines_unlines (lines : List (List UInt8)) (single : ∀ line ∈ lines, NL ∉ line) :
    getlines (unlines lines) = lines := by
  induction lines with
  | nil => rfl
  | cons line lines ih =>
      rw [unlines_cons, getlines_line line _ (single line List.mem_cons_self),
        ih fun line' mem => single line' (List.mem_cons_of_mem line mem)]

theorem prefix_unlines {lines : List (List UInt8)} (single : ∀ line ∈ lines, NL ∉ line)
    {part : List UInt8} (cut : part <+: unlines lines)
    (ends : part = [] ∨ part.getLast? = some NL) :
    ∃ k, part = unlines (lines.take k) := by
  induction lines generalizing part with
  | nil => exact ⟨0, List.prefix_nil.mp cut⟩
  | cons line lines ih =>
      rcases ends with rfl | ends
      · exact ⟨0, rfl⟩
      · rw [unlines_cons, ← List.singleton_append, ← List.append_assoc] at cut
        rcases List.prefix_or_prefix_of_prefix cut (List.prefix_append _ _) with short | ⟨rest, rfl⟩
        · rcases List.prefix_concat_iff.mp short with rfl | inside
          · exact ⟨1, by simp⟩
          · have mem : NL ∈ part := List.mem_of_getLast? ends
            exact absurd (inside.subset mem) (single line List.mem_cons_self)
        · rw [List.prefix_append_right_inj] at cut
          have ends' : rest = [] ∨ rest.getLast? = some NL := by
            cases rest with
            | nil => exact Or.inl rfl
            | cons c rest =>
                rw [List.getLast?_append_of_ne_nil _ (List.cons_ne_nil c rest)] at ends
                exact Or.inr ends
          obtain ⟨k, rfl⟩ := ih (fun line' mem => single line' (List.mem_cons_of_mem line mem)) cut
            ends'
          exact ⟨k + 1, by simp⟩

end Lines

end Cone.Lib.Istream
