import Mathlib.Data.List.GetD
import Cone.MaildirsearchChset

/-! # Search in the message editor

`CursesEditMessage::search` of curseseditmessage.C. A place is a row and a character of its line;
columns are left out. -/
set_option autoImplicit false
namespace Cone.EditMessageSearch

open Cone.Maildirsearch

abbrev UText := List UInt32

abbrev Place := Nat × Nat

section Search

/-- The engine, with its flag for white space, and where the text that it holds begins. -/
structure Scan where
  engine : Searchengine × Bool
  start : Place

/-- `mail::Search::reset`; the flag stays. -/
def reset (searchEngine : Searchengine × Bool) : Searchengine × Bool :=
  (searchReset searchEngine.1, searchEngine.2)

def atstart (e : Searchengine × Bool) : Bool := e.1.i = 0

variable (lc : UInt32 → UInt32) (fuel : Nat)

def Scan.mark (s : Scan) (p : Place) : Scan := if atstart s.engine then { s with start := p } else s

def Scan.feed (s : Scan) (ch : UInt32) : Option Scan :=
  (searchStepUnicodeLc lc fuel s.engine ch).map fun e => { s with engine := e }

def searchLine (row : Nat) : Nat → UText → Scan → Option (Scan × Option Nat)
  | pos, [], s =>
    if searchFound s.engine.1 then some (s, some pos)
    else ((s.mark (row, pos)).feed lc fuel space).map fun s => (s, none)
  | pos, c :: line, s =>
    if searchFound s.engine.1 then some (s, some pos)
    else ((s.mark (row, pos)).feed lc fuel c).bind (searchLine row (pos + 1) line)

variable (lines : List UText) (doWrap : Bool)

def searchRows : Nat → Nat → Nat → Scan → Option (Option (Place × Place))
  | 0, _, _, _ => some none
  | rowNum + 1, row, pos, s =>
    match searchLine lc fuel row pos ((lines.getD row []).drop pos) s with
    | none => none
    | some (s, some pos) => some (some (s.start, (row, pos)))
    | some (s, none) =>
      if row + 1 < lines.length then searchRows rowNum (row + 1) 0 s
      else if doWrap then searchRows rowNum 0 0 s
      else some none

def search (searchEngine : Searchengine × Bool) (cursor : Place) :
    Option (Option (Place × Place)) :=
  searchRows lc searchEngine.1.string_l lines doWrap (lines.length + 1) cursor.1 cursor.2
    ⟨reset searchEngine, cursor⟩

end Search

section Cells

abbrev Cell := UInt32 × Place

def lineCells (row : Nat) : Nat → UText → List Cell
  | pos, [] => [(space, (row, pos))]
  | pos, c :: line => (c, (row, pos)) :: lineCells row (pos + 1) line

def cells (row : Nat) : List UText → List Cell
  | [] => []
  | line :: lines => lineCells row 0 line ++ cells (row + 1) lines

variable (lc : UInt32 → UInt32) (fuel : Nat)

def scan : List Cell → Scan → Option (Option (Place × Place))
  | [], _ => some none
  | (c, p) :: rest, s =>
    if searchFound s.engine.1 then some (some (s.start, p))
    else ((s.mark p).feed lc fuel c).bind (scan rest)

variable (lines : List UText) (doWrap : Bool)

def ahead : Nat → Nat → Nat → List Cell
  | 0, _, _ => []
  | rowNum + 1, row, pos =>
    lineCells row pos ((lines.getD row []).drop pos) ++
      (if row + 1 < lines.length then ahead rowNum (row + 1) 0
      else if doWrap then ahead rowNum 0 0
      else [])

theorem scan_line (row pos : Nat) (line : UText) (rest : List Cell) (s : Scan) :
    scan lc fuel (lineCells row pos line ++ rest) s =
      match searchLine lc fuel row pos line s with
      | none => none
      | some (s, some pos) => some (some (s.start, (row, pos)))
      | some (s, none) => scan lc fuel rest s := by
  induction line generalizing pos s with
  | nil =>
      rw [lineCells, List.cons_append, List.nil_append, scan, searchLine]
      split
      · rfl
      · cases (s.mark (row, pos)).feed lc fuel space <;> rfl
  | cons c line ih =>
      rw [lineCells, List.cons_append, scan, searchLine]
      split
      · rfl
      · cases (s.mark (row, pos)).feed lc fuel c with
        | none => rfl
        | some s => exact ih (pos + 1) s

theorem searchRows_eq (rowNum row pos : Nat) (s : Scan) :
    searchRows lc fuel lines doWrap rowNum row pos s =
      scan lc fuel (ahead lines doWrap rowNum row pos) s := by
  induction rowNum generalizing row pos s with
  | zero => rfl
  | succ rowNum ih =>
      rw [searchRows, ahead, scan_line]
      split
      · rfl
      · rfl
      · split
        · exact ih (row + 1) 0 _
        · split
          · exact ih 0 0 _
          · rfl

end Cells
/-! ## The places -/

section Places
variable (lines : List UText) (doWrap : Bool)

def text (lines : List UText) : UText := lines.flatMap (· ++ [space])

def offset (p : Place) : Nat := (text (lines.take p.1)).length + p.2

def marked (region : Place × Place) : UText :=
  ((text lines).take (offset lines region.2)).drop (offset lines region.1)

theorem lineCells_chars (row pos : Nat) (line : UText) :
    (lineCells row pos line).map Prod.fst = line ++ [space] := by
  induction line generalizing pos with
  | nil => rfl
  | cons c line ih => rw [lineCells, List.map_cons, ih, List.cons_append]

theorem cells_chars (row : Nat) : (cells row lines).map Prod.fst = text lines := by
  induction lines generalizing row with
  | nil => rfl
  | cons line lines ih =>
      rw [cells, List.map_append, lineCells_chars, ih, text, text, List.flatMap_cons]

theorem cells_length (row : Nat) : (cells row lines).length = (text lines).length := by
  rw [← cells_chars lines row, List.length_map]

theorem cells_append (row : Nat) (before after : List UText) :
    cells row (before ++ after) = cells row before ++ cells (row + before.length) after := by
  induction before generalizing row with
  | nil => rfl
  | cons line before ih =>
      rw [List.cons_append, cells, cells, ih, List.append_assoc, List.length_cons,
        Nat.add_right_comm, Nat.add_assoc]

theorem lineCells_drop (row pos n : Nat) {line : UText} (le : n ≤ line.length) :
    (lineCells row pos line).drop n = lineCells row (pos + n) (line.drop n) := by
  induction line generalizing pos n with
  | nil =>
      obtain rfl := Nat.le_zero.mp le
      rfl
  | cons c line ih =>
      cases n with
      | zero => rfl
      | succ n =>
          rw [lineCells, List.drop_succ_cons, List.drop_succ_cons,
            ih (pos + 1) n (Nat.le_of_succ_le_succ le), Nat.add_right_comm, Nat.add_assoc]

theorem lineCells_place {row pos : Nat} {line : UText} {u v : List Cell} {c : UInt32} {q : Place}
    (split : lineCells row pos line = u ++ (c, q) :: v) : q = (row, pos + u.length) := by
  induction line generalizing pos u with
  | nil =>
      cases u with
      | nil => exact (congrArg Prod.snd (List.cons.inj split).1).symm
      | cons z u => exact absurd (List.cons.inj split).2.symm (by simp)
  | cons d line ih =>
      cases u with
      | nil => exact (congrArg Prod.snd (List.cons.inj split).1).symm
      | cons z u =>
          rw [ih (List.cons.inj split).2, List.length_cons, Nat.add_right_comm, Nat.add_assoc]

theorem cells_place {u v : List Cell} {c : UInt32} {q : Place}
    (split : cells 0 lines = u ++ (c, q) :: v) : offset lines q = u.length := by
  suffices h : ∀ (rest before : List UText) (u : List Cell), lines = before ++ rest →
      cells before.length rest = u ++ (c, q) :: v →
      offset lines q = (text before).length + u.length by
    rw [h lines [] u rfl split]
    exact Nat.zero_add _
  intro rest
  induction rest with
  | nil =>
      intro before u _ split
      exact absurd split.symm (by simp [cells])
  | cons line rest ih =>
      intro before u whole split
      rw [cells] at split
      have longer : (text (before ++ [line])).length = (text before).length +
          (lineCells before.length 0 line).length := by
        rw [← List.length_map Prod.fst, lineCells_chars, text, text, List.flatMap_append,
          List.length_append, List.flatMap_cons, List.flatMap_nil, List.append_nil]
      rcases List.append_eq_append_iff.mp split with ⟨x, rfl, split'⟩ | ⟨x, split', after⟩
      · have := ih (before ++ [line]) x (by rw [whole]; simp)
          (by rw [List.length_append]; exact split')
        rw [this, longer, List.length_append, Nat.add_assoc]
      · cases x with
        | nil =>
            have := ih (before ++ [line]) [] (by rw [whole]; simp)
              (by rw [List.length_append]; exact after.symm)
            rw [List.append_nil] at split'
            rw [this, longer, split', List.length_nil, Nat.add_zero]
        | cons z x =>
            obtain ⟨rfl, -⟩ := List.cons.inj after
            rw [lineCells_place split', offset, whole, List.take_left, Nat.zero_add]

theorem marked_split {u x v : List Cell} {c d : UInt32} {m q : Place}
    (split : cells 0 lines = u ++ (c, m) :: x ++ (d, q) :: v) :
    marked lines (m, q) = ((c, m) :: x).map Prod.fst := by
  have atMark : offset lines m = u.length := cells_place lines (v := x ++ (d, q) :: v)
    (by rw [split, List.append_assoc, List.cons_append])
  have atCursor : offset lines q = (u ++ (c, m) :: x).length := cells_place lines split
  rw [marked, atMark, atCursor, ← cells_chars lines 0, split, ← List.map_take, ← List.map_drop,
    List.take_left, List.drop_left]

theorem ahead_part (m row : Nat) (le : row + m ≤ lines.length) :
    ahead lines doWrap m row 0 = cells row ((lines.drop row).take m) := by
  induction m generalizing row with
  | zero => rfl
  | succ m ih =>
      rw [ahead, List.drop_zero, List.drop_eq_getElem_cons (show row < lines.length by omega),
        List.take_succ_cons, cells, List.getD_eq_getElem _ _ (show row < lines.length by omega)]
      congr 1
      by_cases more : row + 1 < lines.length
      · rw [if_pos more, ih (row + 1) (by omega)]
      · obtain rfl : m = 0 := by omega
        rw [if_neg more]
        cases doWrap <;> rfl

theorem ahead_rest (k m : Nat) : ∀ row pos : Nat, row + k + 1 = lines.length →
    ahead lines doWrap (k + 1 + m) row pos =
      lineCells row pos ((lines.getD row []).drop pos) ++ cells (row + 1) (lines.drop (row + 1)) ++
        (if doWrap then ahead lines doWrap m 0 0 else []) := by
  induction k with
  | zero =>
      intro row pos last
      rw [show 0 + 1 + m = m + 1 by omega, ahead, if_neg (by omega),
        List.drop_eq_nil_of_le (by omega : lines.length ≤ row + 1), cells, List.append_nil]
  | succ k ih =>
      intro row pos last
      rw [show k + 1 + 1 + m = (k + 1 + m) + 1 by omega, ahead, if_pos (by omega),
        ih (row + 1) 0 (by omega), List.drop_zero,
        List.drop_eq_getElem_cons (show row + 1 < lines.length by omega), cells,
        List.getD_eq_getElem _ _ (show row + 1 < lines.length by omega)]
      simp only [List.append_assoc]

theorem ahead_eq {cursor : Place} (row : cursor.1 < lines.length)
    (pos : cursor.2 ≤ (lines.getD cursor.1 []).length) :
    ahead lines doWrap (lines.length + 1) cursor.1 cursor.2 =
      (cells 0 lines).drop (offset lines cursor) ++
        (if doWrap then cells 0 (lines.take (cursor.1 + 1)) else []) := by
  obtain ⟨r, p⟩ := cursor
  simp only at row pos ⊢
  rw [show lines.length + 1 = (lines.length - r - 1) + 1 + (r + 1) by omega,
    ahead_rest lines doWrap _ _ r p (by omega), ahead_part lines doWrap (r + 1) 0 (by omega),
    List.drop_zero]
  congr 1
  have whole : cells 0 lines = cells 0 (lines.take r) ++ cells r (lines.drop r) := by
    conv_lhs => rw [← List.take_append_drop r lines, cells_append]
    rw [List.length_take_of_le (by omega), Nat.zero_add]
  rw [List.getD_eq_getElem _ _ row] at pos ⊢
  rw [whole, offset, ← cells_length _ 0, List.drop_append, List.drop_eq_getElem_cons row, cells]
  rw [List.drop_eq_nil_of_le (Nat.le_add_right _ _), List.nil_append, Nat.add_sub_cancel_left,
    List.drop_append_of_le_length, lineCells_drop r 0 p pos, Nat.zero_add]
  rw [← List.length_map Prod.fst, lineCells_chars, List.length_append]
  omega

theorem lineCells_end (row pos : Nat) (line : UText) :
    ∃ u p, lineCells row pos line = u ++ [(space, p)] := by
  induction line generalizing pos with
  | nil => exact ⟨[], _, rfl⟩
  | cons c line ih =>
      obtain ⟨u, p, eq⟩ := ih (pos + 1)
      exact ⟨(c, (row, pos)) :: u, p, by rw [lineCells, eq, List.cons_append]⟩

theorem cells_end {lines : List UText} (nonempty : lines ≠ []) (row : Nat) :
    ∃ u p, cells row lines = u ++ [(space, p)] := by
  induction lines generalizing row with
  | nil => exact absurd rfl nonempty
  | cons line lines ih =>
      cases lines with
      | nil =>
          obtain ⟨u, p, eq⟩ := lineCells_end row 0 line
          exact ⟨u, p, by rw [cells, cells, List.append_nil, eq]⟩
      | cons next lines =>
          obtain ⟨u, p, eq⟩ := ih (List.cons_ne_nil _ _) (row + 1)
          exact ⟨lineCells row 0 line ++ u, p, by rw [cells, eq, List.append_assoc]⟩

end Places

end Cone.EditMessageSearch
