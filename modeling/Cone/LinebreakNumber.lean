import Cone.Lib.ClassLanguage
import Cone.Linebreak

/-! # Numbers in running text (the regular expression of LB25)

`insideNumber before after` says that a match of the expression reaches over the boundary
between two texts.  It is decided by the last classes of the first and the first classes of the
second. -/
set_option autoImplicit false
namespace Cone.LinebreakNumber
open RegularExpression
open Cone.Lib.ClassLanguage
open Cone.Linebreak
open LbClass

abbrev Expr := RegularExpression LbClass

/-! ## The expression -/

def afterClose : Expr := opt (oneOf [PR, PO]) * 1

def afterNumber : Expr := star (oneOf [NU, SY, IS]) * (opt (oneOf [CL, CP]) * afterClose)

/-- `NU (NU | SY | IS)* (CL | CP)? (PR | PO)?` -/
def afterSign : Expr := oneOf [NU] * afterNumber

def afterLead : Expr := opt (oneOf [OP, HY]) * afterSign

def lb25 : Expr := opt (oneOf [PR, PO]) * afterLead

/-- Some match of the expression begins in `before` (nearest class first) and ends in `after`. -/
def insideNumber (before after : List LbClass) : Bool :=
  before.inits.any fun u => after.inits.any fun v =>
    !u.isEmpty && !v.isEmpty && lb25.rmatch (u.reverse ++ v)

section Words
variable {x : LbClass} {w : List LbClass}

theorem nil_mem_afterClose : [] ∈ afterClose.matches' := by
  rw [afterClose, matches'_mul, nil_mem_opt_mul]
  exact Language.nil_mem_one

theorem cons_mem_afterClose : x :: w ∈ afterClose.matches' ↔ (x = PR ∨ x = PO) ∧ w = [] := by
  rw [afterClose, matches'_mul, cons_mem_opt_mul, matches'_epsilon, Language.mem_one,
    Language.mem_one]
  simp

theorem nil_mem_afterNumber : [] ∈ afterNumber.matches' := by
  rw [afterNumber, matches'_mul, nil_mem_star_mul, matches'_mul, nil_mem_opt_mul]
  exact nil_mem_afterClose

theorem cons_mem_afterNumber : x :: w ∈ afterNumber.matches' ↔
    ((x = NU ∨ x = SY ∨ x = IS) ∧ w ∈ afterNumber.matches') ∨
      ((x = CL ∨ x = CP) ∧ w ∈ afterClose.matches') ∨ (x = PR ∨ x = PO) ∧ w = [] := by
  rw [afterNumber, matches'_mul, cons_mem_star_mul, matches'_mul, cons_mem_opt_mul,
    cons_mem_afterClose]
  simp

theorem nil_mem_afterSign : ¬ [] ∈ afterSign.matches' := by
  rw [afterSign, matches'_mul]
  exact nil_mem_oneOf_mul

theorem cons_mem_afterSign :
    x :: w ∈ afterSign.matches' ↔ x = NU ∧ w ∈ afterNumber.matches' := by
  rw [afterSign, matches'_mul, cons_mem_oneOf_mul]
  simp

theorem cons_mem_afterLead : x :: w ∈ afterLead.matches' ↔
    ((x = OP ∨ x = HY) ∧ w ∈ afterSign.matches') ∨ x = NU ∧ w ∈ afterNumber.matches' := by
  rw [afterLead, matches'_mul, cons_mem_opt_mul, cons_mem_afterSign]
  simp

theorem cons_mem_lb25 : x :: w ∈ lb25.matches' ↔
    ((x = PR ∨ x = PO) ∧ w ∈ afterLead.matches') ∨
      ((x = OP ∨ x = HY) ∧ w ∈ afterSign.matches') ∨ x = NU ∧ w ∈ afterNumber.matches' := by
  rw [lb25, matches'_mul, cons_mem_opt_mul, cons_mem_afterLead]
  simp

end Words

/-! ## What a match needs on each side -/

/-- The text ends in `NU (NU | SY | IS)*`. -/
def number : List LbClass → Bool
  | [] => false
  | x :: before => x = NU || ((x = SY || x = IS) && number before)

/-- The text ends in `NU (NU | SY | IS)* (CL | CP)`. -/
def closed : List LbClass → Bool
  | [] => false
  | x :: before => (x = CL || x = CP) && number before

def Completes (before w : List LbClass) : Prop :=
  ∃ u, u ≠ [] ∧ u <+: before ∧ u.reverse ++ w ∈ lb25.matches'

section Completing
variable {x : LbClass} {before w : List LbClass}

theorem completes_nil : ¬ Completes [] w := by
  rintro ⟨u, some, pre, -⟩
  exact some (List.prefix_nil.mp pre)

theorem completes_cons :
    Completes (x :: before) w ↔ x :: w ∈ lb25.matches' ∨ Completes before (x :: w) := by
  constructor
  · rintro ⟨u, some, pre, found⟩
    cases u with
    | nil => exact absurd rfl some
    | cons y u =>
        obtain ⟨rfl, pre'⟩ := List.cons_prefix_cons.mp pre
        rw [List.reverse_cons, List.append_assoc] at found
        cases u with
        | nil => exact .inl found
        | cons z u => exact .inr ⟨z :: u, List.cons_ne_nil z u, pre', found⟩
  · rintro (found | ⟨u, some, pre, found⟩)
    · exact ⟨[x], List.cons_ne_nil x [], by simp, found⟩
    · refine ⟨x :: u, List.cons_ne_nil x u, List.cons_prefix_cons.mpr ⟨rfl, pre⟩, ?_⟩
      rw [List.reverse_cons, List.append_assoc]
      exact found

/-- The cases of the last class. -/
theorem completes_iff : Completes (x :: before) w ↔
    ((x = PR ∨ x = PO) ∧ w ∈ afterLead.matches') ∨
      ((x = OP ∨ x = HY) ∧ w ∈ afterSign.matches') ∨
      (number (x :: before) = true ∧ w ∈ afterNumber.matches') ∨
      (closed (x :: before) = true ∧ w ∈ afterClose.matches') ∨
      (x = PR ∨ x = PO) ∧ (number before = true ∨ closed before = true) ∧ w = [] := by
  induction before generalizing x w with
  | nil =>
      rw [completes_cons, cons_mem_lb25, iff_false_intro completes_nil]
      simp only [number, closed]
      simp
  | cons y before ih =>
      rw [completes_cons, cons_mem_lb25, ih, cons_mem_afterLead, cons_mem_afterSign,
        cons_mem_afterNumber, cons_mem_afterClose]
      simp only [number, closed, Bool.or_eq_true, Bool.and_eq_true, decide_eq_true_eq]
      cases x <;> simp <;> tauto

theorem insideNumber_completes {c : LbClass} {after : List LbClass} :
    insideNumber before (c :: after) = true ↔ ∃ v, v <+: after ∧ Completes before (c :: v) := by
  simp only [insideNumber, List.any_eq_true, List.mem_inits, Bool.and_eq_true,
    Bool.not_eq_true', List.isEmpty_eq_false_iff, rmatch_iff_matches']
  constructor
  · rintro ⟨u, pre, v, pre', ⟨some, some'⟩, found⟩
    cases v with
    | nil => exact absurd rfl some'
    | cons y v =>
        obtain ⟨rfl, pre''⟩ := List.cons_prefix_cons.mp pre'
        exact ⟨v, pre'', u, some, pre, found⟩
  · rintro ⟨v, pre', u, some, pre, found⟩
    exact ⟨u, pre, c :: v, List.cons_prefix_cons.mpr ⟨rfl, pre'⟩, ⟨some, List.cons_ne_nil c v⟩,
      found⟩

theorem prefix_afterSign {after : List LbClass} :
    (∃ v, v <+: after ∧ v ∈ afterSign.matches') ↔ after.head? = some NU := by
  constructor
  · rintro ⟨v, ⟨t, rfl⟩, found⟩
    cases v with
    | nil => exact absurd found nil_mem_afterSign
    | cons y v => rw [(cons_mem_afterSign.mp found).1]; rfl
  · intro first
    cases after with
    | nil => cases first
    | cons y after =>
        refine ⟨[y], by simp, cons_mem_afterSign.mpr ⟨Option.some.inj first, nil_mem_afterNumber⟩⟩

theorem insideNumber_iff {c : LbClass} {after : List LbClass} :
    insideNumber (x :: before) (c :: after) = true ↔
      (c = NU ∧ (number (x :: before) = true ∨ x = PR ∨ x = PO ∨ x = OP ∨ x = HY)) ∨
      ((c = SY ∨ c = IS ∨ c = CL ∨ c = CP) ∧ number (x :: before) = true) ∨
      ((c = PR ∨ c = PO) ∧ (number (x :: before) = true ∨ closed (x :: before) = true)) ∨
      ((c = OP ∨ c = HY) ∧ (x = PR ∨ x = PO) ∧ after.head? = some NU) := by
  rw [insideNumber_completes]
  simp only [completes_iff, cons_mem_afterLead, cons_mem_afterSign, cons_mem_afterNumber,
    cons_mem_afterClose, ← prefix_afterSign]
  have empty : [] <+: after := List.nil_prefix
  constructor
  · rintro ⟨v, pre, ⟨lead, ⟨sign, rest⟩ | ⟨rfl, -⟩⟩ | ⟨sign, rfl, -⟩ |
      ⟨num, ⟨rfl | rfl | rfl, -⟩ | ⟨close, -⟩ | ⟨unit, -⟩⟩ | ⟨close, unit, -⟩ | ⟨-, -, none⟩⟩
    · exact .inr (.inr (.inr ⟨sign, lead, v, pre, rest⟩))
    · exact .inl ⟨rfl, .inr (lead.imp_right .inl)⟩
    · exact .inl ⟨rfl, .inr (.inr (.inr sign))⟩
    · exact .inl ⟨rfl, .inl num⟩
    · exact .inr (.inl ⟨.inl rfl, num⟩)
    · exact .inr (.inl ⟨.inr (.inl rfl), num⟩)
    · exact .inr (.inl ⟨.inr (.inr close), num⟩)
    · exact .inr (.inr (.inl ⟨unit, .inl num⟩))
    · exact .inr (.inr (.inl ⟨unit, .inr close⟩))
    · cases none
  · have num := nil_mem_afterNumber
    have close := nil_mem_afterClose
    rintro (⟨rfl, inside | lead | lead | sign⟩ | ⟨cont, inside⟩ | ⟨unit, inside | inside⟩ |
      ⟨sign, lead, v, pre, found⟩)
    · exact ⟨[], empty, .inr (.inr (.inl ⟨inside, .inl ⟨.inl rfl, num⟩⟩))⟩
    · exact ⟨[], empty, .inl ⟨.inl lead, .inr ⟨rfl, num⟩⟩⟩
    · exact ⟨[], empty, .inl ⟨.inr lead, .inr ⟨rfl, num⟩⟩⟩
    · exact ⟨[], empty, .inr (.inl ⟨sign, rfl, num⟩)⟩
    · refine ⟨[], empty, .inr (.inr (.inl ⟨inside, ?_⟩))⟩
      rcases cont with sy | is | close'
      · exact .inl ⟨.inr (.inl sy), num⟩
      · exact .inl ⟨.inr (.inr is), num⟩
      · exact .inr (.inl ⟨close', close⟩)
    · exact ⟨[], empty, .inr (.inr (.inl ⟨inside, .inr (.inr ⟨unit, rfl⟩)⟩))⟩
    · exact ⟨[], empty, .inr (.inr (.inr (.inl ⟨inside, unit, rfl⟩)))⟩
    · exact ⟨v, pre, .inl ⟨lead, .inl ⟨sign, found⟩⟩⟩

end Completing

end Cone.LinebreakNumber
