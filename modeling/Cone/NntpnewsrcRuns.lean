import Cone.NntpnewsrcMarks

/-! # Runs of marks on a newsrc line -/
set_option autoImplicit false
namespace Cone.NntpnewsrcRuns
open Cone.Lib.Ranges
open Cone.Linebreak
open Cone.Nntpnewsrc
open Cone.NntpnewsrcMarks
open Cone.UnicodeTablookup

/-! ## What parsing gives -/

section Parsing
variable {tab : Tables LbClass} {grow : Nat → Nat}

theorem storeNum_lt (negative : Bool) (digits : List UInt8) :
    (storeNum negative digits).1 < msgnums := by
  have positive : 0 < msgnums := by decide
  unfold storeNum
  dsimp only
  by_cases none : digits.takeWhile Lib.Decimal.isdigit = []
  · rw [if_pos none]
    exact positive
  · rw [if_neg none]
    by_cases large : msgnums ≤ Lib.Decimal.readDigits digits
    · rw [if_pos large]
      exact Nat.sub_lt positive Nat.one_pos
    · rw [if_neg large]
      exact Nat.mod_lt _ positive

theorem extractNum_lt (i : Istringstream) : (extractNum i).1 < msgnums := by
  unfold extractNum
  split
  · exact (by decide : 0 < msgnums)
  · split
    · exact storeNum_lt true _
    · exact storeNum_lt false _
    · exact storeNum_lt false _

theorem readRange_ok (range : List UInt8) :
    (readRange range).1 ≤ (readRange range).2 ∧ (readRange range).2 < msgnums := by
  unfold readRange
  dsimp only
  split_ifs with both
  · exact ⟨both.2, extractNum_lt _⟩
  · exact ⟨le_refl _, extractNum_lt _⟩

theorem addRange_wf {v : Msglist} (wf : Wf v.elems) (range : List UInt8) :
    Wf (addRange grow v range).elems := by
  obtain ⟨ordered, fits⟩ := readRange_ok range
  unfold addRange
  dsimp only
  by_cases positive : (readRange range).1 > 0
  · rw [if_pos positive]
    have alone : Wf [readRange range] :=
      wf_cons_iff.mpr ⟨⟨positive, ordered, fits⟩, ⟨spaced_nil, by simp⟩, by simp⟩
    cases ends : v.elems.getLast? with
    | none =>
        have none : v.elems = [] := List.getLast?_eq_none_iff.mp ends
        simp only [Msglist.pushBack, none, List.nil_append]
        exact alone
    | some ending =>
        obtain ⟨pre, shape⟩ := List.getLast?_eq_some_iff.mp ends
        have around : Around pre ending [] := around_iff.mp (shape ▸ wf)
        obtain ⟨low, ordered', fits'⟩ := around.here
        dsimp only
        by_cases next : (ending.2 + 1) % msgnums = (readRange range).1
        · rw [if_pos next]
          have wrap : ending.2 + 1 < msgnums := by
            by_contra full
            rw [show ending.2 + 1 = msgnums by omega, Nat.mod_self] at next
            omega
          rw [Nat.mod_eq_of_lt wrap] at next
          have length : (pre ++ [ending]).length - 1 = pre.length := by simp
          rw [Msglist.store, shape, length, set_mid]
          exact around_iff.mpr ⟨around.left, around.right, ⟨low, by simp only; omega, fits⟩,
            around.before, by simp, by simp⟩
        · rw [if_neg next]
          by_cases known : ending.2 ≥ (readRange range).1
          · rw [if_pos known]
            exact wf
          · rw [if_neg known]
            have gap : ending.2 + 1 < (readRange range).1 := by
              have apart : ending.2 + 1 ≠ (readRange range).1 := by
                intro same
                exact next (by rw [same]; exact Nat.mod_eq_of_lt (by omega))
              omega
            refine wf_append_iff.mpr ⟨wf, alone, ?_⟩
            intro s mem s' mem'
            rw [List.mem_singleton.mp mem']
            rw [shape] at mem
            rcases List.mem_append.mp mem with mem | mem
            · have := around.before s mem
              omega
            · rw [List.mem_singleton.mp mem]
              exact gap
  · rw [if_neg positive]
    exact wf

theorem ranges_wf (s : List UInt8) (v : Msglist) (wf : Wf v.elems) :
    Wf (ranges tab grow s v).elems := by
  fun_induction ranges tab grow s v with
  | case1 s v word h =>
      exact wf
  | case2 s v word c cs h ih =>
      exact ih (addRange_wf wf _)

theorem groupName_msglist (n : Newsrc) (s cs : List UInt8) :
    (groupName tab n s cs).1.msglist = n.msglist := by
  induction cs with
  | nil => rfl
  | cons c cs ih =>
      unfold groupName
      split_ifs
      · rfl
      · rfl
      · rfl
      · exact ih

theorem wf_empty : Wf empty.msglist.elems := ⟨spaced_nil, by simp [empty]⟩

theorem parse_wf (s : List UInt8) : Wf (parse tab grow s).msglist.elems := by
  unfold parse
  split_ifs
  · exact wf_empty
  · apply ranges_wf
    rw [groupName_msglist]
    exact wf_empty

end Parsing

/-! ## Runs -/

inductive Mark
  | read (m : Nat)
  | unread (m : Nat)

def Mark.number : Mark → Nat
  | .read m => m
  | .unread m => m

section Runs
variable (grow : Nat → Nat)

def mark (v : Msglist) : Mark → Option Msglist
  | .read m => Nntpnewsrc.read grow v m
  | .unread m => unread grow v m

def marked (s : Set Nat) : Mark → Set Nat
  | .read m => insert m s
  | .unread m => s \ {m}

/-- The condition on the list before the call. -/
def MarkOk (v : Msglist) : Mark → Prop
  | .read m => ReadOk v.elems m
  | .unread m => UnreadOk v m

/-- Every state of the run is well-formed and holds exactly the numbers it should, and every
call is defined. -/
def Exact : Msglist → Set Nat → List Mark → Prop
  | v, s, [] => Wf v.elems ∧ numbers v.elems = s
  | v, s, op :: ops => Wf v.elems ∧ numbers v.elems = s ∧
    ∃ v', mark grow v op = some v' ∧ Exact v' (marked s op) ops

def Meets : Msglist → List Mark → Prop
  | _, [] => True
  | v, op :: ops => MarkOk v op ∧ ∀ v', mark grow v op = some v' → Meets v' ops

variable {grow}

theorem mark_iff {v : Msglist} (wf : Wf v.elems) {op : Mark} (low : 1 ≤ op.number)
    (high : op.number + 1 < msgnums) :
    Gives (mark grow v op) (marked (numbers v.elems) op) ↔ MarkOk v op := by
  cases op with
  | read m => exact read_iff low high wf
  | unread m => exact unread_iff wf

theorem Exact.start {v : Msglist} {s : Set Nat} {ops : List Mark} (h : Exact grow v s ops) :
    Wf v.elems ∧ numbers v.elems = s := by
  cases ops with
  | nil => exact h
  | cons op ops => exact ⟨h.1, h.2.1⟩

theorem exact_iff {v : Msglist} (wf : Wf v.elems) (ops : List Mark)
    (inRange : ∀ op ∈ ops, 1 ≤ op.number ∧ op.number + 1 < msgnums) :
    Exact grow v (numbers v.elems) ops ↔ Meets grow v ops := by
  induction ops generalizing v with
  | nil => exact ⟨fun _ => trivial, fun _ => ⟨wf, rfl⟩⟩
  | cons op ops ih =>
      obtain ⟨low, high⟩ := inRange op (by simp)
      have rest : ∀ op ∈ ops, 1 ≤ op.number ∧ op.number + 1 < msgnums :=
        fun op mem => inRange op (by simp [mem])
      have step : Gives (mark grow v op) _ ↔ _ := mark_iff wf low high
      constructor
      · rintro ⟨-, -, v', call, later⟩
        obtain ⟨wf', same⟩ := later.start
        refine ⟨step.mp ⟨v', call, wf', same⟩, fun v'' call' => ?_⟩
        obtain rfl : v' = v'' := Option.some.inj (call.symm.trans call')
        rw [← same] at later
        exact (ih wf' rest).mp later
      · rintro ⟨ok, later⟩
        obtain ⟨v', call, wf', same⟩ := step.mpr ok
        refine ⟨wf, rfl, v', call, ?_⟩
        rw [← same]
        exact (ih wf' rest).mpr (later v' call)

end Runs

inductive Start (tab : Tables LbClass) (grow : Nat → Nat) : Msglist → Prop
  | empty : Start tab grow empty.msglist
  | parse (s : List UInt8) : Start tab grow (parse tab grow s).msglist

/-- A run keeps the list exact just as long as every call meets its condition. -/
theorem marks_exact_iff (tab : Tables LbClass) (grow : Nat → Nat) (v : Msglist)
    (start : Start tab grow v) (ops : List Mark)
    (inRange : ∀ op ∈ ops, 1 ≤ op.number ∧ op.number < msgnums - 1) :
    Exact grow v (numbers v.elems) ops ↔ Meets grow v ops := by
  have wf : Wf v.elems := by
    cases start with
    | empty => exact wf_empty
    | parse s => exact parse_wf s
  refine exact_iff wf ops fun op mem => ?_
  have := inRange op mem
  omega

def doubling (n : Nat) : Nat := max 1 (2 * n)

def noTables : Tables LbClass := { indextab := #[], rangetab := #[], classtab := #[] }

theorem numbers_empty : numbers empty.msglist.elems = ∅ := by
  ext n
  simp [empty]

/-- Messages read downwards. -/
theorem marks_exact_sample : Exact doubling empty.msglist ∅ [.read 5, .read 4] := by
  rw [← numbers_empty]
  refine (marks_exact_iff noTables doubling empty.msglist .empty [.read 5, .read 4] ?_).mpr
    ⟨.inl rfl, fun v' call => ⟨.inr ?_, fun v'' call' => trivial⟩⟩
  · simp [Mark.number, msgnums]
  · obtain rfl : { elems := [(5, 5)], capacity := 1 } = v' := Option.some.inj call
    exact ⟨⟨(5, 5), rfl, by decide⟩, (5, 5), rfl, by decide⟩

theorem read_behind_last :
    mark doubling { elems := [(1, 1)], capacity := 1 } (.read 5) = none := rfl

theorem read_before_first :
    mark doubling { elems := [(5, 5)], capacity := 1 } (.read 1) =
      some { elems := [(4, 5)], capacity := 1 } := rfl

/-- A split in a full vector: the upper half is moved, and the lower one written to the old
memory. -/
theorem unread_full :
    mark doubling { elems := [(3, 5)], capacity := 1 } (.unread 4) = none := rfl

/-- One run for each of the three. -/
theorem marks_inexact :
    ¬ Exact doubling empty.msglist ∅ [.read 1, .read 5] ∧
      ¬ Exact doubling empty.msglist ∅ [.read 5, .read 1] ∧
      ¬ Exact doubling empty.msglist ∅ [.read 5, .read 4, .read 3, .unread 4] := by
  refine ⟨?_, ?_, ?_⟩
  · rintro ⟨-, -, v', call, -, -, v'', call', -⟩
    obtain rfl : { elems := [(1, 1)], capacity := 1 } = v' := Option.some.inj call
    rw [read_behind_last] at call'
    cases call'
  · rintro ⟨-, -, v', call, -, -, v'', call', -, same⟩
    obtain rfl : { elems := [(5, 5)], capacity := 1 } = v' := Option.some.inj call
    rw [read_before_first] at call'
    obtain rfl : { elems := [(4, 5)], capacity := 1 } = v'' := Option.some.inj call'
    have four : 4 ∈ marked (marked ∅ (.read 5)) (.read 1) := by
      rw [← same]
      exact ⟨(4, 5), by simp, by decide, by decide⟩
    simp [marked] at four
  · rintro ⟨-, -, v₁, call₁, -, -, v₂, call₂, -, -, v₃, call₃, -, -, v₄, call₄, -⟩
    obtain rfl : { elems := [(5, 5)], capacity := 1 } = v₁ := Option.some.inj call₁
    obtain rfl : { elems := [(4, 5)], capacity := 1 } = v₂ := Option.some.inj call₂
    obtain rfl : { elems := [(3, 5)], capacity := 1 } = v₃ := Option.some.inj call₃
    rw [unread_full] at call₄
    cases call₄

end Cone.NntpnewsrcRuns
