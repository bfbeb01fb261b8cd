import Cone.CdecodeClients
import Cone.Lib.Lines
import Cone.Rfc2045Header
import Cone.TransferRoundTrip

/-! # Trying a boundary (`rfc2045/rfc2045tryboundary.c`)

`rfc2045_try_boundary` decodes every body that is not base64 and looks at its lines.  A line is
gathered in a buffer that takes no more once it is longer than the boundary by some. -/
set_option autoImplicit false
namespace Cone.Rfc2045Tryboundary

open Cone.Ctype Cone.Lib.Lines Cone.Lib.ReturnCode Cone.Cdecode Cone.CdecodeClients
open Cone.Rfc2045Header (tolower)

structure Chk where
  buf : List UInt8
  flag : Bool
  deriving DecidableEq, Repr

section Check
variable (val : List UInt8)

def boundaryChkAdd (p : List UInt8) (chk : Chk) : Chk :=
  if chk.buf.length < val.length + 20 then { chk with buf := chk.buf ++ p } else chk

/-- `strncasecmp` is given as many bytes as the boundary has, none of them a null. -/
def collides (line : List UInt8) : Bool :=
  val.length + 2 ≤ line.length && line.head? = some (byte '-') &&
    line.tail.head? = some (byte '-') && ((line.drop 2).take val.length).map tolower = val.map tolower

/-- The loop of `boundary_chk`; `run` is what lies between `j` and `i`. -/
def boundaryChkLoop : List UInt8 → List UInt8 → Chk → Chk
  | run, [], chk => boundaryChkAdd val run chk
  | run, c :: p, chk =>
    if c ≠ NL then boundaryChkLoop (run ++ [c]) p chk
    else
      let line := boundaryChkAdd val run chk
      boundaryChkLoop [] p ⟨[], line.flag || collides val line.buf⟩

def boundaryChk : Callback Chk := fun p chk => (0, boundaryChkLoop val [] p chk)

end Check

/-! ## The bodies of a message -/

structure Rfc2045src where
  message : List UInt8
  seekFunc : Nat → Int
  readFunc : Nat → Nat → Option (List UInt8)
  read : ∀ ps cnt bytes, readFunc ps cnt = some bytes →
    bytes <+: message.drop ps ∧ bytes.length ≤ cnt

/-- The fields of a `struct rfc2045` that has no parts. -/
structure Leaf where
  contentTransferEncoding : Option (List UInt8)
  startbody : Nat
  endbody : Nat

inductive Part where
  | leaf (leaf : Leaf)
  | node (firstpart : Part) (next : List Part)

def Leaf.isBase64 (leaf : Leaf) : Prop :=
  leaf.contentTransferEncoding = some TransferRoundTrip.TransferEncoding.base64.name

instance (leaf : Leaf) : Decidable leaf.isBase64 := inferInstanceAs (Decidable (_ = _))

section Try
variable (src : Rfc2045src) (val : List UInt8)

def readLoop : Nat → Nat → Nat → Rfc2045 Chk → Option (Rfc2045 Chk)
  | 0, _, _, p => some p
  | fuel + 1, ps, endbody, p =>
    if ps < endbody then
      match src.readFunc ps (min (endbody - ps) 512) with
      | none => none
      | some buf =>
        if buf = [] then none
        else
          let p := (rfc2045Cdecode p buf).2
          if p.miscDecodePtr.flag then some p
          else readLoop fuel (ps + buf.length) endbody p
    else some p

/-- `try_boundary` of a part that has no parts. -/
def tryLeaf (leaf : Leaf) : Int :=
  if leaf.isBase64 then 0
  else if src.seekFunc leaf.startbody = -1 then -1
  else
    match readLoop src (leaf.endbody - leaf.startbody) leaf.startbody leaf.endbody
        (rfc2045CdecodeStart leaf.contentTransferEncoding (boundaryChk val) ⟨[], false⟩) with
    | none => -1
    | some p =>
      let chk := (rfc2045CdecodeEnd p).2.miscDecodePtr
      let chk := if chk.buf ≠ [] then boundaryChkLoop val [] [NL] chk else chk
      if chk.flag then 1 else 0

mutual
def tryBoundary : Part → Int
  | .leaf leaf => tryLeaf src val leaf
  | .node firstpart next =>
    let rc := tryBoundary firstpart
    if rc ≠ 0 then rc else tryParts next

def tryParts : List Part → Int
  | [] => 0
  | p :: next =>
    let rc := tryBoundary p
    if rc ≠ 0 then rc else tryParts next
end

mutual
def leaves : Part → List Leaf
  | .leaf leaf => [leaf]
  | .node firstpart next => leaves firstpart ++ leavesOf next

def leavesOf : List Part → List Leaf
  | [] => []
  | p :: next => leaves p ++ leavesOf next
end

def readsLoop : Nat → Nat → Nat → Option (List (List UInt8))
  | 0, _, _ => some []
  | fuel + 1, ps, endbody =>
    if ps < endbody then
      match src.readFunc ps (min (endbody - ps) 512) with
      | none => none
      | some buf =>
        if buf = [] then none else (readsLoop fuel (ps + buf.length) endbody).map (buf :: ·)
    else some []

def reads (leaf : Leaf) : Option (List (List UInt8)) :=
  readsLoop src (leaf.endbody - leaf.startbody) leaf.startbody leaf.endbody

def body (leaf : Leaf) : List UInt8 :=
  (src.message.drop leaf.startbody).take (leaf.endbody - leaf.startbody)

end Try

/-! ## Lines -/

section Lines
variable {val : List UInt8}

def NoLine (val text : List UInt8) : Prop := ∀ line ∈ text.splitOn NL, collides val line = false

/-- The flag and the line after a byte more. -/
def scan (val : List UInt8) (st : Bool × List UInt8) (c : UInt8) : Bool × List UInt8 :=
  if c ≠ NL then (st.1, st.2 ++ [c]) else (st.1 || collides val st.2, [])

theorem scan_eachLine (flag : Bool) (line text : List UInt8) :
    ((text.foldl (scan val) (flag, line)).1 = false ∧
      collides val (text.foldl (scan val) (flag, line)).2 = false) ↔
        flag = false ∧ EachLine NL (fun l => collides val l = false) line text := by
  induction text generalizing flag line with
  | nil => rfl
  | cons c text ih =>
      rw [List.foldl_cons, scan]
      by_cases inLine : c ≠ NL
      · rw [if_pos inLine, ih, EachLine, if_neg inLine]
      · have stop : c = NL := not_not.mp inLine
        rw [if_neg inLine, ih, EachLine, if_pos stop, Bool.or_eq_false_iff, and_assoc]

theorem noLine_iff_scan (text : List UInt8) :
    NoLine val text ↔ (text.foldl (scan val) (false, [])).1 = false ∧
      collides val (text.foldl (scan val) (false, [])).2 = false := by
  rw [scan_eachLine, NoLine, forall_splitOn_iff]
  simp

theorem collides_iff (line : List UInt8) :
    collides val line = true ↔
      ∃ cand, byte '-' :: byte '-' :: cand <+: line ∧ cand.map tolower = val.map tolower := by
  constructor
  · intro h
    match line, h with
    | [], h => simp [collides] at h
    | [_], h => simp [collides] at h
    | c :: d :: line, h =>
        simp only [collides, List.head?_cons, List.tail_cons, Bool.and_eq_true,
          decide_eq_true_eq, Option.some.injEq, List.drop_succ_cons, List.drop_zero] at h
        obtain ⟨⟨⟨-, rfl⟩, rfl⟩, same⟩ := h
        refine ⟨line.take val.length, ?_, same⟩
        rw [List.cons_prefix_cons, List.cons_prefix_cons]
        exact ⟨rfl, rfl, List.take_prefix _ _⟩
  · intro ⟨cand, ⟨rest, line⟩, same⟩
    have length : cand.length = val.length := by simpa using congrArg List.length same
    rw [← line, collides]
    simp [← length, same]

theorem collides_mono {line line' : List UInt8} (h : collides val line = true)
    (front : line <+: line') : collides val line' = true := by
  obtain ⟨cand, begins, same⟩ := (collides_iff line).mp h
  exact (collides_iff line').mpr ⟨cand, begins.trans front, same⟩

def Stands (val line buf : List UInt8) : Prop :=
  buf = line ∨ val.length + 20 ≤ buf.length ∧ buf <+: line

theorem Stands.collides {line buf : List UInt8} (h : Stands val line buf) :
    collides val buf = collides val line := by
  rcases h with rfl | ⟨long, front⟩
  · rfl
  · rw [Bool.eq_iff_iff]
    constructor
    · intro h
      exact collides_mono h front
    · intro h
      obtain ⟨cand, begins, same⟩ := (collides_iff line).mp h
      have length : cand.length = val.length := by simpa using congrArg List.length same
      refine (collides_iff buf).mpr ⟨cand, ?_, same⟩
      refine List.prefix_of_prefix_length_le begins front ?_
      rw [List.length_cons, List.length_cons]
      omega

theorem Stands.add {line : List UInt8} {chk : Chk} (h : Stands val line chk.buf)
    (p : List UInt8) : Stands val (line ++ p) (boundaryChkAdd val p chk).buf := by
  rw [boundaryChkAdd]
  by_cases room : chk.buf.length < val.length + 20
  · rw [if_pos room]
    rcases h with rfl | ⟨long, -⟩
    · exact Or.inl rfl
    · omega
  · rw [if_neg room]
    rcases h with rfl | ⟨long, front⟩
    · exact Or.inr ⟨by omega, List.prefix_append _ _⟩
    · exact Or.inr ⟨long, front.trans (List.prefix_append _ _)⟩

def Checked (val out : List UInt8) (chk : Chk) : Prop :=
  chk.flag = (out.foldl (scan val) (false, [])).1 ∧
    Stands val (out.foldl (scan val) (false, [])).2 chk.buf

theorem boundaryChkAdd_flag (p : List UInt8) (chk : Chk) :
    (boundaryChkAdd val p chk).flag = chk.flag := by
  rw [boundaryChkAdd]
  split <;> rfl

theorem boundaryChkLoop_scan (run p : List UInt8) (chk : Chk) (st : Bool × List UInt8)
    (flag : chk.flag = st.1) (stands : Stands val st.2 chk.buf) :
    (boundaryChkLoop val run p chk).flag = (p.foldl (scan val) (st.1, st.2 ++ run)).1 ∧
      Stands val (p.foldl (scan val) (st.1, st.2 ++ run)).2 (boundaryChkLoop val run p chk).buf := by
  induction p generalizing run chk st with
  | nil => exact ⟨(boundaryChkAdd_flag run chk).trans flag, stands.add run⟩
  | cons c p ih =>
      rw [boundaryChkLoop, List.foldl_cons, scan]
      by_cases inLine : c ≠ NL
      · rw [if_pos inLine, if_pos inLine, List.append_assoc]
        exact ih (run ++ [c]) chk st flag stands
      · rw [if_neg inLine, if_neg inLine]
        have line := (stands.add run).collides
        have next := ih [] ⟨[], (boundaryChkAdd val run chk).flag ||
          Rfc2045Tryboundary.collides val (boundaryChkAdd val run chk).buf⟩
          (st.1 || Rfc2045Tryboundary.collides val (st.2 ++ run), [])
          (by simp only [line, boundaryChkAdd_flag, flag]) (Or.inl rfl)
        rwa [List.append_nil] at next

theorem checked_boundaryChk (bytes out : List UInt8) (chk : Chk) (h : Checked val out chk) :
    (boundaryChk val bytes chk).1 = 0 ∧ Checked val (out ++ bytes) (boundaryChk val bytes chk).2 := by
  obtain ⟨flag, stands⟩ := h
  have step := boundaryChkLoop_scan [] bytes chk _ flag stands
  rw [List.append_nil] at step
  rw [Checked, List.foldl_append]
  exact ⟨rfl, step⟩

end Lines

/-! ## A body that passes -/

section Passes
variable {src : Rfc2045src} {val : List UInt8}

theorem readLoop_reads {fuel ps endbody : Nat} {p q : Rfc2045 Chk}
    (h : readLoop src fuel ps endbody p = some q) :
    ∃ rs, q = calls rs p ∧
      (q.miscDecodePtr.flag = false → readsLoop src fuel ps endbody = some rs) := by
  induction fuel generalizing ps p with
  | zero =>
      obtain rfl : p = q := by simpa [readLoop] using h
      exact ⟨[], rfl, fun _ => rfl⟩
  | succ fuel ih =>
      rw [readLoop] at h
      rw [readsLoop]
      by_cases more : ps < endbody
      · rw [if_pos more] at h ⊢
        cases read : src.readFunc ps (min (endbody - ps) 512) with
        | none => simp [read] at h
        | some buf =>
            simp only [read] at h ⊢
            by_cases empty : buf = []
            · simp [empty] at h
            · rw [if_neg empty] at h ⊢
              by_cases stop : (rfc2045Cdecode p buf).2.miscDecodePtr.flag = true
              · rw [if_pos stop] at h
                obtain rfl := Option.some.inj h
                refine ⟨[buf], rfl, fun quiet => ?_⟩
                rw [stop] at quiet
                cases quiet
              · rw [if_neg stop] at h
                obtain ⟨rs, rfl, later⟩ := ih h
                exact ⟨buf :: rs, rfl, fun quiet => by rw [later quiet]; rfl⟩
      · rw [if_neg more] at h ⊢
        obtain rfl := Option.some.inj h
        exact ⟨[], rfl, fun _ => rfl⟩

/-- The reads are the body, cut in pieces of up to 512 bytes. -/
theorem readsLoop_flatten {fuel ps endbody : Nat} {rs : List (List UInt8)}
    (enough : endbody - ps ≤ fuel) (h : readsLoop src fuel ps endbody = some rs) :
    rs.flatten = (src.message.drop ps).take (endbody - ps) ∧ ∀ s ∈ rs, s.length ≤ 512 := by
  induction fuel generalizing ps rs with
  | zero =>
      obtain rfl : [] = rs := by simpa [readsLoop] using h
      rw [Nat.le_zero.mp enough]
      simp
  | succ fuel ih =>
      rw [readsLoop] at h
      by_cases more : ps < endbody
      · rw [if_pos more] at h
        cases read : src.readFunc ps (min (endbody - ps) 512) with
        | none => simp [read] at h
        | some buf =>
            simp only [read] at h
            by_cases empty : buf = []
            · simp [empty] at h
            · rw [if_neg empty] at h
              obtain ⟨later, found, rfl⟩ := Option.map_eq_some_iff.mp h
              obtain ⟨front, short⟩ := src.read ps _ buf read
              have positive := List.length_pos_iff.mpr empty
              obtain ⟨whole, bounded⟩ := ih (by omega) found
              constructor
              · obtain ⟨rest, split⟩ := front
                rw [List.flatten_cons, whole, ← List.drop_drop, ← split, List.drop_left,
                  show endbody - ps = buf.length + (endbody - (ps + buf.length)) by omega,
                  List.take_length_add_append]
              · intro s hs
                rcases List.mem_cons.mp hs with rfl | later'
                · omega
                · exact bounded s later'
      · rw [if_neg more] at h
        obtain rfl := Option.some.inj h
        rw [Nat.sub_eq_zero_of_le (Nat.le_of_not_lt more)]
        simp

def Free (src : Rfc2045src) (val : List UInt8) (leaf : Leaf) : Prop :=
  NoLine val (body src leaf) ∧
    ∃ rs, reads src leaf = some rs ∧ NoLine val (decodedForm leaf.contentTransferEncoding rs)

theorem scan_flag_mono (st : Bool × List UInt8) (text : List UInt8) (up : st.1 = true) :
    (text.foldl (scan val) st).1 = true := by
  induction text generalizing st with
  | nil => exact up
  | cons c text ih =>
      refine ih _ ?_
      rw [scan]
      split
      · exact up
      · simp [up]

theorem keep_checked : Keep (Checked val) collect (boundaryChk val) :=
  keep_collect checked_boundaryChk

theorem alike_checked (cte : Option (List UInt8)) (rs : List (List UInt8)) :
    Alike (Checked val) collect (boundaryChk val) (collecting cte rs)
      (calls rs (rfc2045CdecodeStart cte (boundaryChk val) ⟨[], false⟩)) :=
  alike_calls keep_checked rs (alike_start cte [] (Chk.mk [] false) ⟨rfl, Or.inl rfl⟩)

theorem flushed_flag {out : List UInt8} {chk : Chk} (h : Checked val out chk) :
    (if chk.buf ≠ [] then boundaryChkLoop val [] [NL] chk else chk).flag = false ↔
      NoLine val out := by
  obtain ⟨flag, stands⟩ := h
  have line := stands.collides
  rw [noLine_iff_scan, ← flag, ← line]
  by_cases partial' : chk.buf = []
  · simp [partial', collides]
  · rw [if_pos partial']
    simp [boundaryChkLoop, boundaryChkAdd]

theorem decoded_of_tryLeaf {leaf : Leaf} (other : ¬ leaf.isBase64)
    (h : tryLeaf src val leaf = 0) :
    ∃ rs, reads src leaf = some rs ∧ NoLine val (decodedForm leaf.contentTransferEncoding rs) := by
  rw [tryLeaf, if_neg other] at h
  by_cases lost : src.seekFunc leaf.startbody = -1
  · rw [if_pos lost] at h
    cases h
  · rw [if_neg lost] at h
    cases run : readLoop src (leaf.endbody - leaf.startbody) leaf.startbody leaf.endbody
        (rfc2045CdecodeStart leaf.contentTransferEncoding (boundaryChk val) ⟨[], false⟩) with
    | none => simp [run] at h
    | some q =>
        obtain ⟨rs, rfl, whole⟩ := readLoop_reads run
        have alike : Alike (Checked val) collect (boundaryChk val) _ _ :=
          alike_checked leaf.contentTransferEncoding rs
        have final := (rfc2045CdecodeEnd_both keep_checked alike).alike.clients
        have free : NoLine val (decodedForm leaf.contentTransferEncoding rs) := by
          rw [decodedForm, ← flushed_flag final]
          simpa [run] using h
        refine ⟨rs, whole ?_, free⟩
        rw [alike.clients.1]
        obtain ⟨rest, more⟩ := delivered_prefix leaf.contentTransferEncoding rs
        rw [← more, noLine_iff_scan, List.foldl_append] at free
        by_contra up
        have down := free.1
        have still : (rest.foldl (scan val) _).1 = true :=
          scan_flag_mono _ rest (Bool.eq_true_of_not_eq_false up)
        exact Bool.noConfusion (down.symm.trans still)

mutual
theorem tryBoundary_leaves (part : Part) (h : tryBoundary src val part = 0) :
    ∀ leaf ∈ leaves part, tryLeaf src val leaf = 0 := by
  cases part with
  | leaf leaf =>
      intro l hl
      obtain rfl : l = leaf := by simpa [leaves] using hl
      exact h
  | node firstpart next =>
      intro l hl
      rw [tryBoundary] at h
      by_cases failed : tryBoundary src val firstpart ≠ 0
      · rw [if_pos failed] at h
        exact absurd h failed
      · rw [if_neg failed] at h
        rcases List.mem_append.mp hl with first | later
        · exact tryBoundary_leaves firstpart (not_not.mp failed) l first
        · exact tryParts_leaves next h l later

theorem tryParts_leaves (parts : List Part) (h : tryParts src val parts = 0) :
    ∀ leaf ∈ leavesOf parts, tryLeaf src val leaf = 0 := by
  cases parts with
  | nil =>
      intro l hl
      cases hl
  | cons p next =>
      intro l hl
      rw [tryParts] at h
      by_cases failed : tryBoundary src val p ≠ 0
      · rw [if_pos failed] at h
        exact absurd h failed
      · rw [if_neg failed] at h
        rcases List.mem_append.mp hl with first | later
        · exact tryBoundary_leaves p (not_not.mp failed) l first
        · exact tryParts_leaves next h l later
end

end Passes

end Cone.Rfc2045Tryboundary
