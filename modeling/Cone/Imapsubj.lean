import Cone.ImapBodystructure

/-! # Base subjects

`stripsubj` of imapsubj.c and the functions around it.  A cursor is the text from the pointer `p` to
the end of the string; the string itself is only read from there on. -/
set_option autoImplicit false
namespace Cone.Imapsubj

open Cone.Ctype Cone.Lib.Decimal
open Cone.ImapBodystructure (Text upper)

def CORESUBJ_RE : Nat := 1
def CORESUBJ_FWD : Nat := 2

/-- The output buffer in front of `save_blob_buf`, and how many of its bytes were ever written. -/
structure Saved where
  text : Text
  written : Nat
  deriving DecidableEq, Repr

def Saved.put (b : Saved) (blob : Text) : Saved :=
  ⟨b.text ++ blob, max b.written (b.text ++ blob).length⟩

/-- `save_blob_buf=orig_blob_ptr` -/
def Saved.back (b orig : Saved) : Saved := { b with text := orig.text }

/-- The subject from `p` on, `*hasrefwd`, and `save_blob_buf` unless it is null. -/
structure Cursor where
  p : Text
  hasrefwd : Nat
  save : Option Saved
  deriving DecidableEq, Repr

def Cursor.back (x orig : Cursor) : Cursor :=
  { x with save := x.save.bind fun b => orig.save.map b.back }

def isBracket (c : UInt8) : Bool := c = byte '[' || c = byte ']'

def blobEnd : Text → Text
  | [] => []
  | c :: p =>
    if c = byte '[' then
      match p.dropWhile (!isBracket ·) with
      | [] => c :: p
      | d :: q => if d = byte ']' then q.dropWhile isspace else c :: p
    else c :: p

def isalldigits (p : Text) : Bool := (p.tail.takeWhile (!isBracket ·)).all isdigit

def skipblob (p : Text) (save : Option Saved) : Text × Option Saved :=
  let q := blobEnd p
  (q, if q ≠ p ∧ !isalldigits p then save.map (·.put (p.take (p.length - q.length))) else save)

theorem length_blobEnd_lt {p : Text} (h : blobEnd p ≠ p) : (blobEnd p).length < p.length := by
  cases p with
  | nil => exact absurd rfl h
  | cons c p =>
      rw [blobEnd] at h ⊢
      split at h
      · rename_i hc
        rw [if_pos hc]
        split at h
        · exact absurd rfl h
        · rename_i d q heq
          have hdrop := (List.dropWhile_sublist (!isBracket ·) (l := p)).length_le
          have hspace := (List.dropWhile_sublist isspace (l := q)).length_le
          rw [heq, List.length_cons] at hdrop
          split at h
          · rename_i hd
            rw [if_pos hd, List.length_cons]
            omega
          · exact absurd rfl h
      · exact absurd rfl h

theorem length_blobEnd_le (p : Text) : (blobEnd p).length ≤ p.length := by
  by_cases h : blobEnd p = p
  · rw [h]
  · exact Nat.le_of_lt (length_blobEnd_lt h)

def skipblobs (p : Text) : Text :=
  if (blobEnd p).length < p.length then skipblobs (blobEnd p) else p
termination_by p.length

/-- Whitespace runs become one space. -/
def collapse : Text → Text
  | [] => []
  | c :: p => if !isspace c then c :: collapse p else SP :: collapse (p.dropWhile isspace)
termination_by p => p.length
decreasing_by
  · exact Nat.lt_succ_self _
  · exact Nat.lt_succ_of_le (List.dropWhile_sublist isspace).length_le

/-- `strncasecmp(p, w, strlen(w)) == 0` for a `w` in capitals. -/
def begins (w : String) (p : Text) : Bool := upper (p.take w.length) = str w

def trailer (p : Text) (hasrefwd : Nat) : Text × Nat :=
  match p with
  | [] => ([], hasrefwd)
  | c :: q =>
    if isspace c then trailer q hasrefwd
    else if upper ((c :: q).take 5).reverse = str "(FWD)" then
      trailer ((c :: q).drop 5) (hasrefwd ||| CORESUBJ_FWD)
    else (c :: q, hasrefwd)
termination_by p.length

def marker (q : Text) : Option (Nat × Text) :=
  if begins "RE" q then some (CORESUBJ_RE, q.drop 2)
  else if begins "FWD" q then some (CORESUBJ_FWD, q.drop 3)
  else if begins "FW" q then some (CORESUBJ_FWD, q.drop 2)
  else none

/-- (3), behind its whitespace. -/
def stripRefwd (x : Cursor) : Bool × Cursor :=
  match marker (skipblobs x.p) with
  | none => (false, x)
  | some (flag, q) =>
    let r := skipblob q x.save
    match r.1 with
    | [] => (false, ({ x with save := r.2 }).back x)
    | c :: p =>
      if c = byte ':' then (true, ⟨p, x.hasrefwd ||| flag, r.2⟩)
      else (false, ({ x with save := r.2 }).back x)

/-- (4) -/
def stripBlob (x : Cursor) : Bool × Cursor :=
  let r := skipblob x.p x.save
  if r.1 ≠ x.p ∧ r.1 ≠ [] then (true, { x with p := r.1, save := r.2 })
  else (false, ({ x with save := r.2 }).back x)

/-- One turn of `for (;;)`, and whether it goes on. -/
def leaderStep (x : Cursor) : Bool × Cursor :=
  match x.p with
  | [] => (false, x)
  | c :: p =>
    if isspace c then (true, { x with p := p })
    else
      let r := stripRefwd x
      if r.1 then r else stripBlob r.2

theorem length_skipblobs_le (p : Text) : (skipblobs p).length ≤ p.length := by
  fun_induction skipblobs p with
  | case1 p h ih => omega
  | case2 p h => exact Nat.le_refl _

theorem length_of_begins {w : String} {q : Text} (h : begins w q = true) :
    (str w).length ≤ q.length := by
  rw [begins, decide_eq_true_eq] at h
  rw [← h, upper, List.length_map, List.length_take]
  exact Nat.min_le_right _ _

theorem marker_length {q p : Text} {flag : Nat} (h : marker q = some (flag, p)) :
    p.length < q.length := by
  rw [marker] at h
  split at h
  · rename_i hw
    have hlen : 2 ≤ q.length := length_of_begins hw
    cases h
    rw [List.length_drop]
    omega
  · split at h
    · rename_i hw
      have hlen : 3 ≤ q.length := length_of_begins hw
      cases h
      rw [List.length_drop]
      omega
    · split at h
      · rename_i hw
        have hlen : 2 ≤ q.length := length_of_begins hw
        cases h
        rw [List.length_drop]
        omega
      · cases h

theorem length_stripRefwd {x y : Cursor} (h : stripRefwd x = (true, y)) :
    y.p.length < x.p.length := by
  rw [stripRefwd] at h
  split at h
  · cases h
  · rename_i flag q hmarker
    have hmark := marker_length hmarker
    have hskip := length_skipblobs_le x.p
    have hblob := length_blobEnd_le q
    dsimp only [skipblob] at h
    split at h
    · cases h
    · rename_i c p heq
      rw [heq, List.length_cons] at hblob
      split at h
      · cases h
        dsimp only
        omega
      · cases h

theorem stripRefwd_false {x y : Cursor} (h : stripRefwd x = (false, y)) : y.p = x.p := by
  rw [stripRefwd] at h
  split at h
  · cases h
    rfl
  · dsimp only at h
    split at h
    · cases h
      rfl
    · split at h
      · cases h
      · cases h
        rfl

theorem length_stripBlob {x y : Cursor} (h : stripBlob x = (true, y)) :
    y.p.length < x.p.length := by
  rw [stripBlob] at h
  by_cases hblob : (skipblob x.p x.save).1 ≠ x.p ∧ (skipblob x.p x.save).1 ≠ []
  · rw [if_pos hblob] at h
    cases h
    exact length_blobEnd_lt hblob.1
  · rw [if_neg hblob] at h
    cases h

theorem length_leaderStep {x y : Cursor} (h : leaderStep x = (true, y)) :
    y.p.length < x.p.length := by
  rw [leaderStep] at h
  split at h
  · cases h
  · rename_i c p heq
    split at h
    · cases h
      rw [heq]
      exact Nat.lt_succ_self _
    · cases hr : stripRefwd x with
      | mk found z =>
          rw [hr] at h
          cases found with
          | true =>
              cases h
              exact length_stripRefwd hr
          | false =>
              have hblob := length_stripBlob h
              rwa [stripRefwd_false hr] at hblob

/-- The loop `for (;;)`. -/
def leader (x : Cursor) : Cursor :=
  match _h : leaderStep x with
  | (true, y) => leader y
  | (false, y) => y
termination_by x.p.length
decreasing_by exact length_leaderStep _h

theorem stripBlob_false {x y : Cursor} (h : stripBlob x = (false, y)) : y.p = x.p := by
  rw [stripBlob] at h
  by_cases hblob : (skipblob x.p x.save).1 ≠ x.p ∧ (skipblob x.p x.save).1 ≠ []
  · rw [if_pos hblob] at h
    cases h
  · rw [if_neg hblob] at h
    cases h
    rfl

theorem leaderStep_false {x y : Cursor} (h : leaderStep x = (false, y)) : y.p = x.p := by
  rw [leaderStep] at h
  split at h
  · cases h
    rfl
  · split at h
    · cases h
    · cases hr : stripRefwd x with
      | mk found z =>
          rw [hr] at h
          cases found with
          | true => cases h
          | false => exact (stripBlob_false h).trans (stripRefwd_false hr)

theorem length_leader_le (x : Cursor) : (leader x).p.length ≤ x.p.length := by
  fun_induction leader x with
  | case1 x y h ih => exact Nat.le_trans ih (Nat.le_of_lt (length_leaderStep h))
  | case2 x y h => exact Nat.le_of_eq (congrArg List.length (leaderStep_false h))

theorem length_trailer_le (p : Text) (hasrefwd : Nat) :
    (trailer p hasrefwd).1.length ≤ p.length := by
  fun_induction trailer p hasrefwd with
  | case1 => exact Nat.le_refl _
  | case2 _ c q hspace ih => exact Nat.le_succ_of_le ih
  | case3 _ c q hspace hfwd ih =>
      rw [List.length_drop] at ih
      omega
  | case4 _ c q hspace hfwd => exact Nat.le_refl _

def isFwd (p : Text) : Bool := begins "[FWD:" p && p.getLast? == some (byte ']')

/-- (2) to (5) -/
def stripEnds (x : Cursor) : Cursor :=
  let t := trailer x.p.reverse x.hasrefwd
  leader { x with p := t.1.reverse, hasrefwd := t.2 }

theorem length_stripEnds_le (x : Cursor) : (stripEnds x).p.length ≤ x.p.length := by
  have hleader := length_leader_le { x with
    p := (trailer x.p.reverse x.hasrefwd).1.reverse
    hasrefwd := (trailer x.p.reverse x.hasrefwd).2 }
  have htrailer := length_trailer_le x.p.reverse x.hasrefwd
  rw [List.length_reverse] at hleader htrailer
  exact Nat.le_trans hleader htrailer

theorem length_unwrap {p : Text} (h : isFwd p = true) : (p.dropLast.drop 5).length < p.length := by
  have hbegins := length_of_begins (Bool.and_eq_true_iff.mp h).1
  have hfive : (str "[FWD:").length = 5 := rfl
  rw [List.length_drop, List.length_dropLast]
  omega

/-- The loop `do .. while (doit)`, up to the final `p`. -/
def stripLoop (x : Cursor) : Cursor :=
  let y := stripEnds x
  if isFwd y.p then
    stripLoop { y with p := y.p.dropLast.drop 5, hasrefwd := y.hasrefwd ||| CORESUBJ_FWD }
  else y
termination_by x.p.length
decreasing_by
  rename_i hfwd
  exact Nat.lt_of_lt_of_le (length_unwrap hfwd) (length_stripEnds_le x)

def stripsubj (s : Text) (save : Option Saved) : Cursor := stripLoop ⟨collapse s, 0, save⟩

/-- `rfc822_coresubj`: the result and `*hasrefwd`. -/
def coresubj (s : Text) : Text × Nat :=
  let x := stripsubj (upper s) none
  (x.p, x.hasrefwd)

/-- `rfc822_coresubj_keepblobs`: the result, and how many bytes of its buffer were ever written in
front of the final zero. -/
def coresubj_keepblobs (s : Text) : Text × Nat :=
  let x := stripsubj s (some ⟨[], 0⟩)
  let r := (x.save.map (·.text)).getD []
  (r ++ x.p, max ((x.save.map (·.written)).getD 0) (r ++ x.p).length)

end Cone.Imapsubj
