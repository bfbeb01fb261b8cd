import Cone.Spf
import Mathlib.Data.List.TakeWhile

/-! # The two passes of a macro expansion

`expand` of rfc1035/spf.c scans the string twice, to count the bytes and to save them.  The scanner
goes by positions here, and what it reads is inside of the string or its NUL. -/
set_option autoImplicit false
namespace Cone.SpfExpand

open Cone.Ctype Cone.Lib.Decimal Cone.Spf
open Cone.Rfc2045Header (tolower)

abbrev Text := List UInt8

section Scanning

/-- The byte at a position, none outside of the string. -/
def peek (str : Text) (i : Nat) : Option UInt8 := (str ++ [NUL])[i]?

/-- Where the first byte is that a loop stops at. -/
def scan (p : UInt8 → Bool) (str : Text) : Nat → Nat → Option Nat
  | 0, _ => none
  | fuel + 1, i => (peek str i).bind fun c => if p c then scan p str fuel (i + 1) else some i

def literal (c : UInt8) : Bool := c ≠ NUL && c ≠ byte '%'

def option (c : UInt8) : Bool := c ≠ NUL && c ≠ byte '\x7d'

variable {A : Type} (w : World) (info : Info) (cb_func : Text → A → A)

def doExpandAt (str : Text) : Nat → Nat → A → Option A
  | 0, _, _ => none
  | fuel + 1, pos, arg =>
    (peek str pos).bind fun c =>
      if c = NUL then some arg
      else
        (scan literal str fuel pos).bind fun i =>
          if i ≠ pos then doExpandAt str fuel i (cb_func ((str.take i).drop pos) arg)
          else
            (peek str (pos + 1)).bind fun d =>
              if d = byte '%' then doExpandAt str fuel (pos + 2) (cb_func [byte '%'] arg)
              else if d = byte '_' then doExpandAt str fuel (pos + 2) (cb_func [SP] arg)
              else if d = byte '-' then
                doExpandAt str fuel (pos + 2) (cb_func (Ctype.str "%20") arg)
              else if d ≠ byte '\x7b' then doExpandAt str fuel (pos + 1) arg
              else
                (peek str (pos + 2)).bind fun alpha =>
                  if alpha = NUL then doExpandAt str fuel (pos + 2) arg
                  else
                    (scan isdigit str fuel (pos + 3)).bind fun j =>
                      (scan option str fuel j).bind fun k =>
                        (peek str k).bind fun e =>
                          doExpandAt str fuel (if e = byte '\x7d' then k + 1 else k)
                            (cb_func (macroText w info (str.drop (pos + 2))) arg)

def do_count (p : Text) (n : Nat) : Nat := n + p.length

def do_save (p : Text) (b : Text) : Text := b ++ p

def passes (str : Text) : Option (Nat × Text) :=
  (doExpandAt w info do_count str (str.length + 2) 0 1).bind fun cnt =>
    (doExpandAt w info do_save str (str.length + 2) 0 []).map fun buf => (cnt, buf)

end Scanning

section Scanned
variable {str p q : Text} {i fuel : Nat}

theorem peek_add (p q : Text) (n : Nat) : peek (p ++ q) (p.length + n) = (q ++ [NUL])[n]? := by
  rw [peek, List.append_assoc, List.getElem?_append_right (Nat.le_add_right _ _),
    Nat.add_sub_cancel_left]

theorem peek_append (p : Text) (c : UInt8) (q : Text) : peek (p ++ c :: q) p.length = some c :=
  peek_add p (c :: q) 0

theorem peek_end (p : Text) : peek p p.length = some NUL := by
  have h := peek_add p [] 0
  rwa [List.append_nil] at h

theorem scan_eq {test : UInt8 → Bool} (hnul : test NUL = false) (p q : Text)
    (hfuel : q.length < fuel) :
    scan test (p ++ q) fuel p.length = some (p.length + (q.takeWhile test).length) := by
  induction q generalizing p fuel with
  | nil =>
      obtain ⟨fuel, rfl⟩ := Nat.exists_eq_succ_of_ne_zero (Nat.ne_of_gt hfuel)
      rw [List.append_nil, scan, peek_end, Option.bind_some, hnul]
      rfl
  | cons c q ih =>
      obtain ⟨fuel, rfl⟩ := Nat.exists_eq_succ_of_ne_zero (Nat.ne_of_gt (Nat.zero_lt_of_lt hfuel))
      rw [scan, peek_append, Option.bind_some, List.takeWhile_cons]
      by_cases h : test c = true
      · have hstep := ih (p ++ [c]) (Nat.lt_of_succ_lt_succ hfuel)
        rw [List.append_assoc, List.length_append] at hstep
        rw [if_pos h, if_pos h, List.length_cons]
        refine (show scan test (p ++ c :: q) fuel (p.length + 1) = _ from hstep).trans ?_
        rw [List.length_singleton, Nat.add_assoc, Nat.add_comm 1]
      · rw [if_neg h, if_neg h]
        rfl

end Scanned

section Passes
variable (w : World) (info : Info)

theorem doExpand_cons {c : UInt8} (h : c ≠ byte '%') (rest : Text) :
    doExpand w info (c :: rest) = c :: doExpand w info rest := by
  cases rest with
  | nil => rw [doExpand.eq_2, if_neg h, doExpand.eq_1]
  | cons d rest => rw [doExpand, if_pos h]

theorem doExpand_append {p : Text} (h : ∀ c ∈ p, c ≠ byte '%') (rest : Text) :
    doExpand w info (p ++ rest) = p ++ doExpand w info rest := by
  induction p with
  | nil => rfl
  | cons c p ih =>
      rw [List.cons_append, doExpand_cons w info (h c List.mem_cons_self),
        ih fun d mem => h d (List.mem_cons_of_mem _ mem), List.cons_append]

theorem doExpand_percent (d : UInt8) (rest : Text) :
    doExpand w info (byte '%' :: d :: rest) =
      if d = byte '\x7b' then macroText w info rest ++ doExpand w info (afterMacro rest)
      else if d = byte '%' then byte '%' :: doExpand w info rest
      else if d = byte '_' then SP :: doExpand w info rest
      else if d = byte '-' then str "%20" ++ doExpand w info rest
      else doExpand w info (d :: rest) := by
  rw [doExpand, if_neg (fun h => h rfl)]

theorem takeWhile_option {p : Text} (hnul : NUL ∉ p) :
    p.takeWhile option = p.takeWhile (· ≠ byte '\x7d') ∧
      p.dropWhile option = p.dropWhile (· ≠ byte '\x7d') := by
  induction p with
  | nil => exact ⟨rfl, rfl⟩
  | cons c p ih =>
      have hc : c ≠ NUL := fun heq => hnul (heq ▸ List.mem_cons_self)
      obtain ⟨htake, hdrop⟩ := ih fun mem => hnul (List.mem_cons_of_mem _ mem)
      have hsame : option c = decide (c ≠ byte '\x7d') := by
        rw [option, decide_eq_true hc, Bool.true_and]
      rw [List.takeWhile_cons, List.takeWhile_cons, List.dropWhile_cons, List.dropWhile_cons,
        hsame, htake, hdrop]
      exact ⟨rfl, rfl⟩

section Steps
variable {A : Type} (cb_func : Text → A → A) {fuel : Nat} {arg : A}

theorem doExpandAt_percent (p : Text) (d : UInt8) (rest : Text) (hfuel : 0 < fuel) :
    doExpandAt w info cb_func (p ++ byte '%' :: d :: rest) (fuel + 1) p.length arg =
      if d = byte '%' then
        doExpandAt w info cb_func (p ++ byte '%' :: d :: rest) fuel (p.length + 2)
          (cb_func [byte '%'] arg)
      else if d = byte '_' then
        doExpandAt w info cb_func (p ++ byte '%' :: d :: rest) fuel (p.length + 2)
          (cb_func [SP] arg)
      else if d = byte '-' then
        doExpandAt w info cb_func (p ++ byte '%' :: d :: rest) fuel (p.length + 2)
          (cb_func (str "%20") arg)
      else if d ≠ byte '\x7b' then
        doExpandAt w info cb_func (p ++ byte '%' :: d :: rest) fuel (p.length + 1) arg
      else
        (peek (p ++ byte '%' :: d :: rest) (p.length + 2)).bind fun alpha =>
          if alpha = NUL then
            doExpandAt w info cb_func (p ++ byte '%' :: d :: rest) fuel (p.length + 2) arg
          else
            (scan isdigit (p ++ byte '%' :: d :: rest) fuel (p.length + 3)).bind fun j =>
              (scan option (p ++ byte '%' :: d :: rest) fuel j).bind fun k =>
                (peek (p ++ byte '%' :: d :: rest) k).bind fun e =>
                  doExpandAt w info cb_func (p ++ byte '%' :: d :: rest) fuel
                    (if e = byte '\x7d' then k + 1 else k)
                    (cb_func (macroText w info rest) arg) := by
  obtain ⟨fuel, rfl⟩ := Nat.exists_eq_succ_of_ne_zero (Nat.ne_of_gt hfuel)
  have hscan : scan literal (p ++ byte '%' :: d :: rest) (fuel + 1) p.length = some p.length := by
    rw [scan, peek_append, Option.bind_some, if_neg (by decide)]
  have hd : peek (p ++ byte '%' :: d :: rest) (p.length + 1) = some d := peek_add p _ 1
  have hrest : (p ++ byte '%' :: d :: rest).drop (p.length + 2) = rest := by
    rw [← List.drop_drop, List.drop_left]
    rfl
  rw [doExpandAt, peek_append, Option.bind_some, if_neg (by decide), hscan, Option.bind_some,
    if_neg (fun h => h rfl), hd, Option.bind_some, hrest]

theorem doExpandAt_lone (p : Text) (hfuel : 0 < fuel) :
    doExpandAt w info cb_func (p ++ [byte '%']) (fuel + 1) p.length arg =
      doExpandAt w info cb_func (p ++ [byte '%']) fuel (p.length + 1) arg := by
  obtain ⟨fuel, rfl⟩ := Nat.exists_eq_succ_of_ne_zero (Nat.ne_of_gt hfuel)
  have hscan : scan literal (p ++ [byte '%']) (fuel + 1) p.length = some p.length := by
    rw [scan, peek_append, Option.bind_some, if_neg (by decide)]
  have hend : peek (p ++ [byte '%']) (p.length + 1) = some NUL := peek_add p _ 1
  rw [doExpandAt, peek_append, Option.bind_some, if_neg (by decide), hscan, Option.bind_some,
    if_neg (fun h => h rfl), hend, Option.bind_some, if_neg (by decide), if_neg (by decide),
    if_neg (by decide), if_pos (by decide)]

theorem doExpandAt_letter {str p r : Text} {alpha : UInt8} (hstr : p ++ alpha :: r = str)
    (hnul : NUL ∉ str) (hfuel : r.length < fuel) (text : Text) :
    ∃ p', p' ++ afterMacro (alpha :: r) = str ∧ ∀ arg,
      ((scan isdigit str fuel (p.length + 1)).bind fun j =>
        (scan option str fuel j).bind fun k =>
          (peek str k).bind fun e =>
            doExpandAt w info cb_func str fuel (if e = byte '\x7d' then k + 1 else k)
              (cb_func text arg)) =
        doExpandAt w info cb_func str fuel p'.length (cb_func text arg) := by
  have hdigits : r.takeWhile isdigit ++ r.dropWhile isdigit = r := List.takeWhile_append_dropWhile
  have hoptions : (r.dropWhile isdigit).takeWhile option ++ (r.dropWhile isdigit).dropWhile option =
      r.dropWhile isdigit := List.takeWhile_append_dropWhile
  have hlen : (r.dropWhile isdigit).length ≤ r.length := (List.dropWhile_suffix isdigit).length_le
  have hnul' : NUL ∉ r.dropWhile isdigit := fun mem => hnul (hstr ▸ List.mem_append_right _
    (List.mem_cons_of_mem _ ((List.dropWhile_suffix _).subset mem)))
  have hafter : afterMacro (alpha :: r) = ((r.dropWhile isdigit).dropWhile option).drop 1 := by
    rw [(takeWhile_option hnul').2]
    rfl
  have hj := @scan_eq fuel isdigit (by decide) (p ++ [alpha]) r hfuel
  have hk := @scan_eq fuel option (by decide) (p ++ [alpha] ++ r.takeWhile isdigit)
    (r.dropWhile isdigit) (by omega)
  have hend := List.head?_dropWhile_not option (r.dropWhile isdigit)
  have hleft : NUL ∉ (r.dropWhile isdigit).dropWhile option := fun mem =>
    hnul' ((List.dropWhile_suffix _).subset mem)
  have hstr' : p ++ [alpha] ++ r = str := by
    rw [List.append_assoc]
    exact hstr
  rw [List.append_assoc _ _ (r.dropWhile isdigit), hdigits, hstr'] at hk
  rw [hstr', ← List.length_append,
    show (p ++ [alpha]).length = p.length + 1 from List.length_append] at hj
  rw [← hdigits, ← hoptions, ← List.append_assoc, ← List.append_assoc] at hstr'
  rw [← List.length_append] at hk
  rw [hafter]
  generalize (r.dropWhile isdigit).dropWhile option = left at *
  generalize p ++ [alpha] ++ r.takeWhile isdigit ++ (r.dropWhile isdigit).takeWhile option = before
    at *
  cases left with
  | nil =>
      refine ⟨before, hstr', fun arg => ?_⟩
      rw [List.append_nil] at hstr'
      rw [hj, Option.bind_some, hk, Option.bind_some, ← hstr', peek_end, Option.bind_some,
        if_neg (by decide)]
  | cons e left =>
      have he : e = byte '\x7d' := by
        have hnul : e ≠ NUL := fun heq => hleft (heq ▸ List.mem_cons_self)
        have hstop : option e = false := hend
        rw [option, decide_eq_true hnul, Bool.true_and] at hstop
        exact not_not.1 (of_decide_eq_false hstop)
      refine ⟨before ++ [e], ?_, fun arg => ?_⟩
      · rw [← hstr', List.append_assoc]
        rfl
      · rw [hj, Option.bind_some, hk, Option.bind_some, ← hstr', peek_append,
          Option.bind_some, if_pos he, List.length_append]
        rfl

end Steps

section Pieces
variable {A : Type} (cb_func : Text → A → A) {str : Text} {fuel pos next : Nat} {text : Text}

def Expands (str : Text) (fuel pos : Nat) (text : Text) : Prop :=
  ∃ pieces : List Text, pieces.flatten = text ∧
    ∀ arg, doExpandAt w info cb_func str fuel pos arg =
      some (pieces.foldl (fun arg piece => cb_func piece arg) arg)

theorem Expands.step {w : World} {info : Info} {cb_func : Text → A → A}
    (h : Expands w info cb_func str fuel next text) (done : List Text)
    (hstep : ∀ arg, doExpandAt w info cb_func str (fuel + 1) pos arg =
      doExpandAt w info cb_func str fuel next
        (done.foldl (fun arg piece => cb_func piece arg) arg)) :
    Expands w info cb_func str (fuel + 1) pos (done.flatten ++ text) := by
  obtain ⟨pieces, hpieces, hrun⟩ := h
  refine ⟨done ++ pieces, by rw [List.flatten_append, hpieces], fun arg => ?_⟩
  rw [hstep, hrun, List.foldl_append]

theorem expands_rest (hnul : NUL ∉ str) (fuel : Nat) (p q : Text) (hsplit : p ++ q = str)
    (hfuel : q.length + 1 < fuel) :
    Expands w info cb_func str fuel p.length (doExpand w info q) := by
  induction fuel generalizing p q with
  | zero => exact absurd hfuel (Nat.not_lt_zero _)
  | succ fuel ih =>
      cases q with
      | nil =>
          refine ⟨[], by rw [doExpand]; rfl, fun arg => ?_⟩
          rw [← hsplit, doExpandAt, List.append_nil, peek_end, Option.bind_some, if_pos rfl]
          rfl
      | cons c q =>
          have hc : c ≠ NUL := fun heq =>
            hnul (hsplit ▸ heq ▸ List.mem_append_right _ List.mem_cons_self)
          rw [List.length_cons] at hfuel
          by_cases hpercent : c = byte '%'
          · subst hpercent
            cases q with
            | nil =>
                have hrest := ih (p ++ [byte '%']) [] (by rw [List.append_nil]; exact hsplit)
                  (by rw [List.length_nil] at hfuel ⊢; omega)
                have hempty : doExpand w info [byte '%'] = [].flatten ++ doExpand w info [] := by
                  rw [doExpand.eq_2, if_pos rfl, doExpand.eq_1]
                  rfl
                rw [hempty]
                refine hrest.step [] fun arg => ?_
                rw [← hsplit, doExpandAt_lone w info cb_func p (by omega), List.length_append]
                rfl
            | cons d rest =>
                rw [List.length_cons] at hfuel
                have hpast : (p ++ [byte '%', d]).length = p.length + 2 := List.length_append
                have hboth : p ++ [byte '%', d] ++ rest = str := by
                  rw [List.append_assoc]
                  exact hsplit
                have hrest := ih (p ++ [byte '%', d]) rest hboth (by omega)
                have hone := ih (p ++ [byte '%']) (d :: rest)
                  (by rw [List.append_assoc]; exact hsplit) (by rw [List.length_cons]; omega)
                have hrun (arg : A) := @doExpandAt_percent w info A cb_func fuel arg p d rest
                  (by omega)
                rw [hsplit] at hrun
                rw [hpast] at hrest
                rw [doExpand_percent]
                by_cases hbrace : d = byte '\x7b'
                · rw [if_pos hbrace]
                  simp only [hbrace, if_neg (show ¬ byte '\x7b' = byte '%' by decide),
                    if_neg (show ¬ byte '\x7b' = byte '_' by decide),
                    if_neg (show ¬ byte '\x7b' = byte '-' by decide),
                    if_neg (show ¬ byte '\x7b' ≠ byte '\x7b' by decide)] at hrun
                  cases rest with
                  | nil =>
                      have hend : peek str (p.length + 2) = some NUL := by
                        rw [← hsplit]
                        exact peek_add p _ 2
                      have hempty : macroText w info [] ++ doExpand w info (afterMacro []) =
                          [].flatten ++ doExpand w info [] := rfl
                      rw [hempty]
                      exact hrest.step [] fun arg => by
                        rw [hrun, hend, Option.bind_some, if_pos rfl]
                        rfl
                  | cons alpha r =>
                      have halpha : alpha ≠ NUL := fun heq => hnul (hboth ▸ heq ▸
                        List.mem_append_right _ List.mem_cons_self)
                      have hpeek : peek str (p.length + 2) = some alpha := by
                        rw [← hsplit]
                        exact peek_add p _ 2
                      have hshort := afterMacro_length_le (alpha :: r)
                      rw [List.length_cons] at hfuel hshort
                      obtain ⟨p', hp', hgo⟩ := @doExpandAt_letter w info A cb_func fuel str
                        (p ++ [byte '%', d]) r alpha hboth hnul (by omega)
                        (macroText w info (alpha :: r))
                      have hdone := ih p' (afterMacro (alpha :: r)) hp' (by omega)
                      have hflat : macroText w info (alpha :: r) =
                          [macroText w info (alpha :: r)].flatten := by
                        rw [List.flatten_cons, List.flatten_nil, List.append_nil]
                      nth_rewrite 1 [hflat]
                      refine hdone.step [macroText w info (alpha :: r)] fun arg => ?_
                      rw [hpast] at hgo
                      rw [hrun, hpeek, Option.bind_some, if_neg halpha]
                      exact hgo arg
                · rw [if_neg hbrace]
                  by_cases hd : d = byte '%'
                  · rw [if_pos hd]
                    exact hrest.step [[byte '%']] fun arg => by rw [hrun, if_pos hd]; rfl
                  · rw [if_neg hd]
                    by_cases hspace : d = byte '_'
                    · rw [if_pos hspace]
                      exact hrest.step [[SP]] fun arg => by
                        rw [hrun, if_neg hd, if_pos hspace]
                        rfl
                    · rw [if_neg hspace]
                      by_cases hurl : d = byte '-'
                      · rw [if_pos hurl]
                        exact hrest.step [Ctype.str "%20"] fun arg => by
                          rw [hrun, if_neg hd, if_neg hspace, if_pos hurl]
                          rfl
                      · rw [if_neg hurl]
                        exact hone.step [] fun arg => by
                          rw [hrun, if_neg hd, if_neg hspace, if_neg hurl, if_pos hbrace,
                            List.length_append]
                          rfl
          · have hlits : (c :: q).takeWhile literal ++ (c :: q).dropWhile literal = c :: q :=
              List.takeWhile_append_dropWhile
            have hne : (c :: q).takeWhile literal ≠ [] := by
              rw [List.takeWhile_cons, if_pos]
              · exact List.cons_ne_nil _ _
              · rw [literal, decide_eq_true hc, decide_eq_true hpercent]
                rfl
            have hmem : ∀ d ∈ (c :: q).takeWhile literal, d ≠ byte '%' := by
              intro d mem
              have hd : literal d = true := List.mem_takeWhile_imp mem
              rw [literal, Bool.and_eq_true] at hd
              exact of_decide_eq_true hd.2
            have hshort := congrArg List.length hlits
            have hpos := List.length_pos_of_ne_nil hne
            rw [List.length_append, List.length_cons] at hshort
            have hscan := @scan_eq fuel literal (by decide) p (c :: q)
              (by rw [List.length_cons]; omega)
            have hc' : peek str p.length = some c := by
              rw [← hsplit]
              exact peek_append p c q
            rw [hsplit] at hscan
            rw [← hlits] at hsplit ⊢
            generalize (c :: q).takeWhile literal = lits at *
            generalize (c :: q).dropWhile literal = rest at *
            have hboth : p ++ lits ++ rest = str := by
              rw [List.append_assoc]
              exact hsplit
            have hlen : (p ++ lits).length = p.length + lits.length := List.length_append
            have hslice : (str.take (p.length + lits.length)).drop p.length = lits := by
              rw [← hboth, ← hlen, List.take_left, List.drop_left]
            have hrest := ih (p ++ lits) rest hboth (by omega)
            rw [hlen] at hrest
            have hflat : lits = [lits].flatten := by
              rw [List.flatten_cons, List.flatten_nil, List.append_nil]
            rw [doExpand_append w info hmem]
            nth_rewrite 1 [hflat]
            refine hrest.step [lits] fun arg => ?_
            rw [doExpandAt, hc', Option.bind_some, if_neg hc, hscan, Option.bind_some,
              if_pos (by omega), hslice]
            rfl

end Pieces

theorem passes_eq {str : Text} (hnul : NUL ∉ str) :
    passes w info str =
      some ((doExpand w info str).length + 1, doExpand w info str) := by
  have hcount (pieces : List Text) (n : Nat) :
      pieces.foldl (fun arg piece => do_count piece arg) n = n + pieces.flatten.length := by
    induction pieces generalizing n with
    | nil => rfl
    | cons piece pieces ih =>
        rw [List.foldl_cons, ih, do_count, List.flatten_cons, List.length_append, Nat.add_assoc]
  have hsave (pieces : List Text) (b : Text) :
      pieces.foldl (fun arg piece => do_save piece arg) b = b ++ pieces.flatten := by
    induction pieces generalizing b with
    | nil => exact (List.append_nil b).symm
    | cons piece pieces ih =>
        rw [List.foldl_cons, ih, do_save, List.flatten_cons, List.append_assoc]
  obtain ⟨pieces, hpieces, hrun⟩ := expands_rest w info do_count hnul (str.length + 2) [] str rfl
    (Nat.lt_succ_self _)
  obtain ⟨pieces', hpieces', hrun'⟩ := expands_rest w info do_save hnul (str.length + 2) [] str rfl
    (Nat.lt_succ_self _)
  have hcnt := hrun 1
  have hbuf := hrun' []
  rw [hcount, hpieces, Nat.add_comm 1] at hcnt
  rw [hsave, hpieces', List.nil_append] at hbuf
  rw [passes, show (0 : Nat) = ([] : Text).length from rfl, hcnt, Option.bind_some, hbuf]
  rfl

end Passes
section Splitting
variable {d : UInt8} {v : Text}

/-- Where a value does not end in the delimiter, `tsplit` finds its parts. -/
theorem tsplitLoop_eq (word : Text) (h : v.getLast? ≠ some d) :
    tsplitLoop d word v = (v.splitOnP (· == d)).modifyHead (word ++ ·) := by
  induction v generalizing word with
  | nil => rw [tsplitLoop, List.splitOnP_nil, List.modifyHead_cons, List.append_nil]
  | cons c v ih =>
      cases v with
      | nil =>
          have hc : c ≠ d := fun heq => h (congrArg some heq)
          have hne : (c == d) = false := beq_eq_false_iff_ne.2 hc
          rw [tsplitLoop, if_neg hc, List.splitOnP_cons_eq_if_modifyHead,
            if_neg (by rw [hne]; decide), List.splitOnP_nil]
          rfl
      | cons e v =>
          have hlast : (e :: v).getLast? ≠ some d := by
            rwa [List.getLast?_cons_cons] at h
          rw [tsplitLoop, List.splitOnP_cons_eq_if_modifyHead]
          by_cases hc : c = d
          · rw [if_pos hc, if_pos (beq_iff_eq.2 hc), ih [] hlast, List.modifyHead_cons,
              List.append_nil]
            congr 1
            exact congrFun List.modifyHead_id _
          · rw [if_neg hc, if_neg (fun heq => hc (beq_iff_eq.1 heq)), ih _ hlast,
              List.modifyHead_modifyHead]
            congr 1
            funext word'
            exact List.append_assoc _ _ _

theorem splitOnP_congr {p q : UInt8 → Bool} (h : ∀ c ∈ v, p c = q c) :
    v.splitOnP p = v.splitOnP q := by
  induction v with
  | nil => rfl
  | cons c v ih =>
      rw [List.splitOnP_cons_eq_if_modifyHead, List.splitOnP_cons_eq_if_modifyHead,
        h c List.mem_cons_self, ih fun d mem => h d (List.mem_cons_of_mem _ mem)]

/-- The parts of a value are joined to the value with dots for what it was split at. -/
theorem intercalate_splitOnP (p : UInt8 → Bool) (v : Text) :
    List.intercalate [byte '.'] (v.splitOnP p) = v.map fun c => if p c then byte '.' else c := by
  induction v with
  | nil => rfl
  | cons c v ih =>
      obtain ⟨w, ws, hws⟩ := List.exists_cons_of_ne_nil (List.splitOnP_ne_nil p v)
      rw [List.splitOnP_cons_eq_if_modifyHead, List.map_cons, ← ih, hws]
      by_cases hp : p c = true
      · rw [if_pos hp, if_pos hp, List.intercalate_cons_cons]
        rfl
      · rw [if_neg hp, if_neg hp, List.modifyHead_cons]
        cases ws with
        | nil => rw [List.intercalate_singleton, List.intercalate_singleton]
        | cons x ws =>
            rw [List.intercalate_cons_cons, List.intercalate_cons_cons]
            rfl

theorem intercalate_eq_iff {p : UInt8 → Bool} :
    List.intercalate [byte '.'] (v.splitOnP p) = v ↔ ∀ c ∈ v, p c = true → c = byte '.' := by
  rw [intercalate_splitOnP]
  constructor
  · intro h c mem hp
    have hsame := List.map_inj_left.1 (h.trans (List.map_id v).symm) c mem
    rw [if_pos hp] at hsame
    exact hsame.symm
  · intro h
    refine (List.map_congr_left fun c mem => ?_).trans (List.map_id v)
    by_cases hp : p c = true
    · rw [if_pos hp, h c mem hp]
      rfl
    · rw [if_neg hp]
      rfl

theorem joinWords_of_ne (buf : Text) (h : buf ≠ []) (words : List Text) :
    joinWords buf words = buf ++ words.flatMap (byte '.' :: ·) := by
  induction words generalizing buf with
  | nil => rw [joinWords, List.flatMap_nil, List.append_nil]
  | cons word words ih =>
      rw [joinWords, if_neg h, ih _ (by simp), List.flatMap_cons, List.append_assoc,
        List.append_assoc]
      rfl

theorem intercalate_eq (word : Text) (words : List Text) :
    List.intercalate [byte '.'] (word :: words) = word ++ words.flatMap (byte '.' :: ·) := by
  induction words generalizing word with
  | nil => rw [List.intercalate_singleton, List.flatMap_nil, List.append_nil]
  | cons w words ih =>
      rw [List.intercalate_cons_cons, ih, List.flatMap_cons, List.append_assoc]
      rfl

theorem joinWords_eq {words : List Text} (h : words.length ≤ 1 ∨ words.head? ≠ some []) :
    joinWords [] words = List.intercalate [byte '.'] words := by
  cases words with
  | nil => rfl
  | cons word words =>
      rw [joinWords, if_pos rfl, List.nil_append, intercalate_eq]
      by_cases hword : word = []
      · have hone : words = [] := by
          rcases h with hle | hne
          · exact List.length_eq_zero_iff.1 (by rw [List.length_cons] at hle; omega)
          · exact absurd (congrArg some hword) hne
        rw [hone, joinWords, List.flatMap_nil, List.append_nil]
      · exact joinWords_of_ne word hword words

end Splitting
end Cone.SpfExpand
