import Cone.Rfc822Tokenize

/-! # The address parser (`parseaddr` in `rfc822/rfc822.c`)

`rfc822a_alloc` runs it twice over the same array of tokens: first to count the addresses, then
to fill in as many entries, rewriting the tokens in place as it goes.  A list of tokens linked
by `next` is a list here, as it stands when its entry is complete; nil is the null pointer. -/
set_option autoImplicit false
namespace Cone.Rfc822Parseaddr

open Cone.Ctype Cone.Rfc822Tokenize

structure Addr where
  tokens : List Token
  name : List Token
  deriving DecidableEq, Repr

def isWord (t : Token) : Bool := t.token = 0 || t.token = byte '"'

def isComment (t : Token) : Bool := t.token = byte '('

/-- Where an address ends at the latest. -/
def isSeparator (t : Token) : Bool := t.token = byte ',' || t.token = byte ';'

/-- What stands at the front of the tokens that are left, and how many of them it takes. -/
inductive Part where
  | group (i : Nat)
  | comma
  | semicolon
  | route (i j : Nat)
  | oldStyle (i : Nat)
  deriving DecidableEq, Repr

def oldStyleEnd : Bool → List Token → Nat
  | _, [] => 0
  | flag, t :: ts =>
    if isSeparator t then 0
    else if isComment t then oldStyleEnd flag ts + 1
    else if isWord t then if flag then 0 else oldStyleEnd true ts + 1
    else oldStyleEnd false ts + 1

def routeStart (ts : List Token) : Nat :=
  (ts.takeWhile fun t => !isSeparator t && t.token ≠ byte '<').length

def nextIs (c : Char) (ts : List Token) : Bool := ts.head?.any fun t => t.token = byte c

def classify (ts : List Token) : Part :=
  let words := (ts.takeWhile isWord).length
  if nextIs ':' (ts.drop words) then .group (words + 1)
  else if nextIs ',' ts then .comma
  else if nextIs ';' ts then .semicolon
  else
    let i := routeStart ts
    if nextIs '<' (ts.drop i) then
      .route i ((ts.drop (i + 1)).takeWhile fun t => t.token ≠ byte '>').length
    else .oldStyle (oldStyleEnd false ts)

/-- How far the parser goes on; a `>` is skipped. -/
def Part.taken (ts : List Token) : Part → Nat
  | .group i => i
  | .comma => 1
  | .semicolon => 1
  | .route i j => if (ts.drop (i + 1 + j)).isEmpty then i + 1 + j else i + 1 + j + 1
  | .oldStyle i => if i = 0 then 1 else i

/-- Whether `++*naddrs` is reached. -/
def Part.counts : Part → Bool
  | .group _ => true
  | .comma => false
  | .semicolon => true
  | .route _ _ => true
  | .oldStyle i => i ≠ 0

/-- `tokens[i-1].ptr + tokens[i-1].len - tokens->ptr` -/
def fusedLen (first last : Token) : Int :=
  (last.ptr.offset.getD 0 + last.len : Int) - first.ptr.offset.getD 0

def fuse (first last : Token) : Token :=
  { first with token := byte '"', len := (fusedLen first last).toNat }

def quoteComment (t : Token) : Token := if isComment t then { t with token := byte '"' } else t

def fusedEnds (ts : List Token) (i : Nat) : Option (Token × Token) :=
  let phrase := ts.take i
  if phrase.all fun t => t.token = 0 || isComment t then none
  else
    match phrase.head?, phrase.getLast? with
    | some first, some last => some (first, last)
    | _, _ => none

def Part.rewrite (ts : List Token) : Part → List Token × Option Addr
  | .group i => (ts, some ⟨[], ts.take i⟩)
  | .comma => (ts, none)
  | .semicolon => (ts, some ⟨[], ts.take 1⟩)
  | .route i j =>
    let route := (ts.drop (i + 1)).take j
    match fusedEnds ts i with
    | none =>
      let name := (ts.take i).map quoteComment
      (name ++ ts.drop i, some ⟨route, name⟩)
    | some (first, last) => (fuse first last :: ts.drop 1, some ⟨route, [fuse first last]⟩)
  | .oldStyle i =>
    if i = 0 then (ts, none)
    else
      let kept := (ts.take i).filter fun t => !isComment t
      match ((ts.take i).filter isComment).getLast? with
      | none => (ts, some ⟨kept, []⟩)
      | some save =>
        (kept ++ ((ts.take i).drop kept.length).dropLast ++ save :: ts.drop i,
          some ⟨kept, [save]⟩)

def Part.fuses (ts : List Token) : Part → Option (Token × Token)
  | .route i _ => fusedEnds ts i
  | _ => none

structure Pass where
  naddrs : Nat
  array : List Token
  addrs : List Addr
  fused : List (Token × Token)
  deriving DecidableEq, Repr

/-- The loop at `tokens+pos`; `addrs` is false in the first pass.  Each round takes a token. -/
def parseLoop (addrs : Bool) : Nat → Nat → List Token → Pass
  | 0, _, array => ⟨0, array, [], []⟩
  | fuel + 1, pos, array =>
    let ts := array.drop pos
    if ts.isEmpty then ⟨0, array, [], []⟩
    else
      let part := classify ts
      let w := part.rewrite ts
      let array := if addrs then array.take pos ++ w.1 else array
      let r := parseLoop addrs fuel (pos + part.taken ts) array
      { naddrs := (if part.counts then 1 else 0) + r.naddrs
        array := r.array
        addrs := (if addrs then w.2.toList else []) ++ r.addrs
        fused := (if addrs then (part.fuses ts).toList else []) ++ r.fused }

def parseaddr (addrs : Bool) (tokens : List Token) : Pass := parseLoop addrs tokens.length 0 tokens

/-! ## What a rewriting leaves alone -/

theorem oldStyleEnd_le (flag : Bool) (ts : List Token) : oldStyleEnd flag ts ≤ ts.length := by
  induction ts generalizing flag with
  | nil => exact Nat.le_refl 0
  | cons t ts ih =>
      rw [oldStyleEnd, List.length_cons]
      have h := ih flag
      have h' := ih true
      have h'' := ih false
      split
      · omega
      · split
        · omega
        · split
          · split <;> omega
          · omega

def Part.Fits (ts : List Token) : Part → Prop
  | .route i _ => i ≤ ts.length
  | .oldStyle i => i ≤ ts.length
  | _ => True

theorem classify_fits (ts : List Token) : (classify ts).Fits ts := by
  rw [classify]
  dsimp only
  split
  · trivial
  · split
    · trivial
    · split
      · trivial
      · split
        · exact (List.takeWhile_sublist _).length_le
        · exact oldStyleEnd_le _ _

theorem length_filter_split (p : Token → Bool) (l : List Token) :
    (l.filter fun t => !p t).length + (l.filter p).length = l.length := by
  induction l with
  | nil => rfl
  | cons t l ih =>
      by_cases h : p t = true
      · simp [h]
        omega
      · simp [h]
        omega

theorem fusedEnds_pos {ts : List Token} {i : Nat} {ends : Token × Token}
    (h : fusedEnds ts i = some ends) : 0 < ts.length := by
  cases ts with
  | nil => simp [fusedEnds] at h
  | cons t ts => exact Nat.succ_pos _

theorem rewrite_length (ts : List Token) (part : Part) (fits : part.Fits ts) :
    (part.rewrite ts).1.length = ts.length := by
  cases part with
  | group i => rfl
  | comma => rfl
  | semicolon => rfl
  | route i j =>
      have le : i ≤ ts.length := fits
      rw [Part.rewrite]
      cases ends : fusedEnds ts i with
      | none =>
          simp only [List.length_append, List.length_map, List.length_take, List.length_drop]
          omega
      | some e =>
          have some' := fusedEnds_pos ends
          simp only [List.length_cons, List.length_drop]
          omega
  | oldStyle i =>
      have le : i ≤ ts.length := fits
      rw [Part.rewrite]
      split
      · rfl
      · dsimp only
        have split' := length_filter_split isComment (ts.take i)
        rw [List.length_take] at split'
        split
        · rfl
        · rename_i save last
          have some' : 0 < ((ts.take i).filter isComment).length := by
            rw [List.length_pos_iff]
            intro none
            rw [none] at last
            cases last
          simp only [List.length_append, List.length_cons, List.length_dropLast, List.length_drop,
            List.length_take]
          omega

/-- Nothing the parser will look at again is changed. -/
theorem rewrite_drop (ts : List Token) (part : Part) (fits : part.Fits ts) :
    (part.rewrite ts).1.drop (part.taken ts) = ts.drop (part.taken ts) := by
  have length := rewrite_length ts part fits
  cases part with
  | group i => rfl
  | comma => rfl
  | semicolon => rfl
  | route i j =>
      have le : i ≤ ts.length := fits
      have beyond : i + 1 ≤ (Part.route i j).taken ts := by
        rw [Part.taken]
        split <;> omega
      obtain ⟨m, hm⟩ := Nat.exists_eq_add_of_le beyond
      rw [hm, Part.rewrite]
      cases ends : fusedEnds ts i with
      | none =>
          have front : ((ts.take i).map quoteComment).length = i := by simp [le]
          simp only
          rw [show i + 1 + m = ((ts.take i).map quoteComment).length + (1 + m) by omega,
            List.drop_append, front]
          simp [List.drop_drop]
      | some e =>
          simp only
          rw [show i + 1 + m = (i + m) + 1 by omega, List.drop_succ_cons, List.drop_drop,
            Nat.add_comm 1]
  | oldStyle i =>
      have le : i ≤ ts.length := fits
      rw [Part.rewrite, Part.taken]
      split
      · rfl
      · dsimp only
        split
        · rfl
        · rename_i positive save last
          have split' := length_filter_split isComment (ts.take i)
          rw [List.length_take] at split'
          have some' : 0 < ((ts.take i).filter isComment).length := by
            rw [List.length_pos_iff]
            intro none
            rw [none] at last
            cases last
          generalize hfront : (ts.take i).filter (fun t => !isComment t) ++
            ((ts.take i).drop ((ts.take i).filter fun t => !isComment t).length).dropLast = front
          have frontLength : front.length = i - 1 := by
            rw [← hfront]
            simp only [List.length_append, List.length_dropLast, List.length_drop, List.length_take]
            omega
          rw [show i = front.length + 1 by omega, List.drop_append]
          simp

/-! ## The two passes agree -/

theorem rewrite_entry (ts : List Token) (part : Part) :
    (part.rewrite ts).2.toList.length = if part.counts then 1 else 0 := by
  cases part with
  | group i => rfl
  | comma => rfl
  | semicolon => rfl
  | route i j =>
      rw [Part.rewrite]
      cases fusedEnds ts i with
      | none => rfl
      | some e => rfl
  | oldStyle i =>
      rw [Part.rewrite]
      by_cases zero : i = 0
      · rw [if_pos zero]
        simp [Part.counts, zero]
      · rw [if_neg zero]
        cases ((ts.take i).filter isComment).getLast? with
        | none => simp [Part.counts, zero]
        | some save => simp [Part.counts, zero]

theorem rewritten_drop (array : List Token) (pos : Nat) (part : Part)
    (fits : part.Fits (array.drop pos)) (inside : pos ≤ array.length) :
    (array.take pos ++ (part.rewrite (array.drop pos)).1).drop
        (pos + part.taken (array.drop pos)) =
      array.drop (pos + part.taken (array.drop pos)) := by
  have front : (array.take pos).length = pos := by simp [inside]
  rw [List.drop_append, front, Nat.add_sub_cancel_left, rewrite_drop _ _ fits, List.drop_drop]
  have none : (array.take pos).drop (pos + part.taken (array.drop pos)) = [] :=
    List.drop_eq_nil_of_le (by omega)
  rw [none, List.nil_append]

/-- The second pass leaves the array from its own position on as the first pass sees it. -/
theorem parseLoop_agrees (fuel pos : Nat) (array array' : List Token)
    (same : array.drop pos = array'.drop pos) :
    (parseLoop true fuel pos array).naddrs = (parseLoop false fuel pos array').naddrs ∧
      (parseLoop true fuel pos array).addrs.length = (parseLoop true fuel pos array).naddrs := by
  induction fuel generalizing pos array array' with
  | zero => exact ⟨rfl, rfl⟩
  | succ fuel ih =>
      rw [parseLoop, parseLoop, ← same]
      by_cases done : (array.drop pos).isEmpty = true
      · rw [if_pos done, if_pos done]
        exact ⟨rfl, rfl⟩
      · have inside : pos ≤ array.length := by
          by_contra beyond
          exact done (by simp [List.drop_eq_nil_of_le (show array.length ≤ pos by omega)])
        have fits := classify_fits (array.drop pos)
        have next := rewritten_drop array pos _ fits inside
        have later : array.drop (pos + (classify (array.drop pos)).taken (array.drop pos)) =
            array'.drop (pos + (classify (array.drop pos)).taken (array.drop pos)) := by
          rw [← List.drop_drop, same, List.drop_drop]
        obtain ⟨count, entries⟩ := ih _ _ array' (next.trans later)
        simp only [if_neg done, if_true, Bool.false_eq_true, if_false]
        refine ⟨by rw [count], ?_⟩
        rw [List.length_append, entries, rewrite_entry]

end Cone.Rfc822Parseaddr
