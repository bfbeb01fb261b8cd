import Cone.Ctype

/-! # The address tokenizer (`tokenize` in `rfc822/rfc822.c`)

The second pass of `rfc822t_alloc_new`, the one that fills the array of tokens; the first only
counts them.  A C string is the list of its characters before the terminating zero.

`Words` says what the tokens are, as kinds and texts and without their places; its rules read
a text one construct after the other. -/
set_option autoImplicit false
namespace Cone.Rfc822Tokenize

open Cone.Ctype

structure Pointer where
  offset : Option Nat
  chars : List UInt8
  deriving DecidableEq, Repr

/-- `struct rfc822token`; `token` is zero for an atom. -/
structure Token where
  token : UInt8
  ptr : Pointer
  len : Nat
  deriving DecidableEq, Repr

def Token.text (t : Token) : List UInt8 := t.ptr.chars.take t.len

/-- What one pass writes: the tokens, and the positions given to `err_func`. -/
structure Scan where
  tokens : List Token
  errors : List Nat
  deriving DecidableEq, Repr

namespace Scan

def token (t : Token) (s : Scan) : Scan := { s with tokens := t :: s.tokens }

def append (ts : List Token) (s : Scan) : Scan := { s with tokens := ts ++ s.tokens }

def error (i : Nat) (s : Scan) : Scan := { s with errors := i :: s.errors }

@[simp] theorem tokens_token (t : Token) (s : Scan) : (s.token t).tokens = t :: s.tokens := rfl

@[simp] theorem tokens_append (ts : List Token) (s : Scan) :
    (s.append ts).tokens = ts ++ s.tokens := rfl

end Scan

def specials : List UInt8 :=
  ['<', '>', '@', ',', ';', ':', '.', '[', ']', '(', ')', '%', '!', '"', '\\', '?', '=', '/'].map
    byte

def rfc822Specials : List UInt8 :=
  ['(', ')', '<', '>', '[', ']', ':', ';', '@', '\\', ',', '.', '"'].map byte

def atomChar (c : UInt8) : Bool := !isspace c && c ∉ specials

def commentLen : Nat → List UInt8 → Option Nat
  | _, [] => none
  | level, c :: p =>
    if c = byte '(' then (commentLen (level + 1) p).map (· + 1)
    else if c = byte ')' then
      if level = 1 then some 1 else (commentLen (level - 1) p).map (· + 1)
    else if c = byte '\\' then
      match p with
      | [] => none
      | _ :: p => (commentLen level p).map (· + 2)
    else (commentLen level p).map (· + 1)

def quotedLen : List UInt8 → Option Nat
  | [] => none
  | c :: p =>
    if c = byte '"' then some 0
    else if c = byte '\\' then
      match p with
      | [] => none
      | _ :: p => (quotedLen p).map (· + 2)
    else (quotedLen p).map (· + 1)

def encodedWordLen : List UInt8 → Option Nat
  | [] => none
  | c :: p =>
    if c = byte '?' ∧ p.head? = some (byte '=') then some 2
    else if c = byte '?' ∨ c = byte '=' then (encodedWordLen p).map (· + 1)
    else if c ∈ rfc822Specials ∨ isspace c then none
    else (encodedWordLen p).map (· + 1)

/-- The exception for `=? ... ?=`, at the `=`. -/
def encodedWordAt : List UInt8 → Option Nat
  | _ :: c :: p => if c = byte '?' then (encodedWordLen p).map (· + 2) else none
  | _ => none

/-- A `<` inside of brackets, or a `>` outside of them. -/
def unpaired (inbracket : Bool) (c : UInt8) : Bool :=
  (c = byte '<' && inbracket) || (c = byte '>' && !inbracket)

def bracketAfter (inbracket : Bool) (c : UInt8) : Bool :=
  if c = byte '<' then true else if c = byte '>' then false else inbracket

/-- The empty atom that a `<` followed at once by a `>` is given. -/
def nullAddress (c : UInt8) (q : List UInt8) : List Token :=
  if c = byte '<' ∧ q.head? = some (byte '>') then [⟨0, ⟨none, []⟩, 0⟩] else []

theorem nullAddress_of_ne {c : UInt8} (hc : c ≠ byte '<') (q : List UInt8) :
    nullAddress c q = [] := by
  simp [nullAddress, hc]

def tokenizeAt : Nat → Bool → Nat → List UInt8 → Scan
  | 0, _, _, _ => ⟨[], []⟩
  | _ + 1, _, _, [] => ⟨[], []⟩
  | fuel + 1, inbracket, i, c :: q =>
    let p := c :: q
    let here : Pointer := ⟨some i, p⟩
    if isspace c then tokenizeAt fuel inbracket (i + 1) q
    else if c = byte '(' then
      match commentLen 0 p with
      | none => (Scan.token ⟨byte '"', here, p.length⟩ ⟨[], []⟩).error (i + p.length)
      | some n => (tokenizeAt fuel inbracket (i + n) (p.drop n)).token ⟨byte '(', here, n⟩
    else if c = byte '"' then
      let here : Pointer := ⟨some (i + 1), q⟩
      match quotedLen q with
      | none => (Scan.token ⟨byte '"', here, q.length⟩ ⟨[], []⟩).error (i + p.length)
      | some n =>
        (tokenizeAt fuel inbracket (i + n + 2) (q.drop (n + 1))).token ⟨byte '"', here, n⟩
    else if c = byte '\\' ∨ c = byte ')' then
      (tokenizeAt fuel inbracket (i + 1) q).error i
    else if c ∈ specials then
      match if c = byte '=' then encodedWordAt p else none with
      | some n => (tokenizeAt fuel inbracket (i + n) (p.drop n)).token ⟨0, here, n⟩
      | none =>
        if unpaired inbracket c then (tokenizeAt fuel inbracket (i + 1) q).error i
        else
          ((tokenizeAt fuel (bracketAfter inbracket c) (i + 1) q).append (nullAddress c q)).token
            ⟨c, here, 1⟩
    else
      -- the atom is never empty here, which is what the source's `i == 0` test looks for
      let n := (p.takeWhile atomChar).length
      (tokenizeAt fuel inbracket (i + n) (p.drop n)).token ⟨0, here, n⟩

def tokenize (addr : List UInt8) : Scan := tokenizeAt addr.length false 0 addr

/-! ## The words of a text -/

def Token.word (t : Token) : UInt8 × List UInt8 := (t.token, t.text)

/-- The kinds and texts of the tokens that the loop makes of `p`, wherever `p` stands. -/
def Words (inbracket : Bool) (p : List UInt8) (ws : List (UInt8 × List UInt8)) : Prop :=
  ∀ fuel i, p.length ≤ fuel → (tokenizeAt fuel inbracket i p).tokens.map Token.word = ws

theorem words_nil (inbracket : Bool) : Words inbracket [] [] := by
  intro fuel i _
  cases fuel <;> rfl

section Rules
variable {inbracket : Bool} {c : UInt8} {p : List UInt8} {ws : List (UInt8 × List UInt8)}

theorem words_space (hc : isspace c = true) (h : Words inbracket p ws) :
    Words inbracket (c :: p) ws := by
  intro fuel i hf
  cases fuel with
  | zero => simp at hf
  | succ fuel =>
      rw [tokenizeAt, if_pos hc]
      exact h fuel (i + 1) (by simpa using hf)

/-- The characters that a round takes by themselves: every special one but those that open or
escape something. -/
def single : List UInt8 :=
  ['<', '>', '@', ',', ';', ':', '.', '[', ']', '%', '!', '?', '=', '/'].map byte

theorem single_not_other : ∀ c ∈ single, isspace c = false ∧ c ≠ byte '(' ∧ c ≠ byte '"' ∧
    ¬ (c = byte '\\' ∨ c = byte ')') ∧ c ∈ specials := by decide +kernel

theorem tokenizeAt_single (hc : c ∈ single) (fuel i : Nat)
    (hword : c = byte '=' → encodedWordAt (c :: p) = none) :
    tokenizeAt (fuel + 1) inbracket i (c :: p) =
      if unpaired inbracket c then (tokenizeAt fuel inbracket (i + 1) p).error i
      else
        ((tokenizeAt fuel (bracketAfter inbracket c) (i + 1) p).append (nullAddress c p)).token
          ⟨c, ⟨some i, c :: p⟩, 1⟩ := by
  obtain ⟨hspace, hparen, hquote, hskip, hspecial⟩ := single_not_other c hc
  have hnone : (if c = byte '=' then encodedWordAt (c :: p) else none) = none := by
    split
    · exact hword ‹_›
    · rfl
  rw [tokenizeAt, if_neg (by simp [hspace]), if_neg hparen, if_neg hquote, if_neg hskip,
    if_pos hspecial, hnone]

theorem words_single (hc : c ∈ single) (hword : c = byte '=' → encodedWordAt (c :: p) = none)
    (hpair : unpaired inbracket c = false) (h : Words (bracketAfter inbracket c) p ws) :
    Words inbracket (c :: p) ((c, [c]) :: ((nullAddress c p).map Token.word ++ ws)) := by
  intro fuel i hf
  cases fuel with
  | zero => simp at hf
  | succ fuel =>
      have hrest := h fuel (i + 1) (by simpa using hf)
      rw [tokenizeAt_single hc fuel i hword, if_neg (by simp [hpair])]
      simp [hrest, Token.word, Token.text]

/-- A character with no role but its own. -/
theorem words_mark (inbracket : Bool) (c : UInt8) (hc : c ∈ single)
    (hplain : c ≠ byte '=' ∧ c ≠ byte '<' ∧ c ≠ byte '>') (h : Words inbracket p ws) :
    Words inbracket (c :: p) ((c, [c]) :: ws) := by
  obtain ⟨hequals, hless, hgreater⟩ := hplain
  have hpair : unpaired inbracket c = false := by simp [unpaired, hless, hgreater]
  have hafter : bracketAfter inbracket c = inbracket := by simp [bracketAfter, hless, hgreater]
  have hsingle := words_single hc (fun he => absurd he hequals) hpair (by rwa [hafter])
  rwa [nullAddress_of_ne hless] at hsingle

theorem words_equals (inbracket : Bool) (hword : encodedWordAt (byte '=' :: p) = none)
    (h : Words inbracket p ws) :
    Words inbracket (byte '=' :: p) ((byte '=', [byte '=']) :: ws) := by
  have hpair : unpaired inbracket (byte '=') = false := rfl
  have hsingle := words_single (by decide) (fun _ => hword) hpair h
  rwa [nullAddress_of_ne (by decide)] at hsingle

theorem words_unpaired (hc : unpaired inbracket c = true) (h : Words inbracket p ws) :
    Words inbracket (c :: p) ws := by
  intro fuel i hf
  have hsingle : c ∈ single ∧ c ≠ byte '=' := by
    rcases (by simpa [unpaired] using hc : _ ∨ _) with ⟨rfl, _⟩ | ⟨rfl, _⟩ <;> decide
  cases fuel with
  | zero => simp at hf
  | succ fuel =>
      rw [tokenizeAt_single hsingle.1 fuel i (fun he => absurd he hsingle.2), if_pos hc]
      exact h fuel (i + 1) (by simpa using hf)

theorem not_special_of_atomChar (h : atomChar c = true) : isspace c = false ∧ c ∉ specials := by
  simpa [atomChar] using h

theorem words_atom {w : List UInt8} (hw : w ≠ []) (hatom : ∀ c ∈ w, atomChar c = true)
    (hp : ∀ c ∈ p.head?, atomChar c = false) (h : Words inbracket p ws) :
    Words inbracket (w ++ p) ((0, w) :: ws) := by
  intro fuel i hf
  cases fuel with
  | zero => simp_all
  | succ fuel =>
      obtain ⟨c, w', rfl⟩ := List.exists_cons_of_ne_nil hw
      obtain ⟨hspace, hspecial⟩ := not_special_of_atomChar (hatom c (by simp))
      have hne : ∀ d ∈ specials, c ≠ d := fun d hd he => hspecial (he ▸ hd)
      have hspan : (c :: (w' ++ p)).takeWhile atomChar = c :: w' := by
        rw [← List.cons_append, List.takeWhile_append_of_pos hatom]
        have hnil : p.takeWhile atomChar = [] := by
          cases p with
          | nil => rfl
          | cons d p => simp [hp d (by simp)]
        simp [hnil]
      rw [List.cons_append, tokenizeAt, if_neg (by simp [hspace]),
        if_neg (hne _ (by decide)), if_neg (hne _ (by decide)),
        if_neg (by rintro (he | he) <;> exact hne _ (by decide) he), if_neg hspecial]
      have hdrop : (c :: (w' ++ p)).drop (c :: w').length = p := by simp
      simp only [hspan, hdrop, Scan.tokens_token, List.map_cons,
        h fuel _ (by simp at hf; omega)]
      simp [Token.word, Token.text]

theorem quotedLen_append {w : List UInt8} (hw : ∀ c ∈ w, c ≠ byte '"' ∧ c ≠ byte '\\') :
    quotedLen (w ++ byte '"' :: p) = some w.length := by
  induction w with
  | nil => rw [List.nil_append, quotedLen.eq_def]; rfl
  | cons c w ih =>
      obtain ⟨hquote, hback⟩ := hw c (by simp)
      rw [List.cons_append, quotedLen.eq_def]
      simp [hquote, hback, ih fun c hc => hw c (by simp [hc])]

theorem words_quoted {w : List UInt8} (hw : ∀ c ∈ w, c ≠ byte '"' ∧ c ≠ byte '\\')
    (h : Words inbracket p ws) :
    Words inbracket (byte '"' :: (w ++ byte '"' :: p)) ((byte '"', w) :: ws) := by
  intro fuel i hf
  cases fuel with
  | zero => simp at hf
  | succ fuel =>
      have hdrop : (w ++ byte '"' :: p).drop (w.length + 1) = p := by simp [List.drop_append]
      rw [tokenizeAt, if_neg (by decide), if_neg (by decide), if_pos rfl]
      simp only [quotedLen_append hw, hdrop, Scan.tokens_token, List.map_cons,
        h fuel _ (by simp at hf ⊢; omega)]
      simp [Token.word, Token.text]

end Rules

theorem words_tokenize {p : List UInt8} {ws : List (UInt8 × List UInt8)} (h : Words false p ws) :
    (tokenize p).tokens.map Token.word = ws := h p.length 0 (le_refl _)

end Cone.Rfc822Tokenize
