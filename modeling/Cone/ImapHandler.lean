import Cone.ImapSearch
import Cone.ImapparsefmtReads

/-! # Server responses in tokens

`mail::imapHandlerStructured::process` of imaphandler.C. The message of an error is left out. -/
set_option autoImplicit false
namespace Cone.ImapHandler

open Cone.Ctype Cone.Lib.Decimal
open Cone.ImapBodystructure (Text upper)
open Cone.ImapSearch (unicode_isspace)
open Cone.ImapparsefmtReads (Token)

section Handlers

/-- Whether a call of `process(Token)` calls `done()` or `error()`. -/
structure Reaction where
  done : Bool
  error : Bool
  deriving DecidableEq, Repr

structure Subclass where
  process : List Token → Reaction
  processPiece : List Token → Text → Reaction
  wantLargeString : List Token → Text → Bool

/-- `mail::imapHandlerStructured`, with what its subclass was handed. -/
structure Handler where
  errormode : Bool
  donemode : Bool
  stringmode : Bool
  largestringleft : Nat
  stringbuffer : Text
  largestringsize : Nat
  tokens : List Token
  pieces : Text
  uninstalled : Bool
  deriving DecidableEq, Repr

def imapHandlerStructured : Handler := ⟨false, false, false, 0, [], 0, [], [], false⟩

def Handler.react (h : Handler) (r : Reaction) : Handler :=
  { h with donemode := h.donemode || r.done, errormode := h.errormode || r.error }

def Handler.error (h : Handler) : Handler := { h with errormode := true }

def Handler.uninstall (h : Handler) : Handler := { h with uninstalled := true }

variable (sub : Subclass)

def Handler.hand (h : Handler) (t : Token) : Handler :=
  { h with tokens := h.tokens ++ [t] }.react (sub.process (h.tokens ++ [t]))

def Handler.handString (h : Handler) (text : Text) : Handler :=
  { h with pieces := [] }.hand sub (.STRING (h.pieces ++ text))

def Handler.handPiece (h : Handler) (text : Text) : Handler :=
  { h with pieces := h.pieces ++ text }.react (sub.processPiece h.tokens (h.pieces ++ text))

end Handlers

section Process

def QUOTE : UInt8 := byte '"'
def BACKSLASH : UInt8 := 92
def LBRACE : UInt8 := 123
def RBRACE : UInt8 := 125
def LBRACKET : UInt8 := byte '['
def RBRACKET : UInt8 := byte ']'

def ATOMCHAR (c : UInt8) : Bool :=
  c > SP && c ≠ QUOTE && c ≠ byte '(' && c ≠ byte ')' && c ≠ LBRACE && c ≠ byte '%' && c ≠ byte '*'

/-- `strchr("*()", c)` finds the zero at the end too. -/
def special (c : UInt8) : Bool := c ∈ str "*()" ++ [NUL]

def append (s : Text) (c : UInt8) : Text := if s.length < 10000 then s ++ [c] else s

variable (sub : Subclass) (h : Handler)

def Handler.closed : Handler := ({ h with stringmode := false }.hand sub .EOL).uninstall

def Handler.string (s : Text) : Handler :=
  { h with stringmode := false, largestringsize := s.length }.hand sub (.STRING s)

def quoted : Text → Nat → Text → Nat × Handler
  | _, _, [] => (0, h)
  | s, cnt, c :: b =>
    if c = QUOTE then (cnt + 1, h.string sub s)
    else if c = BACKSLASH then
      match b with
      | [] => (0, h)
      | c :: b =>
        if c = NL then (cnt + 2, h.closed sub) else quoted (append s c) (cnt + 2) b
    else if c = NL then (cnt + 1, h.closed sub)
    else quoted (append s c) (cnt + 1) b

def literal (buffer : Text) : Nat × Handler :=
  let n := min buffer.length h.largestringleft
  let buffer_cpy := buffer.take n
  let h := { h with largestringleft := h.largestringleft - n }
  if sub.wantLargeString h.tokens h.pieces then
    if h.errormode then (n, h)
    else if h.largestringleft = 0 then (n, h.handString sub buffer_cpy)
    else (n, h.handPiece sub buffer_cpy)
  else
    let h := { h with stringbuffer := (h.stringbuffer ++ buffer_cpy).take 8192 }
    if h.largestringleft = 0 ∧ h.errormode = false then (n, h.hand sub (.STRING h.stringbuffer))
    else (n, h)

def Handler.startLiteral (n : Nat) : Handler :=
  let h := { h with largestringsize := n, largestringleft := n, stringbuffer := [] }
  if h.donemode ∧ h.errormode = false then h.error
  else if h.errormode = false ∧ n = 0 then h.hand sub (.STRING h.stringbuffer)
  else h

def Handler.fail : Handler := if h.errormode then h else h.error

def behindCR (n cnt : Nat) (c : UInt8) : Nat × Handler :=
  if c ≠ NL then (cnt, h.fail) else (cnt + 1, h.startLiteral sub n)

def behindBrace (n cnt : Nat) : Text → Nat × Handler
  | [] => (0, h)
  | c :: b =>
    if c = CR then
      match b with
      | [] => (0, h)
      | c :: _ => behindCR sub h n (cnt + 1) c
    else behindCR sub h n cnt c

def nextSize (n : Nat) (c : UInt8) : Nat := (n * 10 + (c.toNat - (byte '0').toNat)) % 2 ^ 64

def header : Nat → Nat → Text → Nat × Handler
  | _, _, [] => (0, h)
  | n, cnt, c :: b =>
    if c = RBRACE then behindBrace sub h n (cnt + 1) b
    else if isdigit c = false then (cnt, h.fail)
    else header (nextSize n c) (cnt + 1) b

def Handler.atom (s : Text) : Handler :=
  h.hand sub (if upper s = str "NIL" then .NIL else .ATOM s)

def atom : Text → Nat → Nat → Text → Nat × Handler
  | _, _, _, [] => (0, h)
  | s, bracket_cnt, cnt, c :: b =>
    if bracket_cnt > 0 then
      if c = NL ∨ c = CR then (cnt, h.hand sub (.ATOM s))
      else if c = RBRACKET then
        if bracket_cnt - 1 = 0 then (cnt + 1, h.hand sub (.ATOM (append s c)))
        else atom (append s c) (bracket_cnt - 1) (cnt + 1) b
      else atom (append s c) bracket_cnt (cnt + 1) b
    else if ATOMCHAR c = false then (cnt, h.atom sub s)
    else atom (append s c) (if c = LBRACKET then bracket_cnt + 1 else bracket_cnt) (cnt + 1) b

def Handler.endOfLine : Handler :=
  (if h.donemode = false ∧ h.errormode = false then h.hand sub .EOL else h).uninstall

/-- The loop; `continue` behind `error` comes back to a byte that error recovery eats. -/
def scan : Handler → Nat → Text → Nat × Handler
  | h, cnt, [] => (cnt, h)
  | h, cnt, c :: b =>
    if c = NL then (cnt + 1, h.endOfLine sub)
    else if unicode_isspace c then scan h (cnt + 1) b
    else if c = LBRACE then header sub h 0 (cnt + 1) b
    else if h.errormode then scan h (cnt + 1) b
    else if h.donemode then scan h.error (cnt + 1) b
    else if special c then (cnt + 1, h.hand sub (.char c))
    else if c = QUOTE then (cnt + 1, { h with stringmode := true })
    else if ATOMCHAR c then atom sub h [c] 0 (cnt + 1) b
    else (cnt + 1, h.error)

def process (buffer : Text) : Nat × Handler :=
  if h.stringmode then quoted sub h [] 0 buffer
  else if h.largestringleft > 0 then literal sub h buffer
  else scan sub h 0 buffer

end Process

section Runs

inductive Run (sub : Subclass) (start : Handler) : Text → Handler → Text → Prop
  | start : Run sub start [] start []
  | arrive {text rest : Text} {h : Handler} (more : Text) (run : Run sub start text h rest) :
      Run sub start (text ++ more) h (rest ++ more)
  | call {text rest : Text} {h : Handler} (run : Run sub start text h rest)
      (installed : h.uninstalled = false) (busy : rest ≠ []) :
      Run sub start text (process sub h rest).2 (rest.drop (process sub h rest).1)

def Subclass.Patient (sub : Subclass) (tokens : List Token) : Prop :=
  ∀ pieces pieces', sub.wantLargeString tokens pieces = true →
    sub.wantLargeString tokens pieces' = true ∧ sub.processPiece tokens pieces' = ⟨false, false⟩

def Handler.Steady (sub : Subclass) (h : Handler) : Prop :=
  h.errormode = false → 0 < h.largestringleft → sub.Patient h.tokens

def Steady (sub : Subclass) (start : Handler) (text : Text) : Prop :=
  ∀ text' h rest, text' <+: text → Run sub start text' h rest → h.Steady sub

end Runs

section Bytes

inductive Reading where
  | between
  | quoted (s : Text)
  | escape (s : Text)
  | header (n : Nat)
  | brace (n : Nat)
  | braceCR (n : Nat)
  | atom (s : Text) (bracket_cnt : Nat)
  | ended (behind : Text)
  deriving DecidableEq, Repr

abbrev Machine := Handler × Reading

def base (h : Handler) : Machine :=
  (h, if h.uninstalled then .ended [] else if h.stringmode then .quoted [] else .between)

variable (sub : Subclass)

/-- A byte that begins a token. -/
def opening (h : Handler) (c : UInt8) : Machine :=
  if c = NL then base (h.endOfLine sub)
  else if unicode_isspace c then base h
  else if c = LBRACE then (h, .header 0)
  else if h.errormode then base h
  else if h.donemode then base h.error
  else if special c then base (h.hand sub (.char c))
  else if c = QUOTE then base { h with stringmode := true }
  else if ATOMCHAR c then (h, .atom [c] 0)
  else base h.error

def step (m : Machine) (c : UInt8) : Machine :=
  let h := m.1
  match m.2 with
  | .ended behind => (h, .ended (behind ++ [c]))
  | .quoted s =>
    if c = QUOTE then base (h.string sub s)
    else if c = BACKSLASH then (h, .escape s)
    else if c = NL then base (h.closed sub)
    else (h, .quoted (append s c))
  | .escape s => if c = NL then base (h.closed sub) else (h, .quoted (append s c))
  | .between =>
    if h.largestringleft > 0 then base (literal sub h [c]).2 else opening sub h c
  | .header n =>
    if c = RBRACE then (h, .brace n)
    else if isdigit c = false then opening sub h.fail c
    else (h, .header (nextSize n c))
  | .brace n =>
    if c = CR then (h, .braceCR n)
    else if c ≠ NL then opening sub h.fail c
    else base (h.startLiteral sub n)
  | .braceCR n => if c ≠ NL then opening sub h.fail c else base (h.startLiteral sub n)
  | .atom s bracket_cnt =>
    if bracket_cnt > 0 then
      if c = NL ∨ c = CR then opening sub (h.hand sub (.ATOM s)) c
      else if c = RBRACKET then
        if bracket_cnt - 1 = 0 then base (h.hand sub (.ATOM (append s c)))
        else (h, .atom (append s c) (bracket_cnt - 1))
      else (h, .atom (append s c) bracket_cnt)
    else if ATOMCHAR c = false then opening sub (h.atom sub s) c
    else (h, .atom (append s c) (if c = LBRACKET then bracket_cnt + 1 else bracket_cnt))

def feed (m : Machine) (text : Text) : Machine := text.foldl (step sub) m

/-- A token that is not complete. -/
def Reading.Incomplete : Reading → Prop
  | .between => False
  | .ended _ => False
  | _ => True

end Bytes

section Spec
variable {sub : Subclass} {h : Handler} {m : Machine} {b : Text} {c : UInt8} {cnt : Nat}
  {r : Nat × Handler}

structure Clean (h : Handler) : Prop where
  installed : h.uninstalled = false
  stringmode : h.stringmode = false
  left : h.largestringleft = 0

theorem Clean.hand (hc : Clean h) (sub : Subclass) (t : Token) : Clean (h.hand sub t) :=
  ⟨hc.installed, hc.stringmode, hc.left⟩

theorem Clean.error (hc : Clean h) : Clean h.error := ⟨hc.installed, hc.stringmode, hc.left⟩

theorem Clean.fail (hc : Clean h) : Clean h.fail := by
  rw [Handler.fail]
  split
  · exact hc
  · exact hc.error

theorem base_of (hinstalled : h.uninstalled = false) (hstring : h.stringmode = false) :
    base h = (h, .between) := by
  rw [base, hinstalled, hstring]
  rfl

theorem step_base (hc : Clean h) (c : UInt8) : step sub (base h) c = opening sub h c := by
  rw [base_of hc.installed hc.stringmode, step]
  simp only [hc.left, Nat.lt_irrefl, if_false]

theorem feed_cons (m : Machine) (c : UInt8) (b : Text) :
    feed sub m (c :: b) = feed sub (step sub m c) b := rfl

theorem feed_append (m : Machine) (a b : Text) :
    feed sub m (a ++ b) = feed sub (feed sub m a) b := List.foldl_append

/-- The call takes bytes and leaves the handler between two calls. -/
def Consumes (sub : Subclass) (m : Machine) (b : Text) (cnt : Nat) (r : Nat × Handler) : Prop :=
  ∃ k, r.1 = cnt + k ∧ k ≤ b.length ∧ feed sub m b = feed sub (base r.2) (b.drop k)

/-- The call takes nothing: a token is not complete. -/
def Waits (sub : Subclass) (h : Handler) (m : Machine) (b : Text) (r : Nat × Handler) : Prop :=
  r = (0, h) ∧ (feed sub m b).1 = h ∧ (feed sub m b).2.Incomplete

def Reads (sub : Subclass) (h : Handler) (m : Machine) (b : Text) (cnt : Nat)
    (r : Nat × Handler) : Prop :=
  Waits sub h m b r ∨ Consumes sub m b cnt r

theorem Reads.cons (hr : Reads sub h (step sub m c) b (cnt + 1) r) :
    Reads sub h m (c :: b) cnt r := by
  rcases hr with hwaits | ⟨k, hk, hle, hfeed⟩
  · exact Or.inl hwaits
  · refine Or.inr ⟨k + 1, by omega, ?_, ?_⟩
    · rw [List.length_cons]
      omega
    · rw [feed_cons, hfeed, List.drop_succ_cons]

theorem Consumes.one {h' : Handler} (hstep : step sub m c = base h') :
    Consumes sub m (c :: b) cnt (cnt + 1, h') := by
  refine ⟨1, rfl, ?_, ?_⟩
  · rw [List.length_cons]
    omega
  · rw [feed_cons, hstep, List.drop_succ_cons, List.drop_zero]

/-- The byte behind a token is left to the next call. -/
theorem Consumes.none {h' : Handler} (hc : Clean h') (hstep : step sub m c = opening sub h' c) :
    Consumes sub m (c :: b) cnt (cnt, h') := by
  refine ⟨0, rfl, Nat.zero_le _, ?_⟩
  rw [List.drop_zero, feed_cons, feed_cons, hstep, step_base hc]

theorem step_backslash (s : Text) : step sub (h, .quoted s) BACKSLASH = (h, .escape s) := by
  simp only [step, if_neg (show BACKSLASH ≠ QUOTE by decide), if_true]

theorem quoted_reads (s : Text) (cnt : Nat) (b : Text) :
    Waits sub h (h, .quoted s) b (quoted sub h s cnt b) ∨
      Consumes sub (h, .quoted s) b cnt (quoted sub h s cnt b) ∧
        cnt < (quoted sub h s cnt b).1 := by
  -- the bytes before the last one of the string
  have hcons {m : Machine} {c : UInt8} {b : Text} {cnt n : Nat} {r : Nat × Handler}
      (hn : cnt < n)
      (hr : Waits sub h (step sub m c) b r ∨ Consumes sub (step sub m c) b (cnt + 1) r ∧ n < r.1) :
      Waits sub h m (c :: b) r ∨ Consumes sub m (c :: b) cnt r ∧ cnt < r.1 := by
    rcases hr with hwaits | ⟨hconsumes, hlt⟩
    · exact Or.inl hwaits
    · exact (Reads.cons (Or.inr hconsumes)).imp_right fun h => ⟨h, by omega⟩
  fun_induction quoted sub h s cnt b with
  | case1 s cnt => exact Or.inl ⟨rfl, rfl, trivial⟩
  | case2 s cnt b => exact Or.inr ⟨Consumes.one (by simp [step]), Nat.lt_succ_self _⟩
  | case3 s cnt hquote =>
      refine hcons (Nat.lt_succ_self cnt) (Or.inl ?_)
      rw [step_backslash]
      exact ⟨rfl, rfl, trivial⟩
  | case4 s cnt b hquote =>
      refine hcons (Nat.lt_succ_self cnt) (Or.inr ?_)
      rw [step_backslash]
      exact ⟨Consumes.one (by simp [step]), Nat.lt_succ_self _⟩
  | case5 s cnt c b hnl hquote ih =>
      have hnext : step sub (h, .escape s) c = (h, .quoted (append s c)) := by
        simp [step, hnl]
      refine hcons (Nat.lt_succ_self cnt) ?_
      rw [step_backslash]
      refine hcons (Nat.lt_succ_self (cnt + 1)) ?_
      rw [hnext]
      exact ih
  | case6 s cnt b hquote hback =>
      exact Or.inr ⟨Consumes.one (by simp [step, hquote, hback]), Nat.lt_succ_self _⟩
  | case7 s cnt c b hquote hback hnl ih =>
      have hstep : step sub (h, .quoted s) c = (h, .quoted (append s c)) := by
        simp [step, hquote, hback, hnl]
      refine hcons (Nat.lt_succ_self cnt) ?_
      rw [hstep]
      exact ih

theorem behindCR_reads (hc : Clean h) (n cnt : Nat) (c : UInt8) (b : Text)
    (hm : step sub m c = if c ≠ NL then opening sub h.fail c else base (h.startLiteral sub n)) :
    Consumes sub m (c :: b) cnt (behindCR sub h n cnt c) := by
  rw [behindCR]
  by_cases hnl : c ≠ NL
  · rw [if_pos hnl] at hm ⊢
    exact Consumes.none hc.fail hm
  · rw [if_neg hnl] at hm ⊢
    exact Consumes.one hm

theorem behindBrace_reads (hc : Clean h) (n cnt : Nat) (b : Text) :
    Reads sub h (h, .brace n) b cnt (behindBrace sub h n cnt b) := by
  cases b with
  | nil => exact Or.inl ⟨rfl, rfl, trivial⟩
  | cons c b =>
      rw [behindBrace.eq_def]
      simp only
      by_cases hcr : c = CR
      · have hstep : step sub (h, .brace n) c = (h, .braceCR n) := by simp [step, hcr]
        rw [if_pos hcr]
        refine Reads.cons ?_
        rw [hstep]
        cases b with
        | nil => exact Or.inl ⟨rfl, rfl, trivial⟩
        | cons d b => exact Or.inr (behindCR_reads hc n (cnt + 1) d b rfl)
      · rw [if_neg hcr]
        exact Or.inr (behindCR_reads hc n cnt c b (by simp only [step, if_neg hcr]))

theorem header_reads (hc : Clean h) (n cnt : Nat) (b : Text) :
    Reads sub h (h, .header n) b cnt (header sub h n cnt b) := by
  induction b generalizing n cnt with
  | nil => exact Or.inl ⟨rfl, rfl, trivial⟩
  | cons c b ih =>
      rw [header]
      by_cases hbrace : c = RBRACE
      · have hstep : step sub (h, .header n) c = (h, .brace n) := by simp only [step, if_pos hbrace]
        rw [if_pos hbrace]
        refine Reads.cons ?_
        rw [hstep]
        exact behindBrace_reads hc n (cnt + 1) b
      · rw [if_neg hbrace]
        by_cases hdigit : isdigit c = false
        · rw [if_pos hdigit]
          refine Or.inr (Consumes.none hc.fail ?_)
          simp only [step, if_neg hbrace, if_pos hdigit]
        · have hstep : step sub (h, .header n) c = (h, .header (nextSize n c)) := by
            simp only [step, if_neg hbrace, if_neg hdigit]
          rw [if_neg hdigit]
          refine Reads.cons ?_
          rw [hstep]
          exact ih (nextSize n c) (cnt + 1)

theorem atom_reads (hc : Clean h) (s : Text) (bracket_cnt cnt : Nat) (b : Text) :
    Reads sub h (h, .atom s bracket_cnt) b cnt (atom sub h s bracket_cnt cnt b) := by
  induction b generalizing s bracket_cnt cnt with
  | nil => exact Or.inl ⟨rfl, rfl, trivial⟩
  | cons c b ih =>
      rw [atom]
      by_cases hbracket : bracket_cnt > 0
      · rw [if_pos hbracket]
        by_cases hend : c = NL ∨ c = CR
        · rw [if_pos hend]
          refine Or.inr (Consumes.none (hc.hand sub _) ?_)
          simp only [step, if_pos hbracket, if_pos hend]
        · rw [if_neg hend]
          by_cases hclose : c = RBRACKET
          · rw [if_pos hclose]
            by_cases hlast : bracket_cnt - 1 = 0
            · rw [if_pos hlast]
              refine Or.inr (Consumes.one ?_)
              simp only [step, if_pos hbracket, if_neg hend, if_pos hclose, if_pos hlast]
            · have hstep : step sub (h, .atom s bracket_cnt) c =
                  (h, .atom (append s c) (bracket_cnt - 1)) := by
                simp only [step, if_pos hbracket, if_neg hend, if_pos hclose, if_neg hlast]
              rw [if_neg hlast]
              refine Reads.cons ?_
              rw [hstep]
              exact ih (append s c) (bracket_cnt - 1) (cnt + 1)
          · have hstep : step sub (h, .atom s bracket_cnt) c =
                (h, .atom (append s c) bracket_cnt) := by
              simp only [step, if_pos hbracket, if_neg hend, if_neg hclose]
            rw [if_neg hclose]
            refine Reads.cons ?_
            rw [hstep]
            exact ih (append s c) bracket_cnt (cnt + 1)
      · rw [if_neg hbracket]
        by_cases hatom : ATOMCHAR c = false
        · rw [if_pos hatom]
          refine Or.inr (Consumes.none (hc.hand sub _) ?_)
          simp only [step, if_neg hbracket, if_pos hatom]
        · have hstep : step sub (h, .atom s bracket_cnt) c = (h, .atom (append s c)
              (if c = LBRACKET then bracket_cnt + 1 else bracket_cnt)) := by
            simp only [step, if_neg hbracket, if_neg hatom]
          rw [if_neg hatom]
          refine Reads.cons ?_
          rw [hstep]
          exact ih _ _ (cnt + 1)

/-- The loop takes bytes, or a token is not complete; it may have met an error before that. -/
structure Held (sub : Subclass) (h : Handler) (b : Text) (r : Nat × Handler) : Prop where
  none : r.1 = 0
  handler : r.2 = h ∨ r.2 = h.error
  same : feed sub (base r.2) b = feed sub (base h) b
  inside : (feed sub (base h) b).1 = r.2 ∧ (feed sub (base h) b).2.Incomplete

def Scans (sub : Subclass) (h : Handler) (b : Text) (cnt : Nat) (r : Nat × Handler) : Prop :=
  Held sub h b r ∨ ∃ k, r.1 = cnt + k ∧ k ≤ b.length ∧ (b ≠ [] → 0 < k) ∧
    feed sub (base h) b = feed sub (base r.2) (b.drop k)

theorem Scans.of_consumed {k : Nat} (hk : r.1 = cnt + 1 + k) (hle : k ≤ b.length)
    (hfeed : feed sub (base h) (c :: b) = feed sub (base r.2) (b.drop k)) :
    Scans sub h (c :: b) cnt r := by
  refine Or.inr ⟨k + 1, by omega, ?_, fun _ => Nat.succ_pos k, ?_⟩
  · rw [List.length_cons]
    omega
  · rw [hfeed, List.drop_succ_cons]

theorem Scans.one {h' : Handler} (hc : Clean h) (hopen : opening sub h c = base h') :
    Scans sub h (c :: b) cnt (cnt + 1, h') := by
  refine Scans.of_consumed rfl (Nat.zero_le _) ?_
  rw [feed_cons, step_base hc, hopen, List.drop_zero]

/-- A byte that is passed over, in the state `h'` that may have met an error at it. -/
theorem Scans.cons {h' : Handler} (hc : Clean h) (hh' : h' = h ∨ h' = h.error)
    (hopen : opening sub h c = base h')
    (hkeep : ∀ g, (g = h' ∨ g = h'.error) → opening sub g c = base g)
    (hr : Scans sub h' b (cnt + 1) r) : Scans sub h (c :: b) cnt r := by
  have hfirst : feed sub (base h) (c :: b) = feed sub (base h') b := by
    rw [feed_cons, step_base hc, hopen]
  rcases hr with ⟨hnone, hhandler, hsame, hinside⟩ | ⟨k, hk, hle, -, hfeed⟩
  · have herror : h.error.error = h.error := rfl
    have hr2 : r.2 = h ∨ r.2 = h.error := by
      rcases hh' with rfl | rfl
      · exact hhandler
      · exact Or.inr (hhandler.elim id fun h => h.trans herror)
    have hcr : Clean r.2 := by
      rcases hr2 with heq | heq
      · rw [heq]
        exact hc
      · rw [heq]
        exact hc.error
    refine Or.inl ⟨hnone, hr2, ?_, ?_⟩
    · rw [hfirst, ← hsame, feed_cons, step_base hcr, hkeep r.2 hhandler]
    · rw [hfirst]
      exact hinside
  · exact Scans.of_consumed hk hle (hfirst.trans hfeed)

theorem Scans.of_reads {m : Machine} (hc : Clean h) (hopen : opening sub h c = m)
    (hr : Reads sub h m b (cnt + 1) r) : Scans sub h (c :: b) cnt r := by
  have hfirst : feed sub (base h) (c :: b) = feed sub m b := by
    rw [feed_cons, step_base hc, hopen]
  rcases hr with ⟨rfl, hinside⟩ | ⟨k, hk, hle, hfeed⟩
  · refine Or.inl ⟨rfl, Or.inl rfl, rfl, ?_⟩
    rw [hfirst]
    exact hinside
  · exact Scans.of_consumed hk hle (hfirst.trans hfeed)

theorem scan_reads (hc : Clean h) (cnt : Nat) (b : Text) :
    Scans sub h b cnt (scan sub h cnt b) := by
  induction b generalizing h cnt with
  | nil => exact Or.inr ⟨0, rfl, Nat.le_refl 0, fun hne => absurd rfl hne, rfl⟩
  | cons c b ih =>
      rw [scan]
      by_cases hnl : c = NL
      · rw [if_pos hnl]
        exact Scans.one hc (by rw [opening, if_pos hnl])
      rw [if_neg hnl]
      by_cases hspace : unicode_isspace c = true
      · have hopen (g : Handler) : opening sub g c = base g := by
          rw [opening, if_neg hnl, if_pos hspace]
        rw [if_pos hspace]
        exact Scans.cons hc (Or.inl rfl) (hopen h) (fun g _ => hopen g) (ih hc (cnt + 1))
      rw [if_neg hspace]
      by_cases hbrace : c = LBRACE
      · rw [if_pos hbrace]
        refine Scans.of_reads hc ?_ (header_reads hc 0 (cnt + 1) b)
        rw [opening, if_neg hnl, if_neg hspace, if_pos hbrace]
      rw [if_neg hbrace]
      have heat (g : Handler) (hg : g.errormode = true) : opening sub g c = base g := by
        rw [opening, if_neg hnl, if_neg hspace, if_neg hbrace, if_pos hg]
      by_cases herror : h.errormode = true
      · rw [if_pos herror]
        refine Scans.cons hc (Or.inl rfl) (heat h herror) ?_ (ih hc (cnt + 1))
        rintro g (rfl | rfl)
        · exact heat g herror
        · exact heat _ rfl
      rw [if_neg herror]
      by_cases hdone : h.donemode = true
      · rw [if_pos hdone]
        refine Scans.cons hc (Or.inr rfl) ?_ ?_ (ih hc.error (cnt + 1))
        · rw [opening, if_neg hnl, if_neg hspace, if_neg hbrace, if_neg herror, if_pos hdone]
        · rintro g (rfl | rfl)
          · exact heat _ rfl
          · exact heat _ rfl
      rw [if_neg hdone]
      have hrest : opening sub h c =
          if special c then base (h.hand sub (.char c))
          else if c = QUOTE then base { h with stringmode := true }
          else if ATOMCHAR c then (h, .atom [c] 0)
          else base h.error := by
        rw [opening, if_neg hnl, if_neg hspace, if_neg hbrace, if_neg herror, if_neg hdone]
      by_cases hspecial : special c = true
      · rw [if_pos hspecial]
        exact Scans.one hc (by rw [hrest, if_pos hspecial])
      rw [if_neg hspecial] at hrest ⊢
      by_cases hquote : c = QUOTE
      · rw [if_pos hquote]
        exact Scans.one hc (by rw [hrest, if_pos hquote])
      rw [if_neg hquote] at hrest ⊢
      by_cases hatom : ATOMCHAR c = true
      · rw [if_pos hatom]
        exact Scans.of_reads hc (by rw [hrest, if_pos hatom]) (atom_reads hc [c] 0 (cnt + 1) b)
      · rw [if_neg hatom]
        exact Scans.one hc (by rw [hrest, if_neg hatom])

end Spec

section LiteralSpec
variable {sub : Subclass} {h : Handler}

theorem take_take_append (n : Nat) (a b : Text) :
    (a.take n ++ b).take n = (a ++ b).take n := by
  rw [List.take_append, List.take_append, List.take_take, Nat.min_self, List.length_take]
  congr 2
  omega

theorem literal_cons (hsub : h.Steady sub) (c : UInt8) {b : Text} (hne : b ≠ [])
    (hleft : b.length < h.largestringleft) :
    (literal sub (literal sub h [c]).2 b).2 = (literal sub h (c :: b)).2 ∧
      (literal sub h [c]).2.largestringleft = h.largestringleft - 1 ∧
      (literal sub h [c]).2.uninstalled = h.uninstalled ∧
      (literal sub h [c]).2.stringmode = h.stringmode ∧
      (literal sub h [c]).2.Steady sub := by
  have hpos : 0 < b.length := List.length_pos_iff.2 hne
  have hone : min [c].length h.largestringleft = 1 := by
    rw [List.length_singleton]
    omega
  have hall : min b.length (h.largestringleft - 1) = b.length := by omega
  have hall' : min (c :: b).length h.largestringleft = (c :: b).length := by
    rw [List.length_cons]
    omega
  have hsize : h.largestringleft - 1 ≠ 0 := by omega
  have hsize' : h.largestringleft - 1 - b.length = h.largestringleft - (c :: b).length := by
    rw [List.length_cons]
    omega
  have hone' : [c].take 1 = [c] := rfl
  by_cases hwant : sub.wantLargeString h.tokens h.pieces = true
  · by_cases herror : h.errormode = true
    · have hfirst : (literal sub h [c]).2 =
          { h with largestringleft := h.largestringleft - 1 } := by
        simp only [literal, hone, if_pos hwant, if_pos herror]
      rw [hfirst]
      refine ⟨?_, rfl, rfl, rfl, fun hnone _ => hsub hnone (by omega)⟩
      simp only [literal, hall, hall', hsize', if_pos hwant, if_pos herror]
    · have hpatient := hsub (Bool.eq_false_iff.2 herror) (by omega)
      have hpiece := hpatient h.pieces (h.pieces ++ [c]) hwant
      have hfirst : (literal sub h [c]).2 =
          { h with largestringleft := h.largestringleft - 1, pieces := h.pieces ++ [c] } := by
        simp only [literal, hone, hone', if_pos hwant, if_neg herror, if_neg hsize,
          Handler.handPiece, hpiece.2, Handler.react, Bool.or_false]
      rw [hfirst]
      refine ⟨?_, rfl, rfl, rfl, fun _ _ => hpatient⟩
      simp only [literal, hall, hall', hsize', if_pos hwant, if_pos hpiece.1, if_neg herror,
        List.take_length]
      split
      · simp only [Handler.handString, List.append_assoc, List.singleton_append]
      · simp only [Handler.handPiece, List.append_assoc, List.singleton_append]
  · have hfirst : (literal sub h [c]).2 = { h with
          largestringleft := h.largestringleft - 1
          stringbuffer := (h.stringbuffer ++ [c]).take 8192 } := by
      simp only [literal, hone, hone', if_neg hwant,
        if_neg (fun hand : _ ∧ h.errormode = false => hsize hand.1)]
    rw [hfirst]
    refine ⟨?_, rfl, rfl, rfl, fun hnone _ => hsub hnone (by omega)⟩
    simp only [literal, hall, hall', hsize', if_neg hwant, List.take_length, take_take_append,
      List.append_assoc, List.singleton_append]
    split <;> rfl

theorem feed_literal (hsub : h.Steady sub) (hinstalled : h.uninstalled = false)
    (hstring : h.stringmode = false) {p : Text} (hne : p ≠ [])
    (hp : p.length ≤ h.largestringleft) : feed sub (base h) p = base (literal sub h p).2 := by
  induction p generalizing h with
  | nil => exact absurd rfl hne
  | cons c p ih =>
      rw [List.length_cons] at hp
      have hstep : step sub (base h) c = base (literal sub h [c]).2 := by
        rw [base_of hinstalled hstring, step]
        simp only [if_pos (show h.largestringleft > 0 by omega)]
      rw [feed_cons, hstep]
      by_cases hnil : p = []
      · rw [hnil]
        rfl
      · obtain ⟨hjoin, hleft, hinstalled', hstring', hsub'⟩ :=
          literal_cons (h := h) hsub c hnil (by omega)
        rw [ih hsub' (hinstalled'.trans hinstalled) (hstring'.trans hstring) hnil (by omega),
          hjoin]

theorem literal_reads (hsub : h.Steady sub) (hinstalled : h.uninstalled = false)
    (hstring : h.stringmode = false) (hleft : h.largestringleft > 0) {b : Text} (hb : b ≠ []) :
    0 < (literal sub h b).1 ∧ (literal sub h b).1 ≤ b.length ∧
      feed sub (base h) b =
        feed sub (base (literal sub h b).2) (b.drop (literal sub h b).1) := by
  have hpos : 0 < b.length := List.length_pos_iff.2 hb
  have hcount : (literal sub h b).1 = min b.length h.largestringleft := by
    rw [literal]
    dsimp only
    split
    · split
      · rfl
      · split <;> rfl
    · split <;> rfl
  have hsame : (literal sub h (b.take (min b.length h.largestringleft))).2 =
      (literal sub h b).2 := by
    have hmin : min (b.take (min b.length h.largestringleft)).length h.largestringleft =
        min b.length h.largestringleft := by
      rw [List.length_take]
      omega
    simp only [literal, hmin, List.take_take, Nat.min_self]
  have hfirst : feed sub (base h) (b.take (min b.length h.largestringleft)) =
      base (literal sub h b).2 := by
    rw [← hsame]
    refine feed_literal hsub hinstalled hstring ?_ ?_
    · intro hnil
      have hlength := congrArg List.length hnil
      rw [List.length_take, List.length_nil] at hlength
      omega
    · rw [List.length_take]
      omega
  refine ⟨by omega, by omega, ?_⟩
  rw [hcount, ← hfirst, ← feed_append, List.take_append_drop]

end LiteralSpec

section ProcessSpec
variable {sub : Subclass} {h : Handler}

/-- A call takes bytes, or the buffer holds a token that is not complete. -/
theorem process_reads (hsub : h.Steady sub) (hinstalled : h.uninstalled = false) {b : Text}
    (hb : b ≠ []) :
    (0 < (process sub h b).1 ∧ (process sub h b).1 ≤ b.length ∨
        (process sub h b).1 = 0 ∧ (feed sub (base h) b).2.Incomplete ∧
          (feed sub (base h) b).1.tokens = h.tokens) ∧
      feed sub (base h) b =
        feed sub (base (process sub h b).2) (b.drop (process sub h b).1) := by
  rw [process]
  by_cases hstring : h.stringmode = true
  · have hbase : base h = (h, .quoted []) := by
      rw [base, hinstalled, hstring]
      rfl
    rw [if_pos hstring, hbase]
    rcases @quoted_reads sub h [] 0 b with ⟨hr, hsame, hinside⟩ | ⟨⟨k, hk, hle, hfeed⟩, hpos⟩
    · rw [hr]
      refine ⟨Or.inr ⟨rfl, hinside, by rw [hsame]⟩, ?_⟩
      rw [hbase]
      rfl
    · rw [Nat.zero_add] at hk
      rw [hk] at hpos ⊢
      exact ⟨Or.inl ⟨hpos, hle⟩, hfeed⟩
  · have hstring' : h.stringmode = false := Bool.eq_false_iff.2 hstring
    rw [if_neg hstring]
    by_cases hleft : h.largestringleft > 0
    · rw [if_pos hleft]
      obtain ⟨hpos, hle, hfeed⟩ := literal_reads hsub hinstalled hstring' hleft hb
      exact ⟨Or.inl ⟨hpos, hle⟩, hfeed⟩
    · rw [if_neg hleft]
      have hc : Clean h := ⟨hinstalled, hstring', by omega⟩
      rcases @scan_reads sub h hc 0 b with
        ⟨hnone, hhandler, hsame, hinside, hwaits⟩ | ⟨k, hk, hle, hpos, hfeed⟩
      · have htokens : (scan sub h 0 b).2.tokens = h.tokens := by
          rcases hhandler with heq | heq
          · rw [heq]
          · rw [heq]
            rfl
        rw [hnone]
        exact ⟨Or.inr ⟨rfl, hwaits, by rw [hinside, htokens]⟩, hsame.symm⟩
      · rw [Nat.zero_add] at hk
        rw [hk]
        exact ⟨Or.inl ⟨hpos hb, hle⟩, hfeed⟩

end ProcessSpec
end Cone.ImapHandler
