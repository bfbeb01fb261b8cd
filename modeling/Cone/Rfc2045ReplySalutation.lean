import Cone.Rfc822Parsedt

/-! # The salutation of a reply (`rfc2045/rfc2045reply.c`)

`mksalutation` expands a template twice, to count and to save.  The conversion of a time to text is
a parameter, and memory is not short. -/
set_option autoImplicit false
namespace Cone.Rfc2045ReplySalutation

open Cone.Ctype Cone.Rfc822Parsedt

def percent : UInt8 := 0x25
def leftBrace : UInt8 := 0x7b
def rightBrace : UInt8 := 0x7d

structure Fields where
  newsgroup : List UInt8
  messageId : List UInt8
  newsgroups : List UInt8
  senderAddr : List UInt8
  senderName : List UInt8
  date : List UInt8
  subject : List UInt8

/-- `localtime_r`, and what `strftime` leaves in a buffer of 1023 characters. -/
structure Clock (Tm : Type) where
  localtime : Int → Option Tm
  strftime : List UInt8 → Tm → List UInt8

/-- A character after the terminating zero is looked at, or a store outside the buffer. -/
inductive Fault where
  | overrun
  | full
  deriving DecidableEq, Repr

section Expand
variable {Tm : Type} (k : Clock Tm) (f : Fields)

def datefmt (fmt : Option (List UInt8)) : List UInt8 :=
  let fmt := fmt.getD (str "%a, %d %b %Y %H:%M:%S %z")
  let t := parsedt f.date
  if t ≠ 0 then
    match k.localtime t with
    | some tm => k.strftime fmt tm
    | none => f.date
  else f.date

/-- The `switch` over the conversion character. -/
def expand (fmt : Option (List UInt8)) (c : UInt8) : List UInt8 :=
  if c = byte 'n' then [byte '\n']
  else if c = byte 'C' then f.newsgroup
  else if c = byte 'i' then f.messageId
  else if c = byte 'N' then f.newsgroups
  else if c = byte 'f' then f.senderAddr
  else if c = byte 'F' then f.senderName
  else if c = byte 'd' then datefmt k f fmt
  else if c = byte 's' then f.subject
  else [c]

/-- The search for the closing brace: `fmt_end`, and where it leaves `p`. -/
def braceLoop : Nat → List UInt8 → Option (Option (List UInt8) × List UInt8)
  | 0, _ => none
  | _ + 1, [] => some (none, [])
  | fuel + 1, c :: p => if c = rightBrace then some (some (c :: p), p) else braceLoop fuel (c :: p)

variable {S : Type} (callback : List UInt8 → S → Except Fault S)

/-- The `p++` of the outer loop; at the end of the template it goes beyond the zero. -/
def advance (p : List UInt8) (s : S) : Except Fault (List UInt8 × S) :=
  match p with
  | [] => .error .overrun
  | _ :: p => .ok (p, s)

/-- The rest of the round from the `switch` on, which sees a zero at the end of the template. -/
def convert (fmt : Option (List UInt8)) (p : List UInt8) (s : S) : Except Fault (List UInt8 × S) :=
  match callback (expand k f fmt (p.headD 0)) s with
  | .error e => .error e
  | .ok s => advance p s

/-- One round of `mksalutation_cb`, at the character `c`. -/
def cbRound (fuel : Nat) (c : UInt8) (p : List UInt8) (s : S) :
    Option (Except Fault (List UInt8 × S)) :=
  if c ≠ percent ∨ p = [] then some ((callback [c] s).map fun s => (p, s))
  else if p.head? = some leftBrace then
    let fmtStart := p.tail
    match braceLoop fuel fmtStart with
    | none => none
    | some (none, p) => some (advance p s)
    | some (some fmtEnd, p) =>
      some (convert k f callback (some (fmtStart.take (fmtStart.length - fmtEnd.length))) p s)
  else some (convert k f callback none p s)

def mksalutationCb : Nat → List UInt8 → S → Option (Except Fault S)
  | 0, _, _ => none
  | _ + 1, [], s => some (.ok s)
  | fuel + 1, c :: p, s =>
    match cbRound k f callback fuel c p s with
    | none => none
    | some (.error e) => some (.error e)
    | some (.ok (p, s)) => mksalutationCb fuel p s

end Expand

def mksalCount (str : List UInt8) (cnt : Nat) : Except Fault Nat := .ok (cnt + str.length)

def mksalSave (cnt : Nat) (str : List UInt8) (saved : List UInt8) : Except Fault (List UInt8) :=
  if saved.length + str.length ≤ cnt then .ok (saved ++ str) else .error .full

section Salutation
variable {Tm : Type} (k : Clock Tm) (f : Fields)

def mksalutation (fuel : Nat) (template : List UInt8) : Option (Except Fault (List UInt8)) :=
  match mksalutationCb k f mksalCount fuel template 1 with
  | none => none
  | some (.error e) => some (.error e)
  | some (.ok cnt) =>
    match mksalutationCb k f (mksalSave cnt) fuel template [] with
    | none => none
    | some (.error e) => some (.error e)
    | some (.ok saved) => some (mksalSave cnt [0] saved)

end Salutation

/-! ## Templates -/

inductive Piece where
  | char (c : UInt8)
  | convert (fmt : Option (List UInt8)) (c : UInt8)
  deriving DecidableEq, Repr

inductive Template : List UInt8 → List Piece → Prop
  | nil : Template [] []
  | last : Template [percent] [.char percent]
  | char (c : UInt8) (t : List UInt8) (ps : List Piece) (plain : c ≠ percent)
      (rest : Template t ps) : Template (c :: t) (.char c :: ps)
  | convert (c : UInt8) (t : List UInt8) (ps : List Piece) (other : c ≠ leftBrace)
      (rest : Template t ps) : Template (percent :: c :: t) (.convert none c :: ps)
  | braces (fmt : List UInt8) (c : UInt8) (t : List UInt8) (ps : List Piece)
      (closed : rightBrace ∉ fmt) (rest : Template t ps) :
      Template (percent :: leftBrace :: (fmt ++ rightBrace :: c :: t))
        (.convert (some fmt) c :: ps)

/-- Nothing stands between braces. -/
def NoFormat (ps : List Piece) : Prop := ∀ fmt c, Piece.convert (some fmt) c ∈ ps → fmt = []

section Meaning
variable {Tm : Type} (k : Clock Tm) (f : Fields)

def meaning : Piece → List UInt8
  | .char c => [c]
  | .convert fmt c => expand k f fmt c

/-- Both runs come to their end inside the template, the second one fills the buffer that the first
one counted, and what it saves is what the pieces of the template stand for. -/
def Fills (template : List UInt8) : Prop :=
  ∃ fuel cnt buf, mksalutationCb k f mksalCount fuel template 1 = some (.ok cnt) ∧
    mksalutation k f fuel template = some (.ok buf) ∧ buf.length = cnt ∧
    ∀ ps, Template template ps → buf = ps.flatMap (meaning k f) ++ [0]

end Meaning

theorem NoFormat.tail {p : Piece} {ps : List Piece} (h : NoFormat (p :: ps)) : NoFormat ps :=
  fun fmt c hc => h fmt c (List.mem_cons_of_mem _ hc)

theorem NoFormat.cons {p : Piece} {ps : List Piece} (first : ∀ fmt c, p = .convert (some fmt) c → fmt = [])
    (h : NoFormat ps) : NoFormat (p :: ps) := by
  intro fmt c hc
  rcases List.mem_cons.mp hc with same | hc
  · exact first fmt c same.symm
  · exact h fmt c hc

theorem Template.of_brace {t : List UInt8} {ps : List Piece}
    (h : Template (percent :: leftBrace :: t) ps) :
    ∃ fmt c t' ps', t = fmt ++ rightBrace :: c :: t' ∧ ps = .convert (some fmt) c :: ps' ∧
      rightBrace ∉ fmt ∧ Template t' ps' := by
  cases h with
  | char _ _ _ plain => exact absurd rfl plain
  | convert _ _ _ other => exact absurd rfl other
  | braces fmt c t ps closed rest => exact ⟨fmt, c, t, ps, rfl, rfl, closed, rest⟩

theorem Template.unique {t : List UInt8} {ps ps' : List Piece} (h : Template t ps)
    (none : NoFormat ps) (h' : Template t ps') : ps' = ps := by
  induction h generalizing ps' with
  | nil => cases h'; rfl
  | last =>
      cases h' with
      | last => rfl
      | char _ _ _ plain => exact absurd rfl plain
  | char c t ps plain rest ih =>
      cases h' with
      | last => exact absurd rfl plain
      | char _ _ ps' _ rest' => rw [ih none.tail rest']
      | convert => exact absurd rfl plain
      | braces => exact absurd rfl plain
  | convert c t ps other rest ih =>
      cases h' with
      | char _ _ _ plain => exact absurd rfl plain
      | convert _ _ ps' _ rest' => rw [ih none.tail rest']
      | braces => exact absurd rfl other
  | braces fmt c t ps closed rest ih =>
      obtain rfl := none fmt c (List.mem_cons_self ..)
      obtain ⟨fmt', c', t', ps'', split, rfl, closed', rest'⟩ := h'.of_brace
      cases fmt' with
      | nil =>
          obtain ⟨rfl, rfl⟩ := List.cons.inj (List.cons.inj split).2
          rw [ih none.tail rest']
      | cons d fmt' =>
          have first := (List.cons.inj split).1
          exact absurd (first ▸ List.mem_cons_self ..) closed'

/-! ## The runs -/

section Runs
variable {Tm S : Type} {k : Clock Tm} {f : Fields} {callback : List UInt8 → S → Except Fault S}

theorem braceLoop_stuck {c : UInt8} (other : c ≠ rightBrace) (fuel : Nat) (p : List UInt8) :
    braceLoop fuel (c :: p) = none := by
  induction fuel with
  | zero => rfl
  | succ fuel ih => rw [braceLoop, if_neg other, ih]

theorem braceLoop_here (fuel : Nat) (p : List UInt8) :
    braceLoop (fuel + 1) (rightBrace :: p) = some (some (rightBrace :: p), p) := by
  rw [braceLoop, if_pos rfl]

theorem convert_cons (fmt : Option (List UInt8)) (c : UInt8) (t : List UInt8) (s : S) :
    convert k f callback fmt (c :: t) s =
      (callback (meaning k f (.convert fmt c)) s).map fun s => (t, s) := by
  rw [convert, List.headD_cons, meaning]
  cases callback (expand k f fmt c) s <;> rfl

theorem round_char {c : UInt8} {t : List UInt8} (plain : c ≠ percent ∨ t = []) (fuel : Nat) (s : S) :
    cbRound k f callback fuel c t s =
      some ((callback (meaning k f (.char c)) s).map fun s => (t, s)) := by
  rw [cbRound, if_pos plain]
  rfl

theorem round_convert {c : UInt8} (other : c ≠ leftBrace) (fuel : Nat) (t : List UInt8) (s : S) :
    cbRound k f callback fuel percent (c :: t) s =
      some ((callback (meaning k f (.convert none c)) s).map fun s => (t, s)) := by
  have more : ¬ (percent ≠ percent ∨ c :: t = []) := by simp
  rw [cbRound, if_neg more, if_neg (by simpa using other), convert_cons]

theorem round_braces (fuel : Nat) (c : UInt8) (t : List UInt8) (s : S) :
    cbRound k f callback (fuel + 1) percent (leftBrace :: rightBrace :: c :: t) s =
      some ((callback (meaning k f (.convert (some []) c)) s).map fun s => (t, s)) := by
  have more : ¬ (percent ≠ percent ∨ leftBrace :: rightBrace :: c :: t = []) := by simp
  have brace : (leftBrace :: rightBrace :: c :: t).head? = some leftBrace := rfl
  rw [cbRound, if_neg more, if_pos brace]
  simp only [List.tail_cons, braceLoop_here, Nat.sub_self, List.take_zero]
  rw [convert_cons]

theorem run_cons {fuel : Nat} {c : UInt8} {t rest : List UInt8} {piece : Piece} {s : S}
    (round : cbRound k f callback fuel c t s =
      some ((callback (meaning k f piece) s).map fun s => (rest, s))) :
    mksalutationCb k f callback (fuel + 1) (c :: t) s =
      match callback (meaning k f piece) s with
      | .error e => some (.error e)
      | .ok s => mksalutationCb k f callback fuel rest s := by
  rw [mksalutationCb, round]
  cases callback (meaning k f piece) s <;> rfl

theorem run_of_template {t : List UInt8} {ps : List Piece} (h : Template t ps) (none : NoFormat ps)
    {fuel : Nat} (enough : t.length < fuel) (s : S) :
    mksalutationCb k f callback fuel t s =
      some (ps.foldlM (fun s p => callback (meaning k f p) s) s) := by
  have step : ∀ {fuel c t rest} {piece : Piece} {ps : List Piece} {s : S},
      cbRound k f callback fuel c t s =
        some ((callback (meaning k f piece) s).map fun s => (rest, s)) →
      (∀ s, mksalutationCb k f callback fuel rest s =
        some (ps.foldlM (fun s p => callback (meaning k f p) s) s)) →
      mksalutationCb k f callback (fuel + 1) (c :: t) s =
        some ((piece :: ps).foldlM (fun s p => callback (meaning k f p) s) s) := by
    intro fuel c t rest piece ps s round later
    rw [run_cons round, List.foldlM_cons]
    cases callback (meaning k f piece) s with
    | error e => rfl
    | ok s => exact later s
  induction h generalizing fuel s with
  | nil =>
      obtain ⟨fuel, rfl⟩ := Nat.exists_eq_succ_of_ne_zero (Nat.ne_of_gt enough)
      rfl
  | last =>
      obtain ⟨fuel, rfl⟩ := Nat.exists_eq_succ_of_ne_zero (Nat.ne_of_gt (Nat.zero_lt_of_lt enough))
      obtain ⟨fuel, rfl⟩ := Nat.exists_eq_succ_of_ne_zero
        (Nat.ne_of_gt (Nat.lt_of_succ_lt_succ enough))
      exact step (round_char (Or.inr rfl) _ s) fun s => rfl
  | char c t ps plain rest ih =>
      obtain ⟨fuel, rfl⟩ := Nat.exists_eq_succ_of_ne_zero (Nat.ne_of_gt (Nat.zero_lt_of_lt enough))
      exact step (round_char (Or.inl plain) _ s) (ih none.tail (Nat.lt_of_succ_lt_succ enough))
  | convert c t ps other rest ih =>
      obtain ⟨fuel, rfl⟩ := Nat.exists_eq_succ_of_ne_zero (Nat.ne_of_gt (Nat.zero_lt_of_lt enough))
      refine step (round_convert other _ t s) (ih none.tail ?_)
      simp only [List.length_cons] at enough
      omega
  | braces fmt c t ps closed rest ih =>
      obtain rfl := none fmt c (List.mem_cons_self ..)
      simp only [List.length_cons, List.nil_append] at enough
      obtain ⟨fuel, rfl⟩ : ∃ n, fuel = n + 2 := ⟨fuel - 2, by omega⟩
      exact step (round_braces _ c t s) (ih none.tail (by omega))

theorem piece_of_round {fuel : Nat} {c : UInt8} {t rest : List UInt8} {s s' : S}
    (round : cbRound k f callback fuel c t s = some (.ok (rest, s'))) :
    ∃ piece, (∀ fmt c, piece = .convert (some fmt) c → fmt = []) ∧
      ∀ ps, Template rest ps → Template (c :: t) (piece :: ps) := by
  rw [cbRound] at round
  by_cases plain : c ≠ percent ∨ t = []
  · rw [if_pos plain] at round
    have same : rest = t := by
      cases called : callback [c] s with
      | error e => rw [called] at round; cases round
      | ok s => rw [called] at round; cases round; rfl
    refine ⟨.char c, nofun, fun ps h => ?_⟩
    subst same
    by_cases other : c ≠ percent
    · exact .char c rest ps other h
    · obtain rfl := not_not.mp other
      obtain rfl := plain.resolve_left other
      cases h
      exact .last
  · rw [if_neg plain] at round
    obtain ⟨isPercent, more⟩ := not_or.mp plain
    obtain rfl := not_not.mp isPercent
    have taken : ∀ {fmt p}, convert k f callback fmt p s = .ok (rest, s') → ∃ d, p = d :: rest := by
      intro fmt p h
      rw [convert] at h
      cases called : callback (expand k f fmt (p.headD 0)) s with
      | error e => rw [called] at h; cases h
      | ok s =>
          rw [called] at h
          cases p with
          | nil => cases h
          | cons d p => cases h; exact ⟨d, rfl⟩
    by_cases brace : t.head? = some leftBrace
    · rw [if_pos brace] at round
      obtain ⟨t, rfl⟩ : ∃ t', t = leftBrace :: t' := by
        cases t with
        | nil => cases brace
        | cons d t => exact ⟨t, by rw [Option.some.inj brace]⟩
      simp only [List.tail_cons] at round
      cases t with
      | nil =>
          cases fuel with
          | zero => cases round
          | succ fuel => cases round
      | cons d t =>
          by_cases closing : d = rightBrace
          · subst closing
            cases fuel with
            | zero => cases round
            | succ fuel =>
                rw [braceLoop_here] at round
                obtain ⟨e, rfl⟩ := taken (Option.some.inj round)
                refine ⟨.convert (some []) e, ?_, fun ps h => ?_⟩
                · rintro fmt c ⟨⟩
                  rfl
                · exact Template.braces [] e rest ps List.not_mem_nil h
          · rw [braceLoop_stuck closing] at round
            cases round
    · rw [if_neg brace] at round
      obtain ⟨d, rfl⟩ := taken (Option.some.inj round)
      refine ⟨.convert none d, nofun, fun ps h => ?_⟩
      exact Template.convert d rest ps (fun same => brace (by rw [same]; rfl)) h

theorem template_of_run {fuel : Nat} {t : List UInt8} {s s' : S}
    (run : mksalutationCb k f callback fuel t s = some (.ok s')) :
    ∃ ps, Template t ps ∧ NoFormat ps := by
  induction fuel generalizing t s with
  | zero => cases run
  | succ fuel ih =>
      cases t with
      | nil => exact ⟨[], .nil, nofun⟩
      | cons c t =>
          rw [mksalutationCb] at run
          cases round : cbRound k f callback fuel c t s with
          | none => rw [round] at run; cases run
          | some r =>
              rw [round] at run
              cases r with
              | error e => cases run
              | ok r =>
                  obtain ⟨piece, first, extend⟩ := piece_of_round round
                  obtain ⟨ps, template, none⟩ := ih run
                  exact ⟨piece :: ps, extend ps template, none.cons first⟩

end Runs

/-! ## Counting and saving -/

section Salutation
variable {Tm : Type} (k : Clock Tm) (f : Fields)

theorem count_pieces (ps : List Piece) (cnt : Nat) :
    ps.foldlM (fun s p => mksalCount (meaning k f p) s) cnt =
      .ok (cnt + (ps.flatMap (meaning k f)).length) := by
  induction ps generalizing cnt with
  | nil => rfl
  | cons p ps ih =>
      rw [List.foldlM_cons, mksalCount]
      refine (ih _).trans ?_
      rw [List.flatMap_cons, List.length_append, Nat.add_assoc]

theorem save_pieces {ps : List Piece} {cnt : Nat} {saved : List UInt8}
    (room : saved.length + (ps.flatMap (meaning k f)).length ≤ cnt) :
    ps.foldlM (fun s p => mksalSave cnt (meaning k f p) s) saved =
      .ok (saved ++ ps.flatMap (meaning k f)) := by
  induction ps generalizing saved with
  | nil => rw [List.flatMap_nil, List.append_nil]; rfl
  | cons p ps ih =>
      rw [List.flatMap_cons, List.length_append] at room
      rw [List.foldlM_cons, mksalSave, if_pos (by omega)]
      refine (ih ?_).trans ?_
      · rw [List.length_append]
        omega
      · rw [List.flatMap_cons, List.append_assoc]

/-- The salutation comes out as it should if and only if every format is empty. -/
theorem fills_iff (template : List UInt8) :
    Fills k f template ↔ ∃ ps, Template template ps ∧ NoFormat ps := by
  constructor
  · rintro ⟨fuel, cnt, buf, count, -⟩
    exact template_of_run count
  · rintro ⟨ps, h, none⟩
    have enough := Nat.lt_succ_self template.length
    have count : mksalutationCb k f mksalCount (template.length + 1) template 1 = _ :=
      run_of_template h none enough 1
    rw [count_pieces] at count
    have save : mksalutationCb k f (mksalSave (1 + (ps.flatMap (meaning k f)).length))
        (template.length + 1) template [] = _ := run_of_template h none enough []
    rw [save_pieces k f (by rw [List.length_nil]; omega), List.nil_append] at save
    refine ⟨_, _, ps.flatMap (meaning k f) ++ [0], count, ?_, ?_, fun ps' h' => ?_⟩
    · rw [mksalutation, count]
      simp only [save]
      rw [mksalSave, if_pos (by rw [List.length_singleton]; omega)]
    · rw [List.length_append, List.length_singleton, Nat.add_comm]
    · rw [h.unique none h']

end Salutation

def noClock : Clock Unit := ⟨fun _ => none, fun fmt _ => fmt⟩

def noFields : Fields := ⟨[], [], [], [], [], [], []⟩

/-- A format makes the search for its brace go on for ever, and a brace at the end of the template
leads beyond it, whether it is an opening or a closing one. -/
theorem format_hangs :
    ¬ Fills noClock noFields [percent, leftBrace, byte 'a', rightBrace, byte 'd'] ∧
    (∀ fuel, mksalutationCb noClock noFields mksalCount fuel
      [percent, leftBrace, byte 'a', rightBrace, byte 'd'] 1 = none) ∧
    mksalutationCb noClock noFields mksalCount 2 [percent, leftBrace] 1 = some (.error .overrun) ∧
    mksalutationCb noClock noFields mksalCount 2 [percent, leftBrace, rightBrace] 1 =
      some (.error .overrun) := by
  have hangs : ∀ fuel, mksalutationCb noClock noFields mksalCount fuel
      [percent, leftBrace, byte 'a', rightBrace, byte 'd'] 1 = none := by
    intro fuel
    cases fuel with
    | zero => rfl
    | succ fuel =>
        have other : byte 'a' ≠ rightBrace := by decide
        have stuck := braceLoop_stuck other fuel [rightBrace, byte 'd']
        have brace : [leftBrace, byte 'a', rightBrace, byte 'd'].head? = some leftBrace := rfl
        rw [mksalutationCb, cbRound, if_neg (by decide), if_pos brace]
        simp only [List.tail_cons, stuck]
  refine ⟨?_, hangs, rfl, rfl⟩
  rintro ⟨fuel, cnt, buf, count, -⟩
  rw [hangs fuel] at count
  cases count

end Cone.Rfc2045ReplySalutation
