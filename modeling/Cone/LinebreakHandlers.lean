import Cone.LinebreakSteps

/-! # The line break handlers agree with the rules

The look-ahead of LB25 ends in one of two ways: `NU` follows and everything held back goes out,
or the class held back goes through the default rules first.  Either way the values that have
gone out, and those still owed, are the ones of the whole text. -/
set_option autoImplicit false
namespace Cone.LinebreakHandlers
open Cone.Lib.ReturnCode
open Cone.Linebreak
open Cone.LinebreakNumber
open Cone.LinebreakRules
open Cone.LinebreakSteps
open LbClass

section
variable {A : Type} {cb : Int → A → Int × A} {before more : List LbClass} {i : Info A}
  {cl last : LbClass}

theorem step_of_idle {i' : Info A} {r : Int × Info A} (step : Step cb before i' cl r)
    (arg : i'.cbArg = i.cbArg) (opts : i'.opts = i.opts) (same : ∀ rest, held i' rest = held i rest) :
    Step cb before i cl r := by
  obtain ⟨out, i'', puts, reads, opts', owes⟩ := step
  refine ⟨out, i'', fun a ok => puts a (by rw [arg]; exact ok), reads, opts'.trans opts, ?_⟩
  intro rest
  rw [owes, same, opts]

theorem step_after {i' : Info A} {r : Int × Info A} {next : Info A → Int × Info A}
    {out : List Int} (first : Puts cb i r out i') (idle : i'.nextHandler ≠ .nextLb25Seenophy)
    (opts : i'.opts = i.opts)
    (step : ∀ b, Step cb before { i' with cbArg := b } cl (next { i' with cbArg := b }))
    (owed : ∀ rest, held i (cl :: rest) = out) : Step cb before i cl (andThen r next) := by
  obtain ⟨out', i'', puts, reads, opts', owes⟩ := step (emit cb out i.cbArg).2
  refine ⟨out ++ out', i'', ?_, reads, opts'.trans opts, ?_⟩
  · intro a ok
    obtain ⟨b, before, after⟩ := emit_append_ok ok
    rw [before] at puts
    rw [first b before, andThen_ok]
    exact puts a after
  · intro rest
    have idle' : held { i' with cbArg := (emit cb out i.cbArg).2 } (cl :: rest) = [] :=
      held_idle idle _
    rw [List.append_assoc, owes, idle', owed, List.nil_append, ← opts]

/-! ## Inside a number -/

theorem value_number {opts : BitVec 32} (shape : reduce before = last :: more)
    (num : last = NU ∨ last = SY ∨ last = IS ∨ last = CL ∨ last = CP)
    (goes : cl = NU ∨ cl = SY ∨ cl = IS ∨ cl = CL ∨ cl = CP ∨ cl = PR ∨ cl = PO)
    (inside : ∀ fs, insideNumber (last :: more) (cl :: fs) = true) (rest : List LbClass) :
    value opts before cl rest = lbNone := by
  have plain : base cl = cl := by
    rcases goes with rfl | rfl | rfl | rfl | rfl | rfl | rfl <;> rfl
  have notSp : last ≠ SP := by
    rcases num with rfl | rfl | rfl | rfl | rfl <;> exact LbClass.noConfusion
  rw [value_eq opts cl rest shape, plain, inside, lastNsp_cons, if_pos notSp]
  rcases num with rfl | rfl | rfl | rfl | rfl <;>
    rcases goes with rfl | rfl | rfl | rfl | rfl | rfl | rfl <;> simp [rules, isLineEnd]

theorem value_attached {opts : BitVec 32} (shape : reduce before = last :: more)
    (soft : isHard last = false) (rest : List LbClass) :
    value opts before CM rest = lbNone := by
  have notEnd : isLineEnd last = false := by
    cases h : isLineEnd last with
    | false => rfl
    | true => rw [isHard_of_lineEnd h] at soft; cases soft
  have notSp : last ≠ SP := by rintro rfl; cases soft
  have notZw : last ≠ ZW := by rintro rfl; cases soft
  rw [value_eq opts CM rest shape, lastNsp_cons, if_pos notSp]
  simp [notEnd, notZw, soft, show isLineEnd CM = false from rfl]

theorem reduce_attached (shape : reduce before = last :: more) (soft : isHard last = false) :
    reduce (CM :: before) = reduce before := by
  apply reduce_of_attaches
  rw [attaches_eq CM shape, soft]
  rfl

theorem reduce_plain (shape : reduce before = last :: more) (plain : cl ≠ CM) :
    reduce (cl :: before) = cl :: last :: more := by
  have keep : attaches cl before = false := by
    rw [attaches_eq cl shape]
    simp [plain]
  rw [reduce_of_not_attaches keep, shape, base, if_neg plain]

theorem number_shape (num : number (reduce before) = true) :
    ∃ last more, reduce before = last :: more ∧ (last = NU ∨ last = SY ∨ last = IS) := by
  cases shape : reduce before with
  | nil => rw [shape] at num; cases num
  | cons last more =>
      refine ⟨last, more, rfl, ?_⟩
      rw [shape, number] at num
      simp only [Bool.or_eq_true, Bool.and_eq_true, decide_eq_true_eq] at num
      exact num.imp_right And.left

theorem closed_shape (close : closed (reduce before) = true) :
    ∃ last more, reduce before = last :: more ∧ (last = CL ∨ last = CP) := by
  cases shape : reduce before with
  | nil => rw [shape] at close; cases close
  | cons last more =>
      refine ⟨last, more, rfl, ?_⟩
      rw [shape, closed] at close
      simp only [Bool.or_eq_true, Bool.and_eq_true, decide_eq_true_eq] at close
      exact close.1

theorem step_remember {j : Info A} (idle : i.nextHandler ≠ .nextLb25Seenophy)
    (idle' : j.nextHandler ≠ .nextLb25Seenophy) (arg : j.cbArg = i.cbArg) (opts : j.opts = i.opts)
    (val : ∀ rest, value i.opts before cl rest = lbNone) (reads : Reads (cl :: before) j) :
    Step cb before i cl (report cb j lbNone) := by
  refine ⟨[lbNone], j, puts_report i j lbNone arg, reads, opts, ?_⟩
  intro rest
  rw [held_idle idle, held_idle idle', val]
  rfl

theorem step_nextLb25Seennu (next : i.nextHandler = .nextLb25Seennu) (atEnd : i.endHandler = .endDef)
    (prev : i.prevclass = (reduce before).head?) (nsp : i.prevclassNsp = lastNsp (reduce before))
    (num : number (reduce before) = true) :
    Step cb before i cl (nextLb25Seennu cb i cl) := by
  obtain ⟨last, more, shape, digit⟩ := number_shape num
  have num' : number (last :: more) = true := shape ▸ num
  have idle : i.nextHandler ≠ .nextLb25Seenophy := by rw [next]; exact NextHandler.noConfusion
  have digit' : last = NU ∨ last = SY ∨ last = IS ∨ last = CL ∨ last = CP :=
    digit.imp_right (Or.imp_right .inl)
  unfold nextLb25Seennu
  by_cases more' : cl = NU ∨ cl = SY ∨ cl = IS
  · rw [if_pos more']
    have shape' : reduce (cl :: before) = cl :: last :: more :=
      reduce_plain shape (by rintro rfl; simp at more')
    have goes : cl = NU ∨ cl = SY ∨ cl = IS ∨ cl = CL ∨ cl = CP ∨ cl = PR ∨ cl = PO :=
      more'.imp_right (Or.imp_right .inl)
    refine step_remember idle idle rfl rfl (value_number shape digit' goes ?_) ?_
    · intro fs
      rw [insideNumber_iff]
      rcases more' with rfl | rfl | rfl
      · exact .inl ⟨rfl, .inl num'⟩
      · exact .inr (.inl ⟨.inl rfl, num'⟩)
      · exact .inr (.inl ⟨.inr (.inl rfl), num'⟩)
    · refine .nextLb25Seennu next atEnd (by rw [shape']; rfl) ?_ ?_
      · rw [shape', lastNsp_cons, if_pos (by rintro rfl; simp at more')]
        rfl
      · rw [shape', number, num']
        rcases more' with rfl | rfl | rfl <;> rfl
  rw [if_neg more']
  by_cases cm : cl = CM
  · subst cm
    rw [if_pos rfl]
    have soft : isHard last = false := by rcases digit with rfl | rfl | rfl <;> rfl
    have same := reduce_attached shape soft
    exact step_remember idle idle rfl rfl (value_attached shape soft)
      (.nextLb25Seennu next atEnd (by rw [same]; exact prev) (by rw [same]; exact nsp)
        (by rw [same]; exact num))
  rw [if_neg cm]
  by_cases close : cl = CL ∨ cl = CP
  · rw [if_pos close]
    have shape' := reduce_plain shape cm
    have goes : cl = NU ∨ cl = SY ∨ cl = IS ∨ cl = CL ∨ cl = CP ∨ cl = PR ∨ cl = PO :=
      .inr (.inr (.inr (close.imp_right .inl)))
    refine step_remember idle NextHandler.noConfusion rfl rfl
      (value_number shape digit' goes ?_) ?_
    · intro fs
      rw [insideNumber_iff]
      exact .inr (.inl ⟨.inr (.inr close), num'⟩)
    · refine .nextLb25Seennuclcp rfl rfl (by rw [shape']; rfl) ?_ ?_
      · rw [shape', lastNsp_cons, if_pos (by rintro rfl; simp at close)]
        rfl
      · rw [shape', closed, num']
        rcases close with rfl | rfl <;> rfl
  rw [if_neg close]
  by_cases unit : cl = PR ∨ cl = PO
  · simp only [if_pos unit]
    have shape' := reduce_plain shape cm
    refine step_remember idle NextHandler.noConfusion rfl rfl
      (value_number shape digit' (.inr (.inr (.inr (.inr (.inr unit))))) ?_) ?_
    · intro fs
      rw [insideNumber_iff]
      exact .inr (.inr (.inl ⟨unit, .inl num'⟩))
    · refine .nextDef rfl rfl (by rw [shape']; rfl) ?_ ?_ ?_
      · rw [shape', lastNsp_cons, if_pos (by rintro rfl; simp at unit)]
        rfl
      · rw [shape']
        rcases unit with rfl | rfl <;> rfl
      · rw [shape']
        rcases unit with rfl | rfl <;> rfl
  simp only [if_neg unit]
  have out : cl ∉ [NU, SY, IS, CL, CP, PR, PO, CM] := by
    intro h
    simp only [List.mem_cons, List.not_mem_nil, or_false] at h
    rcases h with h | h | h | h | h | h | h | h
    · exact more' (.inl h)
    · exact more' (.inr (.inl h))
    · exact more' (.inr (.inr h))
    · exact close (.inl h)
    · exact close (.inr h)
    · exact unit (.inl h)
    · exact unit (.inr h)
    · exact cm h
  have out' : cl ∉ [PR, PO, CM] := fun h => out (by simp at h ⊢; tauto)
  have ready : Ready before { i with nextHandler := .nextDef, endHandler := .endDef } cl :=
    { next := rfl, atEnd := rfl, last := prev, nsp := nsp
      quiet := { num := fun _ => out, close := fun _ => out' } }
  refine step_of_idle (step_nextDef ready) rfl rfl fun rest => ?_
  rw [held_idle idle, held_idle NextHandler.noConfusion]

theorem step_nextLb25Seennuclcp (next : i.nextHandler = .nextLb25Seennuclcp)
    (atEnd : i.endHandler = .endDef) (prev : i.prevclass = (reduce before).head?)
    (nsp : i.prevclassNsp = lastNsp (reduce before)) (close : closed (reduce before) = true) :
    Step cb before i cl (nextLb25Seennuclcp cb i cl) := by
  obtain ⟨last, more, shape, bracket⟩ := closed_shape close
  have close' : closed (last :: more) = true := shape ▸ close
  have idle : i.nextHandler ≠ .nextLb25Seenophy := by rw [next]; exact NextHandler.noConfusion
  unfold nextLb25Seennuclcp
  by_cases cm : cl = CM
  · subst cm
    rw [if_pos rfl]
    have soft : isHard last = false := by rcases bracket with rfl | rfl <;> rfl
    have same := reduce_attached shape soft
    exact step_remember idle idle rfl rfl (value_attached shape soft)
      (.nextLb25Seennuclcp next atEnd (by rw [same]; exact prev) (by rw [same]; exact nsp)
        (by rw [same]; exact close))
  rw [if_neg cm]
  by_cases unit : cl = PR ∨ cl = PO
  · simp only [if_pos unit]
    have shape' := reduce_plain shape cm
    refine step_remember idle NextHandler.noConfusion rfl rfl
      (value_number shape (.inr (.inr (.inr bracket))) (.inr (.inr (.inr (.inr (.inr unit))))) ?_)
      ?_
    · intro fs
      rw [insideNumber_iff]
      exact .inr (.inr (.inl ⟨unit, .inr close'⟩))
    · refine .nextDef rfl rfl (by rw [shape']; rfl) ?_ ?_ ?_
      · rw [shape', lastNsp_cons, if_pos (by rintro rfl; simp at unit)]
        rfl
      · rw [shape']
        rcases unit with rfl | rfl <;> rfl
      · rw [shape']
        rcases unit with rfl | rfl <;> rfl
  simp only [if_neg unit]
  have notNum : number (reduce before) = false := by
    rw [shape]
    rcases bracket with rfl | rfl <;> rfl
  have ready : Ready before { i with nextHandler := .nextDef, endHandler := .endDef } cl :=
    { next := rfl, atEnd := rfl, last := prev, nsp := nsp
      quiet :=
        { num := fun h => by rw [notNum] at h; cases h
          close := fun _ => by
            simp only [List.mem_cons, List.not_mem_nil, or_false]
            rintro (h | h | h)
            · exact unit (.inl h)
            · exact unit (.inr h)
            · exact cm h } }
  refine step_of_idle (step_nextDef ready) rfl rfl fun rest => ?_
  rw [held_idle idle, held_idle NextHandler.noConfusion]

/-! ## After `(PR | PO) OP` -/

theorem nextDefNolb25_saved (i : Info A) {p : LbClass} (lead : p = PR ∨ p = PO) (prev : i.prevclass = some p)
    (nsp : i.prevclassNsp = some p) :
    nextDefNolb25 cb i OP true = report cb (arrive i OP) lbAllowed := by
  have none := lb11to24_unit i.opts lead
  have allowed := lb25to31_unit lead
  rw [nextDefNolb25_some true prev fun _ => nsp, nsp]
  rcases lead with rfl | rfl <;>
    simp [fromLb11, nsp, none, allowed, base, isLineEnd]

theorem nextDefNolb25_again (prev : i.prevclass = some OP) (nsp : i.prevclassNsp = some OP)
    (next : i.nextHandler = .nextDef) :
    nextDefNolb25 cb i OP false = report cb i lbNone := by
  have again : arrive i OP = i := by
    cases i
    simp_all [arrive]
  have rule : lb11to24 i.opts OP (some OP) OP = some lbNone := by simp [lb11to24]
  rw [nextDefNolb25_some false prev fun _ => nsp, nsp]
  simp [fromLb11, nsp, rule, base, isLineEnd, again]

theorem puts_unwindMarks (n : Nat) (i j : Info A) (arg : j.cbArg = i.cbArg)
    (saved : j.savedclass = OP) (prev : j.prevclass = some OP) (nsp : j.prevclassNsp = some OP)
    (next : j.nextHandler = .nextDef) :
    Puts cb i (unwindMarks cb n j) (List.replicate n lbNone) j := by
  induction n generalizing i j with
  | zero => exact puts_nil i j arg
  | succ n ih =>
      rw [unwindMarks, saved, nextDefNolb25_again prev nsp next, List.replicate_succ]
      exact (puts_report i j lbNone arg).andThen fun a => ih _ _ rfl saved prev nsp next

/-- The state after `OP` has gone through the default rules. -/
def unwound (i : Info A) : Info A :=
  arrive { i with nextHandler := .nextDef, endHandler := .endDef } OP

theorem puts_unwind {p : LbClass} (lead : p = PR ∨ p = PO) (saved : i.savedclass = OP)
    (prev : i.prevclass = some p) (nsp : i.prevclassNsp = some p) :
    Puts cb i (unwindLb25Seenophy cb i) (lbAllowed :: List.replicate i.savedcmcnt lbNone)
      (unwound i) := by
  have first : nextDefNolb25 cb { i with nextHandler := .nextDef, endHandler := .endDef }
      i.savedclass true = report cb (unwound i) lbAllowed :=
    (congrArg (fun uclass => nextDefNolb25 cb _ uclass true) saved).trans
      (nextDefNolb25_saved _ lead prev nsp)
  unfold unwindLb25Seenophy
  simp only [first]
  exact (puts_report i (unwound i) lbAllowed rfl).andThen fun a =>
    puts_unwindMarks _ _ _ rfl saved rfl rfl rfl

theorem step_nextLb25Seenophy {p : LbClass} (next : i.nextHandler = .nextLb25Seenophy)
    (atEnd : i.endHandler = .endLb25Seenophy) (lead : p = PR ∨ p = PO)
    (shape : reduce before = OP :: p :: more) (saved : i.savedclass = OP)
    (prev : i.prevclass = some p) (nsp : i.prevclassNsp = some p) :
    Step cb before i cl (nextLb25Seenophy cb i cl) := by
  have owed : ∀ rest, held i rest = heldValue rest :: List.replicate i.savedcmcnt lbNone := by
    intro rest
    rw [held, next]
  have soft : isHard OP = false := rfl
  unfold nextLb25Seenophy
  by_cases cm : cl = CM
  · subst cm
    rw [if_pos rfl]
    refine ⟨[], _, puts_nil i _ rfl, .nextLb25Seenophy next atEnd lead
      ((reduce_attached shape soft).trans shape) saved prev nsp, rfl, ?_⟩
    intro rest
    have later : heldValue (CM :: rest) = heldValue rest := by
      rw [heldValue, heldValue, reduceAfter, if_pos (show attaches CM [OP] = true from rfl),
        reduceAfter_soft (show isHard CM = false from rfl) soft]
    rw [owed, value_attached shape soft, later]
    simp [held, next, List.replicate_succ']
  rw [if_neg cm]
  have here : ∀ rest, (reduceAfter OP (cl :: rest)).head? = some cl := by
    intro rest
    rw [reduceAfter, if_neg (by simp [attaches, cm]), base, if_neg cm]
    rfl
  by_cases nu : cl = NU
  · -- the number begins: everything held back is inside it
    subst nu
    rw [if_neg (not_not_intro rfl)]
    have shape' := reduce_plain shape cm
    refine ⟨List.replicate (i.savedcmcnt + 1) lbNone ++ [lbNone],
      remember { i with nextHandler := .nextLb25Seennu, endHandler := .endDef } NU,
      (puts_reportNones _ i i rfl).andThen fun a => puts_report _ _ lbNone rfl,
      .nextLb25Seennu rfl rfl (by rw [shape']; rfl) ?_ ?_, rfl, ?_⟩
    · rw [shape']
      rfl
    · rw [shape']
      rfl
    · intro rest
      have after : value i.opts before NU rest = lbNone := by
        rw [value_eq i.opts NU rest shape, show lastNsp (OP :: p :: more) = some OP from rfl]
        simp [rules, base, isLineEnd]
      rw [owed, after, heldValue, here, if_pos rfl, held_idle NextHandler.noConfusion,
        List.append_nil, List.replicate_succ]
  · rw [if_pos nu]
    have ready : Ready before (unwound i) cl :=
      { next := rfl, atEnd := rfl
        last := by rw [shape]; rfl
        nsp := by rw [shape]; rfl
        quiet := by
          rw [shape]
          exact quiet_of_idle rfl rfl cl }
    refine step_after (puts_unwind lead saved prev nsp) NextHandler.noConfusion rfl
      (fun b => step_nextDef ⟨ready.next, ready.atEnd, ready.last, ready.nsp, ready.quiet⟩) ?_
    intro rest
    rw [owed, heldValue, here, if_neg (fun h => nu (Option.some.inj h))]

theorem step_next (reads : Reads before i) : Step cb before i cl (nextHandler cb i cl) := by
  unfold nextHandler
  cases reads with
  | nextDef next atEnd last nsp num close =>
      rw [next]
      exact step_nextDef ⟨next, atEnd, last, nsp, quiet_of_idle num close cl⟩
  | nextLb25Seenophy next atEnd lead shape saved last nsp =>
      rw [next]
      exact step_nextLb25Seenophy next atEnd lead shape saved last nsp
  | nextLb25Seennu next atEnd last nsp num =>
      rw [next]
      exact step_nextLb25Seennu next atEnd last nsp num
  | nextLb25Seennuclcp next atEnd last nsp close =>
      rw [next]
      exact step_nextLb25Seennuclcp next atEnd last nsp close

theorem puts_lbEnd (reads : Reads before i) :
    ∃ i', Puts cb i (lbEnd cb i) (held i []) i' := by
  unfold lbEnd
  cases reads with
  | nextDef next atEnd last nsp num close =>
      rw [atEnd, held, next]
      exact ⟨i, puts_nil i i rfl⟩
  | nextLb25Seenophy next atEnd lead shape saved last nsp =>
      rw [atEnd, held, next]
      exact ⟨unwound i, puts_unwind lead saved last nsp⟩
  | nextLb25Seennu next atEnd last nsp num =>
      rw [atEnd, held, next]
      exact ⟨i, puts_nil i i rfl⟩
  | nextLb25Seennuclcp next atEnd last nsp close =>
      rw [atEnd, held, next]
      exact ⟨i, puts_nil i i rfl⟩

end

end Cone.LinebreakHandlers
