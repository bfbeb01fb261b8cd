import Cone.LinebreakRules

/-! # What the line break handlers report

One call of a handler reports values the callback may refuse, so a call is described by the
values it reports when none is refused (`Puts`), and by what it then still holds back. -/
set_option autoImplicit false
namespace Cone.LinebreakSteps
open Cone.Lib.ReturnCode
open Cone.Linebreak
open Cone.LinebreakNumber
open Cone.LinebreakRules
open LbClass

/-! ## Reports -/

section Reports
variable {A : Type} (cb : Int → A → Int × A)

/-- The callback on one value after the other, until it refuses one. -/
def emit : List Int → A → Int × A
  | [], a => (0, a)
  | x :: xs, a => andThen (cb x a) (emit xs)

/-- The call `r` on `i` reports `out` and ends in `i'`, when nothing is refused. -/
def Puts (i : Info A) (r : Int × Info A) (out : List Int) (i' : Info A) : Prop :=
  ∀ a, emit cb out i.cbArg = (0, a) → r = (0, { i' with cbArg := a })

variable {cb}

theorem emit_cons_ok {x : Int} {xs : List Int} {a a' : A}
    (ok : emit cb (x :: xs) a = (0, a')) :
    ∃ b, cb x a = (0, b) ∧ emit cb xs b = (0, a') := by
  rw [emit, andThen] at ok
  by_cases first : (cb x a).1 = 0
  · rw [if_neg (not_not_intro first)] at ok
    exact ⟨(cb x a).2, Prod.ext first rfl, ok⟩
  · rw [if_pos first] at ok
    exact absurd (congrArg Prod.fst ok) first

theorem emit_append_ok {xs ys : List Int} {a a' : A} (ok : emit cb (xs ++ ys) a = (0, a')) :
    ∃ b, emit cb xs a = (0, b) ∧ emit cb ys b = (0, a') := by
  induction xs generalizing a with
  | nil => exact ⟨a, rfl, ok⟩
  | cons x xs ih =>
      obtain ⟨b, first, rest⟩ := emit_cons_ok ok
      obtain ⟨b', more, last⟩ := ih rest
      exact ⟨b', by rw [emit, first, andThen_ok, more], last⟩

theorem puts_nil (i i' : Info A) (same : i'.cbArg = i.cbArg) : Puts cb i (0, i') [] i' := by
  intro a ok
  obtain rfl : i.cbArg = a := congrArg Prod.snd ok
  rw [← same]

theorem puts_report (i j : Info A) (x : Int) (same : j.cbArg = i.cbArg) :
    Puts cb i (report cb j x) [x] j := by
  intro a ok
  obtain ⟨b, first, last⟩ := emit_cons_ok ok
  obtain rfl : b = a := congrArg Prod.snd last
  rw [report, same, first]

theorem Puts.andThen {i i' i'' : Info A} {r : Int × Info A} {next : Info A → Int × Info A}
    {out out' : List Int} (first : Puts cb i r out i')
    (rest : ∀ a, Puts cb { i' with cbArg := a } (next { i' with cbArg := a }) out' i'') :
    Puts cb i (andThen r next) (out ++ out') i'' := by
  intro a ok
  obtain ⟨b, before, after⟩ := emit_append_ok ok
  rw [first b before, andThen_ok]
  exact rest b a after

theorem puts_reportNones (n : Nat) (i j : Info A) (same : j.cbArg = i.cbArg) :
    Puts cb i (reportNones cb n j) (List.replicate n lbNone) j := by
  induction n generalizing i j with
  | zero => exact puts_nil i j same
  | succ n ih =>
      rw [reportNones, List.replicate_succ]
      exact (puts_report i j lbNone same).andThen fun a => ih _ _ rfl

end Reports

/-! ## What is held back -/

section Held
variable {A : Type}

/-- The value of `OP` after `PR` or `PO`. -/
def heldValue (rest : List LbClass) : Int :=
  if (reduceAfter OP rest).head? = some NU then lbNone else lbAllowed

def held (i : Info A) (rest : List LbClass) : List Int :=
  match i.nextHandler with
  | .nextLb25Seenophy => heldValue rest :: List.replicate i.savedcmcnt lbNone
  | _ => []

inductive Reads : List LbClass → Info A → Prop
  | nextDef {before : List LbClass} {i : Info A} (next : i.nextHandler = .nextDef)
      (atEnd : i.endHandler = .endDef) (last : i.prevclass = (reduce before).head?)
      (nsp : i.prevclassNsp = lastNsp (reduce before)) (num : number (reduce before) = false)
      (close : closed (reduce before) = false) : Reads before i
  | nextLb25Seenophy {before more : List LbClass} {p : LbClass} {i : Info A}
      (next : i.nextHandler = .nextLb25Seenophy) (atEnd : i.endHandler = .endLb25Seenophy)
      (lead : p = PR ∨ p = PO) (shape : reduce before = OP :: p :: more)
      (saved : i.savedclass = OP) (last : i.prevclass = some p) (nsp : i.prevclassNsp = some p) :
      Reads before i
  | nextLb25Seennu {before : List LbClass} {i : Info A} (next : i.nextHandler = .nextLb25Seennu)
      (atEnd : i.endHandler = .endDef) (last : i.prevclass = (reduce before).head?)
      (nsp : i.prevclassNsp = lastNsp (reduce before)) (num : number (reduce before) = true) :
      Reads before i
  | nextLb25Seennuclcp {before : List LbClass} {i : Info A}
      (next : i.nextHandler = .nextLb25Seennuclcp) (atEnd : i.endHandler = .endDef)
      (last : i.prevclass = (reduce before).head?) (nsp : i.prevclassNsp = lastNsp (reduce before))
      (close : closed (reduce before) = true) : Reads before i

theorem Reads.withArg {before : List LbClass} {i : Info A} (reads : Reads before i) (a : A) :
    Reads before { i with cbArg := a } := by
  cases reads with
  | nextDef next atEnd last nsp num close => exact .nextDef next atEnd last nsp num close
  | nextLb25Seenophy next atEnd lead shape saved last nsp =>
      exact .nextLb25Seenophy next atEnd lead shape saved last nsp
  | nextLb25Seennu next atEnd last nsp num => exact .nextLb25Seennu next atEnd last nsp num
  | nextLb25Seennuclcp next atEnd last nsp close =>
      exact .nextLb25Seennuclcp next atEnd last nsp close

def Step (cb : Int → A → Int × A) (before : List LbClass) (i : Info A) (cl : LbClass)
    (r : Int × Info A) : Prop :=
  ∃ out i', Puts cb i r out i' ∧ Reads (cl :: before) i' ∧ i'.opts = i.opts ∧
    ∀ rest, out ++ held i' rest = held i (cl :: rest) ++ [value i.opts before cl rest]

end Held

/-! ## The default handler -/

section Default
variable {A : Type} {cb : Int → A → Int × A} {before more : List LbClass} {i : Info A}
  {cl last : LbClass}

def arrive (i : Info A) (b : LbClass) : Info A :=
  { i with
    prevclass := some b
    prevclassNsp := if b ≠ SP then some b else i.prevclassNsp
    nextHandler := if b = NU then .nextLb25Seennu else i.nextHandler }

/-- The end of `next_def_nolb25`, from LB11. -/
def fromLb11 (cb : Int → A → Int × A) (i : Info A) (last cl : LbClass) (nolb25 : Bool) :
    Int × Info A :=
  match lb11to24 i.opts last i.prevclassNsp (base cl) with
  | some x => report cb (arrive i (base cl)) x
  | none =>
    if nolb25 = false ∧ (last = PR ∨ last = PO) ∧ base cl = NU then
      report cb (arrive i (base cl)) lbNone
    else if nolb25 = false ∧ (last = PR ∨ last = PO) ∧ (base cl = OP ∨ base cl = HY) then
      (0, { arrive i (base cl) with
        prevclass := i.prevclass, prevclassNsp := i.prevclassNsp, savedclass := base cl
        savedcmcnt := 0, nextHandler := .nextLb25Seenophy, endHandler := .endLb25Seenophy })
    else report cb (arrive i (base cl)) (lb25to31 last (base cl))

theorem nextDefNolb25_none (nolb25 : Bool) (last : i.prevclass = none) :
    nextDefNolb25 cb i cl nolb25 = report cb (arrive i (base cl)) lbNone := by
  unfold nextDefNolb25
  rw [last]
  cases cl <;> rfl

theorem arrive_eq (i : Info A) (cl : LbClass) :
    (if cl = NU then
        { (if cl ≠ SP then { i with prevclass := some cl, prevclassNsp := some cl }
            else { i with prevclass := some cl }) with nextHandler := .nextLb25Seennu }
      else if cl ≠ SP then { i with prevclass := some cl, prevclassNsp := some cl }
        else { i with prevclass := some cl }) = arrive i cl := by
  cases cl <;> rfl

theorem nextDefNolb25_some (nolb25 : Bool) (prev : i.prevclass = some last)
    (nsp : last ≠ SP → i.prevclassNsp = some last) :
    nextDefNolb25 cb i cl nolb25 =
      if last = CR ∧ cl = LF then report cb (arrive i (base cl)) lbNone
      else if isLineEnd last then report cb (arrive i (base cl)) lbMandatory
      else if isLineEnd cl then report cb (arrive i (base cl)) lbNone
      else if cl = SP ∨ cl = ZW then report cb (arrive i (base cl)) lbNone
      else if i.prevclassNsp = some ZW then report cb (arrive i (base cl)) lbAllowed
      else if cl = CM ∧ isHard last = false then report cb i lbNone
      else fromLb11 cb i last cl nolb25 := by
  unfold nextDefNolb25 fromLb11
  simp only [arrive_eq]
  rw [prev]
  simp only
  by_cases cm : cl = CM
  · subst cm
    have al : remember (arrive i CM) AL = arrive i AL := rfl
    have cmEnd : isLineEnd CM = false := rfl
    have alEnd : isLineEnd AL = false := rfl
    have opts : (arrive i AL).opts = i.opts := rfl
    by_cases ends : isLineEnd last = true
    · simp [ends, al, base]
    by_cases lb10 : last = SP ∨ last = ZW
    · have hard : isHard last = true := by rcases lb10 with rfl | rfl <;> rfl
      simp [ends, lb10, hard, al, base, cmEnd, alEnd, opts] <;> rfl
    · have soft : isHard last = false := by
        rw [isHard]
        simp [ends, not_or.mp lb10]
      have notSp : last ≠ SP := fun h => lb10 (.inl h)
      have notZw : last ≠ ZW := fun h => lb10 (.inr h)
      have back : ({ arrive i CM with prevclass := some last, prevclassNsp := some last } :
          Info A) = i := by
        have := nsp notSp
        cases i
        simp_all [arrive]
      simp [ends, notSp, notZw, soft, nsp notSp, back, cmEnd]
  · have same : base cl = cl := if_neg cm
    have opts : (arrive i cl).opts = i.opts := rfl
    simp only [same, cm, and_false, false_and, if_false, opts]
    by_cases ends : isLineEnd cl = true
    · simp [ends]
    · simp [ends] <;> rfl

structure Quiet (bases : List LbClass) (cl : LbClass) : Prop where
  num : number bases = true → cl ∉ [NU, SY, IS, CL, CP, PR, PO, CM]
  close : closed bases = true → cl ∉ [PR, PO, CM]

theorem quiet_of_idle {bases : List LbClass} (num : number bases = false)
    (close : closed bases = false) (cl : LbClass) : Quiet bases cl where
  num h := by rw [num] at h; cases h
  close h := by rw [close] at h; cases h

structure Ready (before : List LbClass) (i : Info A) (cl : LbClass) : Prop where
  next : i.nextHandler = .nextDef
  atEnd : i.endHandler = .endDef
  last : i.prevclass = (reduce before).head?
  nsp : i.prevclassNsp = lastNsp (reduce before)
  quiet : Quiet (reduce before) cl

theorem lastNsp_cons (b : LbClass) (bases : List LbClass) :
    lastNsp (b :: bases) = if b ≠ SP then some b else lastNsp bases := by
  by_cases sp : b = SP
  · simp [lastNsp, sp]
  · simp [lastNsp, sp]

theorem number_base {bases : List LbClass} (quiet : Quiet bases cl) :
    number (base cl :: bases) = decide (base cl = NU) := by
  cases num : number bases with
  | false => simp [number, num]
  | true =>
      have out := quiet.num num
      cases cl <;> simp_all [number, base]

theorem closed_base {bases : List LbClass} (quiet : Quiet bases cl) :
    closed (base cl :: bases) = false := by
  cases num : number bases with
  | false => simp [closed, num]
  | true =>
      have out := quiet.num num
      cases cl <;> simp_all [closed, base]

theorem reads_arrive (ready : Ready before i cl) (keep : attaches cl before = false) :
    Reads (cl :: before) (arrive i (base cl)) := by
  have shape : reduce (cl :: before) = base cl :: reduce before := reduce_of_not_attaches keep
  have nsp : (arrive i (base cl)).prevclassNsp = lastNsp (reduce (cl :: before)) := by
    rw [shape, lastNsp_cons, ← ready.nsp]
    rfl
  by_cases nu : base cl = NU
  · refine .nextLb25Seennu ?_ ready.atEnd (by rw [shape]; rfl) nsp ?_
    · exact if_pos nu
    · rw [shape, number_base ready.quiet, nu]
      rfl
  · refine .nextDef ?_ ready.atEnd (by rw [shape]; rfl) nsp ?_ ?_
    · exact (if_neg nu).trans ready.next
    · rw [shape, number_base ready.quiet]
      exact decide_eq_false nu
    · rw [shape, closed_base ready.quiet]

theorem held_idle (h : i.nextHandler ≠ .nextLb25Seenophy) (rest : List LbClass) :
    held i rest = [] := by
  unfold held
  cases next : i.nextHandler with
  | nextLb25Seenophy => exact absurd next h
  | nextDef => rfl
  | nextLb25Seennu => rfl
  | nextLb25Seennuclcp => rfl

theorem held_arrive (next : i.nextHandler = .nextDef) (b : LbClass) (rest : List LbClass) :
    held (arrive i b) rest = [] := by
  apply held_idle
  rw [arrive, next]
  by_cases nu : b = NU <;> simp [nu]

theorem step_report (ready : Ready before i cl) (keep : attaches cl before = false) {x : Int}
    (val : ∀ rest, value i.opts before cl rest = x) :
    Step cb before i cl (report cb (arrive i (base cl)) x) := by
  refine ⟨[x], arrive i (base cl), puts_report i _ x rfl, reads_arrive ready keep, rfl, ?_⟩
  intro rest
  rw [held_arrive ready.next, held_idle (by rw [ready.next]; exact NextHandler.noConfusion), val]
  rfl

theorem lb11to24_HY (opts : BitVec 32) (nsp : Option LbClass) :
    lb11to24 opts last nsp HY ≠ none := by
  unfold lb11to24
  simp only [reduceCtorEq, or_false, false_or, and_false, false_and, or_true, if_true, if_false,
    or_self]
  split_ifs <;> exact Option.some_ne_none _

theorem lb11to24_unit (opts : BitVec 32) {p : LbClass} (lead : p = PR ∨ p = PO) :
    lb11to24 opts p (some p) OP = none := by
  rcases lead with rfl | rfl <;> simp [lb11to24]

theorem lb25to31_unit {p : LbClass} (lead : p = PR ∨ p = PO) : lb25to31 p OP = lbAllowed := by
  rcases lead with rfl | rfl <;> rfl

theorem inside_quiet (fs : List LbClass) (quiet : Quiet (last :: more) cl) :
    insideNumber (last :: more) (base cl :: fs) = true ↔
      (base cl = NU ∧ (last = PR ∨ last = PO ∨ last = OP ∨ last = HY)) ∨
      ((base cl = OP ∨ base cl = HY) ∧ (last = PR ∨ last = PO) ∧ fs.head? = some NU) := by
  rw [insideNumber_iff]
  have out := quiet.num
  have out' := quiet.close
  cases num : number (last :: more) with
  | false =>
      cases close : closed (last :: more) with
      | false => simp
      | true =>
          have := out' close
          cases cl <;> simp_all [base]
  | true =>
      have := out num
      cases cl <;> simp_all [base]

theorem step_rules (ready : Ready before i cl) (shape : reduce before = last :: more)
    (keep : attaches cl before = false)
    (val : ∀ rest, value i.opts before cl rest = rules i.opts i.prevclassNsp last (base cl)
      (insideNumber (last :: more) (base cl :: reduceAfter cl rest)))
    (nsp : last ≠ SP → i.prevclassNsp = some last) :
    Step cb before i cl (fromLb11 cb i last cl false) := by
  have quiet : Quiet (last :: more) cl := shape ▸ ready.quiet
  have inside := fun rest => inside_quiet (reduceAfter cl rest) quiet
  have val' : ∀ rest, value i.opts before cl rest =
      (lb11to24 i.opts last i.prevclassNsp (base cl)).getD
        (if insideNumber (last :: more) (base cl :: reduceAfter cl rest) then lbNone
          else lb25to31 last (base cl)) := by
    intro rest
    rw [val, rules_eq]
    rintro ⟨sign, nu⟩
    exact (inside rest).mpr (.inl ⟨nu, .inr (.inr sign)⟩)
  unfold fromLb11
  cases rule : lb11to24 i.opts last i.prevclassNsp (base cl) with
  | some x =>
      refine step_report ready keep fun rest => ?_
      rw [val', rule, Option.getD_some]
  | none =>
      simp only [true_and]
      simp only [rule, Option.getD_none] at val'
      by_cases nu : (last = PR ∨ last = PO) ∧ base cl = NU
      · rw [if_pos nu]
        refine step_report ready keep fun rest => ?_
        rw [val', if_pos ((inside rest).mpr (.inl ⟨nu.2, nu.1.imp_right .inl⟩))]
      rw [if_neg nu]
      by_cases sign : (last = PR ∨ last = PO) ∧ (base cl = OP ∨ base cl = HY)
      · rw [if_pos sign]
        have op : base cl = OP :=
          sign.2.resolve_right fun hy => lb11to24_HY _ _ (by rw [hy] at rule; exact rule)
        have isOp : cl = OP := by
          cases cl <;> first | rfl | cases op
        subst isOp
        have notSp : last ≠ SP := by rcases sign.1 with rfl | rfl <;> exact LbClass.noConfusion
        have shape' : reduce (OP :: before) = OP :: last :: more := by
          rw [reduce_of_not_attaches keep, shape]
          rfl
        have prev : i.prevclass = some last := by rw [ready.last, shape]; rfl
        refine ⟨[], _, puts_nil i _ rfl,
          .nextLb25Seenophy rfl rfl sign.1 shape' rfl prev (nsp notSp), rfl, ?_⟩
        intro rest
        rw [held_idle (i := i) (by rw [ready.next]; exact NextHandler.noConfusion), val', op]
        have either := inside rest
        simp only [op, reduceCtorEq, false_and, true_or, true_and,
          false_or] at either
        show [heldValue rest] = [_]
        by_cases nu : (reduceAfter OP rest).head? = some NU
        · rw [heldValue, if_pos nu, if_pos (either.mpr ⟨sign.1, nu⟩)]
        · rw [heldValue, if_neg nu, if_neg (fun h => nu (either.mp h).2)]
          rw [lb25to31_unit sign.1]
      · rw [if_neg sign]
        refine step_report ready keep fun rest => ?_
        rw [val']
        by_cases here : insideNumber (last :: more) (base cl :: reduceAfter cl rest) = true
        · -- only the pair that `lb25to31` knows as well is left
          rw [if_pos here]
          rcases (inside rest).mp here with ⟨isNu, lead | lead | pair⟩ | ⟨isSign, lead, -⟩
          · exact absurd ⟨.inl lead, isNu⟩ nu
          · exact absurd ⟨.inr lead, isNu⟩ nu
          · rw [lb25to31, if_pos ⟨pair, isNu⟩]
          · exact absurd ⟨lead, isSign⟩ sign
        · rw [if_neg here]

theorem step_nextDef (ready : Ready before i cl) :
    Step cb before i cl (nextDefNolb25 cb i cl false) := by
  cases shape : reduce before with
  | nil =>
      have start : before = [] := by
        cases before with
        | nil => rfl
        | cons prev before =>
            obtain ⟨last, more, same, -⟩ := reduce_head prev before
            rw [same] at shape
            cases shape
      subst start
      rw [nextDefNolb25_none false (by rw [ready.last, shape]; rfl)]
      exact step_report ready rfl fun rest => rfl
  | cons last more =>
      have prev : i.prevclass = some last := by rw [ready.last, shape]; rfl
      have nsp' : i.prevclassNsp = lastNsp (last :: more) := by rw [ready.nsp, shape]
      have nsp : last ≠ SP → i.prevclassNsp = some last := by
        intro h
        rw [nsp', lastNsp_cons, if_pos h]
      have val := fun rest => value_eq i.opts cl rest shape
      simp only [← nsp'] at val
      have att := attaches_eq cl shape
      rw [nextDefNolb25_some false prev nsp]
      have keepOf : ¬ (cl = CM ∧ isHard last = false) → attaches cl before = false := by
        intro h
        rw [att]
        simpa using h
      by_cases lb5 : last = CR ∧ cl = LF
      · rw [if_pos lb5]
        refine step_report ready (keepOf ?_) fun rest => by rw [val, if_pos lb5]
        rintro ⟨rfl, -⟩
        cases lb5.2
      simp only [if_neg lb5] at val ⊢
      by_cases lb4 : isLineEnd last = true
      · rw [if_pos lb4]
        refine step_report ready (keepOf ?_) fun rest => by rw [val, if_pos lb4]
        rintro ⟨-, soft⟩
        rw [isHard_of_lineEnd lb4] at soft
        cases soft
      simp only [if_neg lb4] at val ⊢
      by_cases lb6 : isLineEnd cl = true
      · rw [if_pos lb6]
        refine step_report ready (keepOf ?_) fun rest => by rw [val, if_pos lb6]
        rintro ⟨rfl, -⟩
        cases lb6
      simp only [if_neg lb6] at val ⊢
      by_cases lb7 : cl = SP ∨ cl = ZW
      · rw [if_pos lb7]
        refine step_report ready (keepOf ?_) fun rest => by rw [val, if_pos lb7]
        rintro ⟨rfl, -⟩
        cases lb7 <;> contradiction
      simp only [if_neg lb7] at val ⊢
      by_cases lb8 : i.prevclassNsp = some ZW
      · rw [if_pos lb8]
        refine step_report ready (keepOf ?_) fun rest => by rw [val, if_pos lb8]
        rintro ⟨-, soft⟩
        by_cases sp : last = SP
        · rw [sp] at soft
          cases soft
        · rw [nsp sp] at lb8
          rw [Option.some.inj lb8] at soft
          cases soft
      simp only [if_neg lb8] at val ⊢
      by_cases lb9 : cl = CM ∧ isHard last = false
      · -- the mark is dropped, the state stays
        rw [if_pos lb9]
        obtain ⟨rfl, soft⟩ := lb9
        have join : attaches CM before = true := by rw [att, soft]; rfl
        have same : reduce (CM :: before) = reduce before := reduce_of_attaches join
        have num : number (reduce before) = false := by
          cases h : number (reduce before) with
          | false => rfl
          | true => exact absurd (by decide) (ready.quiet.num h)
        have close : closed (reduce before) = false := by
          cases h : closed (reduce before) with
          | false => rfl
          | true => exact absurd (by decide) (ready.quiet.close h)
        have idle : i.nextHandler ≠ .nextLb25Seenophy := by
          rw [ready.next]
          exact NextHandler.noConfusion
        refine ⟨[lbNone], i, puts_report i i lbNone rfl, ?_, rfl, ?_⟩
        · exact .nextDef ready.next ready.atEnd (by rw [same]; exact ready.last)
            (by rw [same]; exact ready.nsp) (by rw [same]; exact num) (by rw [same]; exact close)
        · intro rest
          rw [held_idle idle, held_idle idle, val, if_pos ⟨rfl, soft⟩]
          rfl
      simp only [if_neg lb9] at val ⊢
      exact step_rules ready shape (keepOf lb9) val nsp

end Default

end Cone.LinebreakSteps
