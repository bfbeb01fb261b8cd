import Cone.LinebreakNumber

/-! # The line break rules over a whole text

`value opts before cl after` is the break value in front of a character of class `cl`, from
the classes before it (nearest first) and after it. -/
set_option autoImplicit false
namespace Cone.LinebreakRules
open Cone.Linebreak
open Cone.LinebreakNumber
open LbClass

/-! ## The rules -/

def isHard (cl : LbClass) : Bool := isLineEnd cl || cl = SP || cl = ZW

/-- LB9: `cl` is a mark that belongs to the character before it. -/
def attaches (cl : LbClass) : List LbClass → Bool
  | [] => false
  | prev :: _ => cl = CM && !isHard prev

/-- LB10: every other mark is a letter. -/
def base (cl : LbClass) : LbClass := if cl = CM then AL else cl

def reduce : List LbClass → List LbClass
  | [] => []
  | cl :: before => if attaches cl before then reduce before else base cl :: reduce before

def reduceAfter : LbClass → List LbClass → List LbClass
  | _, [] => []
  | prev, cl :: after =>
    if attaches cl [prev] then reduceAfter cl after else base cl :: reduceAfter cl after

/-- What stands before a run of spaces. -/
def lastNsp (bases : List LbClass) : Option LbClass := bases.find? fun cl => cl ≠ SP

def rules (opts : BitVec 32) (nsp : Option LbClass) (last cl : LbClass) (inside : Bool) : Int :=
  if last = WJ ∨ cl = WJ then lbNone -- LB11
  else if last = .GL then lbNone -- LB12
  else if cl = .GL ∧ last ≠ SP ∧ last ≠ BA ∧ last ≠ HY then lbNone -- LB12a
  else if cl = SY ∧ optSet opts lbOptSybreak ∧ last = SP then lbAllowed -- LB13, tailored
  else if cl ∈ [SY, CL, CP, EX, IS] then lbNone -- LB13
  else if optSet opts lbOptSybreak ∧ last = SY ∧ cl ∈ [EX, AL, ID] then lbNone -- LB13, tailored
  else if nsp = some OP then lbNone -- LB14
  else if nsp = some QU ∧ cl = OP then lbNone -- LB15
  else if nsp ∈ [some CL, some CP] ∧ cl = NS then lbNone -- LB16
  else if nsp = some B2 ∧ cl = B2 then lbNone -- LB17
  else if last = SP then lbAllowed -- LB18
  else if cl = QU ∨ last = QU then lbNone -- LB19
  else if cl = CB ∨ last = CB then lbAllowed -- LB20
  else if cl ∈ [BA, HY, NS] then lbNone -- LB21
  else if last = BB then lbNone -- LB21
  else if cl = IN ∧ last ∈ [AL, ID, IN, NU] then lbNone -- LB22
  else if last = ID ∧ cl = PO then lbNone -- LB23
  else if last = AL ∧ cl = NU then lbNone -- LB23
  else if last = NU ∧ cl = AL then lbNone -- LB23
  else if last = PR ∧ cl = ID then lbNone -- LB24
  else if last = PR ∧ cl = AL then lbNone -- LB24
  else if last = PO ∧ cl = AL then lbNone -- LB24
  else if optSet opts lbOptPrbreak ∧ cl = PR ∧ last ∈ [PR, AL, ID] then lbNone -- LB24, tailored
  else if inside then lbNone -- LB25
  else if last = JL ∧ cl ∈ [JL, JV, H2, H3] then lbNone -- LB26
  else if last ∈ [JV, H2] ∧ cl ∈ [JV, JT] then lbNone -- LB26
  else if last ∈ [JT, H3] ∧ cl = JT then lbNone -- LB26
  else if last ∈ [JL, JV, JT, H2, H3] ∧ cl ∈ [IN, PO] then lbNone -- LB27
  else if cl ∈ [JL, JV, JT, H2, H3] ∧ last = PR then lbNone -- LB27
  else if last = AL ∧ cl = AL then lbNone -- LB28
  else if last = IS ∧ cl = AL then lbNone -- LB29
  else if last ∈ [AL, NU] ∧ cl = OP then lbNone -- LB30
  else if cl ∈ [AL, NU] ∧ last = CP then lbNone -- LB30
  else lbAllowed -- LB31

def value (opts : BitVec 32) (before : List LbClass) (cl : LbClass) (after : List LbClass) : Int :=
  match before, reduce before with
  | prev :: _, last :: more =>
    if prev = CR ∧ cl = LF then lbNone -- LB5
    else if isLineEnd prev then lbMandatory -- LB4, LB5
    else if isLineEnd cl then lbNone -- LB6
    else if cl = SP ∨ cl = ZW then lbNone -- LB7
    else if lastNsp (last :: more) = some ZW then lbAllowed -- LB8
    else if attaches cl before then lbNone -- LB9
    else rules opts (lastNsp (last :: more)) last (base cl)
      (insideNumber (last :: more) (base cl :: reduceAfter cl after))
  | _, _ => lbNone -- LB2

/-! ## What LB9 attaches -/

section Reduction

theorem reduce_of_attaches {cl : LbClass} {before : List LbClass} (h : attaches cl before = true) :
    reduce (cl :: before) = reduce before := by
  rw [reduce, if_pos h]

theorem reduce_of_not_attaches {cl : LbClass} {before : List LbClass}
    (h : attaches cl before = false) : reduce (cl :: before) = base cl :: reduce before := by
  rw [reduce, if_neg (by simp [h])]

theorem base_hard {cl : LbClass} (h : isHard (base cl) = true) : base cl = cl := by
  cases cl <;> first | rfl | cases h

theorem hard_base {cl : LbClass} (h : isHard cl = true) : base cl = cl := by
  cases cl <;> first | rfl | cases h

theorem reduce_head (prev : LbClass) (before : List LbClass) :
    ∃ last more, reduce (prev :: before) = last :: more ∧
      (isHard last = true ∨ isHard prev = true → last = prev) := by
  induction before generalizing prev with
  | nil => exact ⟨base prev, [], rfl, fun h => h.elim base_hard hard_base⟩
  | cons cl before ih =>
      by_cases join : attaches prev (cl :: before) = true
      · obtain ⟨last, more, same, hard⟩ := ih cl
        have both : prev = CM ∧ isHard cl = false := by simpa [attaches] using join
        refine ⟨last, more, by rw [reduce_of_attaches join, same], ?_⟩
        rintro (h | h)
        · rw [hard (.inl h), both.2] at h
          cases h
        · rw [both.1] at h
          cases h
      · have keep : attaches prev (cl :: before) = false := by simpa using join
        exact ⟨base prev, reduce (cl :: before), reduce_of_not_attaches keep,
          fun h => h.elim base_hard hard_base⟩

theorem isHard_eq {prev last : LbClass} (same : isHard last = true ∨ isHard prev = true →
    last = prev) : isHard prev = isHard last := by
  cases hl : isHard last with
  | true => rw [← same (.inl hl), hl]
  | false =>
      cases hp : isHard prev with
      | true => rw [same (.inr hp), hp] at hl; cases hl
      | false => rfl

theorem attaches_eq (cl : LbClass) {last : LbClass} {before more : List LbClass}
    (shape : reduce before = last :: more) :
    attaches cl before = (cl = CM && !isHard last) := by
  cases before with
  | nil => cases shape
  | cons prev before =>
      obtain ⟨last', more', shape', hard⟩ := reduce_head prev before
      obtain ⟨rfl, rfl⟩ := List.cons.inj (shape.symm.trans shape')
      rw [attaches, isHard_eq hard]

theorem isHard_of_lineEnd {cl : LbClass} (h : isLineEnd cl = true) : isHard cl = true := by
  rw [isHard, h]
  rfl

theorem value_eq (opts : BitVec 32) {last : LbClass} {before more : List LbClass} (cl : LbClass)
    (after : List LbClass) (shape : reduce before = last :: more) :
    value opts before cl after =
      if last = CR ∧ cl = LF then lbNone
      else if isLineEnd last then lbMandatory
      else if isLineEnd cl then lbNone
      else if cl = SP ∨ cl = ZW then lbNone
      else if lastNsp (last :: more) = some ZW then lbAllowed
      else if cl = CM ∧ isHard last = false then lbNone
      else rules opts (lastNsp (last :: more)) last (base cl)
        (insideNumber (last :: more) (base cl :: reduceAfter cl after)) := by
  have att := attaches_eq cl shape
  cases before with
  | nil => cases shape
  | cons prev before =>
      obtain ⟨last', more', shape', hard⟩ := reduce_head prev before
      obtain ⟨rfl, rfl⟩ := List.cons.inj (shape.symm.trans shape')
      simp only [value, shape, att, Bool.and_eq_true, decide_eq_true_eq, Bool.not_eq_true']
      by_cases either : isHard last = true ∨ isHard prev = true
      · rw [hard either]
      · have notLast : isLineEnd last = false := by
          simpa using fun h => either (.inl (isHard_of_lineEnd h))
        have notPrev : isLineEnd prev = false := by
          simpa using fun h => either (.inr (isHard_of_lineEnd h))
        have crLast : last ≠ CR := by rintro rfl; cases notLast
        have crPrev : prev ≠ CR := by rintro rfl; cases notPrev
        simp only [crLast, crPrev, notLast, notPrev, false_and, if_false, Bool.false_eq_true]

/-- A mark never stops the look-ahead, and no class tells apart what it is attached to. -/
theorem reduceAfter_soft {prev prev' : LbClass} (h : isHard prev = false)
    (h' : isHard prev' = false) (after : List LbClass) :
    reduceAfter prev after = reduceAfter prev' after := by
  cases after with
  | nil => rfl
  | cons cl after => simp only [reduceAfter, attaches, h, h']

theorem ite_getD {c : Prop} [Decidable c] (x d : Int) (o : Option Int) :
    (if c then some x else o).getD d = if c then x else o.getD d := by
  by_cases h : c
  · rw [if_pos h, if_pos h, Option.getD_some]
  · rw [if_neg h, if_neg h]

theorem rules_eq (opts : BitVec 32) (nsp : Option LbClass) (last cl : LbClass) (inside : Bool)
    (pair : (last = OP ∨ last = HY) ∧ cl = NU → inside = true) :
    rules opts nsp last cl inside =
      (lb11to24 opts last nsp cl).getD (if inside then lbNone else lb25to31 last cl) := by
  have split25 : (if inside then lbNone else lb25to31 last cl) =
      if inside then lbNone
      else if last = JL ∧ (cl = JL ∨ cl = JV ∨ cl = H2 ∨ cl = H3) then lbNone
      else if (last = JV ∨ last = H2) ∧ (cl = JV ∨ cl = JT) then lbNone
      else if (last = JT ∨ last = H3) ∧ cl = JT then lbNone
      else if isHangul last ∧ (cl = IN ∨ cl = PO) then lbNone
      else if isHangul cl ∧ last = PR then lbNone
      else if last = AL ∧ cl = AL then lbNone
      else if last = IS ∧ cl = AL then lbNone
      else if (last = AL ∨ last = NU) ∧ cl = OP then lbNone
      else if (cl = AL ∨ cl = NU) ∧ last = CP then lbNone
      else lbAllowed := by
    by_cases here : inside = true
    · rw [if_pos here, if_pos here]
    · rw [if_neg here, if_neg here, lb25to31, if_neg (fun h => here (pair h))]
  rw [split25]
  unfold rules lb11to24
  simp only [ite_getD, Option.getD_none, List.mem_cons, List.not_mem_nil,
    or_false, isHangul, Bool.or_eq_true, decide_eq_true_eq, or_assoc]

end Reduction

end Cone.LinebreakRules
