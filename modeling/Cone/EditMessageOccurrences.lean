import Mathlib.Data.Nat.Find
import Cone.EditMessageSearch

/-! # What a search in the message editor finds

The engine tells where a match ends. Where it begins is the last place where the engine was at its
start, which is where the match begins only if no beginning of the pattern ends there. -/
set_option autoImplicit false
namespace Cone.EditMessageSearch

open Cone.Lib.Borders Cone.Maildirsearch

section Feeding
variable {lc : UInt32 → UInt32}

/-- Whether the last character was white space. -/
def flag (spc : Bool) (text : UText) : Bool := text.foldl (fun _ c => isSpc c) spc

theorem flag_concat (spc : Bool) (text : UText) (c : UInt32) :
    flag spc (text ++ [c]) = isSpc c := by
  rw [flag, List.foldl_append, List.foldl_cons, List.foldl_nil]

theorem firsts_append (spc : Bool) (u v : UText) :
    firsts spc (u ++ v) = firsts spc u ++ firsts (flag spc u) v := by
  induction u generalizing spc with
  | nil => rfl
  | cons c u ih =>
      have rest : flag spc (c :: u) = flag (isSpc c) u := rfl
      rw [rest, List.cons_append]
      cases hc : isSpc c with
      | true => rw [firsts_spc hc, firsts_spc hc, ih, List.append_assoc]
      | false => rw [firsts_other hc, firsts_other hc, ih, List.cons_append]

theorem fed_append (spc : Bool) (u v : UText) :
    fed lc spc (u ++ v) = fed lc spc u ++ fed lc (flag spc u) v := by
  rw [fed, firsts_append, List.map_append, List.map_append]
  rfl

theorem fed_other {c : UInt32} (other : isSpc c = false) (spc : Bool) (text : UText) :
    fed lc spc (c :: text) = lc c :: fed lc false text := by
  rw [fed, firsts_other other, List.map_cons, List.map_cons, toSpace, other]
  rfl

/-- One character more is one character more or none. -/
theorem fed_one (spc : Bool) (c : UInt32) :
    fed lc spc [c] = [] ∨ fed lc spc [c] = [lc (toSpace c)] := by
  cases hc : isSpc c with
  | true => cases spc <;> simp [fed, firsts, hc]
  | false => simp [fed, firsts, hc]

theorem fed_take {spc : Bool} {text a : UText} (h : a <+: fed lc spc text) :
    ∃ u v, text = u ++ v ∧ fed lc spc u = a := by
  induction text using List.reverseRecOn with
  | nil => exact ⟨[], [], rfl, (List.prefix_nil.mp h).symm⟩
  | append_singleton text c ih =>
      rw [fed_append] at h
      rcases @fed_one lc (flag spc text) c with none | one
      · rw [none, List.append_nil] at h
        obtain ⟨u, v, rfl, same⟩ := ih h
        exact ⟨u, v ++ [c], by rw [List.append_assoc], same⟩
      · rw [one, List.prefix_concat_iff] at h
        rcases h with whole | before
        · exact ⟨text ++ [c], [], by rw [List.append_nil], by rw [fed_append, one, whole]⟩
        · obtain ⟨u, v, rfl, same⟩ := ih before
          exact ⟨u, v ++ [c], by rw [List.append_assoc], same⟩

end Feeding

section Zero
variable {P : UText}

/-- No beginning of the pattern ends here. -/
def Zero (P u : UText) : Prop := ∀ k, 0 < k → k ≤ P.length → ¬ P.take k <:+ u

theorem zero_nil (P : UText) : Zero P [] := by
  intro k pos le ends
  have len := ends.length_le
  rw [List.length_take_of_le le, List.length_nil] at len
  omega

theorem tracks_zero {t : UText} {i : Nat} (tracks : Tracks P t i) (absent : ¬ P <:+: t) :
    i = 0 ↔ Zero P t := by
  obtain ⟨occurs, -⟩ | ⟨-, longest⟩ := tracks
  · exact absurd occurs absent
  constructor
  · rintro rfl k pos le ends
    have := longest.greatest k le ends
    omega
  · intro zero
    by_contra pos
    exact zero i (by omega) longest.le longest.ends

/-- A character that no beginning of the pattern ends with. -/
theorem Zero.concat {u : UText} {c : UInt32} (zero : Zero P u) (other : ∀ d ∈ P.head?, d ≠ c) :
    Zero P (u ++ [c]) := by
  intro k pos le ends
  obtain ⟨j, rfl⟩ : ∃ j, k = j + 1 := ⟨k - 1, by omega⟩
  obtain ⟨before, same⟩ := (ends_concat_succ (show j < P.length by omega)).mp ends
  rcases Nat.eq_zero_or_pos j with rfl | pos
  · exact other c (by rw [List.head?_eq_getElem?, same]; rfl) rfl
  · exact zero j pos (by omega) before

/-- The pattern occurs after `a`, and not before. -/
def First (P t a : UText) : Prop := a ++ P <+: t ∧ ∀ b, b ++ P <+: t → a.length ≤ b.length

theorem First.unique {t a b : UText} (ha : First P t a) (hb : First P t b) : a = b := by
  have len : a.length = b.length := Nat.le_antisymm (ha.2 b hb.1) (hb.2 a ha.1)
  have pa := (List.prefix_append a P).trans ha.1
  have pb := (List.prefix_append b P).trans hb.1
  exact (List.prefix_of_prefix_length_le pa pb len.le).eq_of_length len

theorem First.infix {t a : UText} (h : First P t a) : P <:+: t :=
  (List.suffix_append a P).isInfix.trans h.1.isInfix

end Zero

section Run
variable {lc : UInt32 → UInt32} {S : UnicodeString} {spc : Bool} {fuel : Nat}

def chars (D : List Cell) : UText := D.map Prod.fst

def told (lc : UInt32 → UInt32) (spc : Bool) (D : List Cell) : UText := fed lc spc (chars D)

theorem told_append (D E : List Cell) :
    told lc spc (D ++ E) = told lc spc D ++ fed lc (flag spc (chars D)) (chars E) := by
  rw [told, chars, List.map_append, fed_append]
  rfl

theorem told_mono {D E : List Cell} (h : D <+: E) : told lc spc D <+: told lc spc E := by
  obtain ⟨x, rfl⟩ := h
  rw [told_append]
  exact List.prefix_append _ _

def Began (P : UText) (t : List Cell → UText) (D : List Cell) (start : Place) : Prop :=
  D ≠ [] → ∃ d0 c d1, D = d0 ++ (c, start) :: d1 ∧ Zero P (t d0) ∧
    ∀ x y, d1 = x ++ y → y ≠ [] → ¬ Zero P (t (d0 ++ (c, start) :: x))

structure Reached (S : UnicodeString) (t : List Cell → UText) (spc : Bool) (D : List Cell)
    (s : Scan) : Prop where
  ready : Ready S s.engine.1 (t D)
  flag : s.engine.2 = flag spc (chars D)
  before : ∀ x y, D = x ++ y → y ≠ [] → ¬ S.chars <:+: t x
  began : Began S.chars t D s.start

theorem Scan.feed_ready (short : S.chars.length < 2 ^ 32) (enough : S.chars.length ≤ fuel)
    {s : Scan} {t : UText} (ready : Ready S s.engine.1 t) (c : UInt32) :
    ∃ s', s.feed lc fuel c = some s' ∧ s'.start = s.start ∧ s'.engine.2 = isSpc c ∧
      Ready S s'.engine.1 (t ++ fed lc s.engine.2 [c]) := by
  obtain ⟨⟨e, b⟩, start⟩ := s
  rw [Scan.feed, searchStepUnicodeLc]
  obtain ⟨e', step, ready'⟩ := searchStep_ready short enough ready (lc (toSpace c))
  cases hc : isSpc c with
  | true =>
      have letter : toSpace c = space := by rw [toSpace, hc]; rfl
      rw [letter] at step ready'
      cases b with
      | true =>
          exact ⟨⟨(e, true), start⟩, by simp, rfl, rfl, by simpa [fed, firsts, hc] using ready⟩
      | false =>
          exact ⟨⟨(e', true), start⟩, by simp [step], rfl, rfl,
            by simpa [fed, firsts, hc, letter] using ready'⟩
  | false =>
      have letter : toSpace c = c := by rw [toSpace, hc]; rfl
      rw [letter] at step ready'
      exact ⟨⟨(e', false), start⟩, by simp [step], rfl, rfl,
        by simpa [fed, firsts, hc, letter] using ready'⟩

theorem Scan.mark_engine (s : Scan) (p : Place) : (s.mark p).engine = s.engine := by
  rw [Scan.mark]
  split <;> rfl

theorem reached_step (short : S.chars.length < 2 ^ 32) (enough : S.chars.length ≤ fuel)
    {D : List Cell} {s : Scan} (reached : Reached S (told lc spc) spc D s)
    (absent : ¬ S.chars <:+: told lc spc D) (c : UInt32) (p : Place) :
    ∃ s', (s.mark p).feed lc fuel c = some s' ∧ Reached S (told lc spc) spc (D ++ [(c, p)]) s' := by
  have ready : Ready S (s.mark p).engine.1 (told lc spc D) := by
    rw [Scan.mark_engine]
    exact reached.ready
  obtain ⟨s', step, start, flag', ready'⟩ := @Scan.feed_ready lc S fuel short enough _ _ ready c
  have chars_concat : chars (D ++ [(c, p)]) = chars D ++ [c] := List.map_append
  refine ⟨s', step, ?_, ?_, ?_, ?_⟩
  · rw [told_append, ← reached.flag]
    rw [Scan.mark_engine] at ready'
    exact ready'
  · rw [flag', chars_concat, flag_concat]
  · intro x y split more
    rcases List.eq_nil_or_concat y with rfl | ⟨y, z, rfl⟩
    · exact absurd rfl more
    · rw [List.concat_eq_append, ← List.append_assoc] at split
      obtain ⟨whole, -⟩ := List.append_inj' split rfl
      cases y with
      | nil =>
          rw [List.append_nil] at whole
          exact whole ▸ absent
      | cons z y => exact reached.before x _ whole (List.cons_ne_nil z y)
  · intro _
    have zero := tracks_zero reached.ready.tracks absent
    rw [start, Scan.mark, atstart]
    by_cases first : s.engine.1.i = 0
    · rw [if_pos (decide_eq_true first)]
      refine ⟨D, c, [], rfl, zero.mp first, fun x y split more => ?_⟩
      exact absurd (List.append_eq_nil_iff.mp split.symm).2 more
    · rw [if_neg (by simpa using first)]
      have later : ¬ Zero S.chars (told lc spc D) := fun h => first (zero.mpr h)
      have some' : D ≠ [] := by
        rintro rfl
        exact later (zero_nil _)
      obtain ⟨d0, d, d1, whole, zero', since⟩ := reached.began some'
      refine ⟨d0, d, d1 ++ [(c, p)], by rw [whole]; simp, zero', fun x y split more => ?_⟩
      rcases List.eq_nil_or_concat y with rfl | ⟨y, z, rfl⟩
      · exact absurd rfl more
      · rw [List.concat_eq_append, ← List.append_assoc] at split
        obtain ⟨same, -⟩ := List.append_inj' split rfl
        cases y with
        | nil =>
            rw [List.append_nil] at same
            rw [← same, ← whole]
            exact later
        | cons z y => exact since x _ same (List.cons_ne_nil z y)

theorem scan_reached (short : S.chars.length < 2 ^ 32) (enough : S.chars.length ≤ fuel)
    (rest : List Cell) : ∀ {D : List Cell} {s : Scan}, Reached S (told lc spc) spc D s →
      (scan lc fuel rest s = some none ∧
        ∀ x y, rest = x ++ y → y ≠ [] → ¬ S.chars <:+: told lc spc (D ++ x)) ∨
      ∃ x c q y s', rest = x ++ (c, q) :: y ∧ scan lc fuel rest s = some (some (s'.start, q)) ∧
        Reached S (told lc spc) spc (D ++ x) s' ∧ S.chars <:+: told lc spc (D ++ x) := by
  induction rest with
  | nil =>
      intro D s _
      refine Or.inl ⟨rfl, fun x y split more => ?_⟩
      exact absurd (List.append_eq_nil_iff.mp split.symm).2 more
  | cons cell rest ih =>
      intro D s reached
      obtain ⟨c, q⟩ := cell
      rw [scan]
      by_cases found : S.chars <:+: told lc spc D
      · rw [if_pos (reached.ready.found_iff.mpr found)]
        refine Or.inr ⟨[], c, q, rest, s, rfl, rfl, ?_, ?_⟩
        · rw [List.append_nil]
          exact reached
        · rw [List.append_nil]
          exact found
      · rw [if_neg fun h => found (reached.ready.found_iff.mp h)]
        obtain ⟨s', step, reached'⟩ := reached_step short enough reached found c q
        rw [step, Option.bind_some]
        rcases ih reached' with ⟨run, absent⟩ | ⟨x, d, r, y, s'', rfl, run, reached'', found'⟩
        · refine Or.inl ⟨run, fun x y split more => ?_⟩
          rcases List.append_eq_cons_iff.mp split.symm with ⟨rfl, -⟩ | ⟨x', rfl, split'⟩
          · rw [List.append_nil]
            exact found
          · rw [List.append_cons]
            exact absent x' y split' more
        · refine Or.inr ⟨(c, q) :: x, d, r, y, s'', rfl, run, ?_, ?_⟩
          · rw [List.append_cons]
            exact reached''
          · rw [List.append_cons]
            exact found'

end Run

section Found
variable {lc : UInt32 → UInt32} {P : UText} {spc : Bool}

structure FoundAt (lc : UInt32 → UInt32) (P : UText) (spc : Bool) (F D : List Cell) (start : Place)
    (d0 d1 : List Cell) (c : UInt32) (a : UText) : Prop where
  split : D = d0 ++ (c, start) :: d1
  other : isSpc c = false
  first : First P (told lc spc F) a
  told_eq : told lc spc D = a ++ P
  begins : told lc spc d0 <+: a
  exact' : norm' lc (chars ((c, start) :: d1)) = P ↔ Zero P a
  whole : told lc spc D = told lc spc d0 ++ norm' lc (chars ((c, start) :: d1))
  zero : Zero P a → told lc spc d0 = a

theorem told_concat (D : List Cell) (z : Cell) :
    told lc spc (D ++ [z]) = told lc spc D ∨
      told lc spc (D ++ [z]) = told lc spc D ++ [lc (toSpace z.1)] := by
  rw [told_append]
  rcases @fed_one lc (flag spc (chars D)) z.1 with none | one
  · exact Or.inl (by rw [show chars [z] = [z.1] from rfl, none, List.append_nil])
  · exact Or.inr (by rw [show chars [z] = [z.1] from rfl, one])

theorem found_first {F D : List Cell} (pre : D <+: F) (nonempty : P ≠ [])
    (before : ∀ x y, D = x ++ y → y ≠ [] → ¬ P <:+: told lc spc x) (found : P <:+: told lc spc D) :
    ∃ a, told lc spc D = a ++ P ∧ First P (told lc spc F) a := by
  rcases List.eq_nil_or_concat D with rfl | ⟨D', z, rfl⟩
  · exact absurd (List.infix_nil.mp found) nonempty
  rw [List.concat_eq_append] at *
  have absent := before D' [z] rfl (List.cons_ne_nil z [])
  rcases @told_concat lc spc D' z with none | one
  · rw [none] at found
    exact absurd found absent
  rw [one, List.infix_concat_iff] at found
  obtain ⟨a, eq⟩ := found.resolve_right absent
  have whole : told lc spc (D' ++ [z]) = a ++ P := one.trans eq.symm
  refine ⟨a, whole, ?_, fun b hb => ?_⟩
  · rw [← whole]
    exact told_mono pre
  · by_contra less
    have len := congrArg List.length eq
    simp only [List.length_append, List.length_cons, List.length_nil] at len
    have short : (b ++ P).length ≤ (told lc spc D').length := by
      rw [List.length_append]
      omega
    have inside := List.prefix_of_prefix_length_le hb
      (told_mono ((List.prefix_append D' [z]).trans pre)) short
    exact absent ((List.suffix_append b P).isInfix.trans inside.isInfix)

theorem found_at (keeps : KeepsSpaces lc) {F D : List Cell} {start : Place} (pre : D <+: F)
    (nonempty : P ≠ []) (head : ∀ c ∈ P.head?, isSpc c = false)
    (before : ∀ x y, D = x ++ y → y ≠ [] → ¬ P <:+: told lc spc x)
    (began : Began P (told lc spc) D start) (found : P <:+: told lc spc D) :
    ∃ d0 d1 c a, FoundAt lc P spc F D start d0 d1 c a := by
  obtain ⟨a, told_eq, first⟩ := found_first pre nonempty before found
  have some' : D ≠ [] := by
    rintro rfl
    exact nonempty (List.infix_nil.mp found)
  obtain ⟨d0, c, d1, split, zero, since⟩ := began some'
  have inside : told lc spc d0 <+: a ++ P := by
    rw [← told_eq, split]
    exact told_mono (List.prefix_append _ _)
  have begins : told lc spc d0 <+: a := by
    rcases Nat.le_total (told lc spc d0).length a.length with le | ge
    · exact List.prefix_of_prefix_length_le inside (List.prefix_append a P) le
    · obtain ⟨y, eq⟩ := List.prefix_of_prefix_length_le (List.prefix_append a P) inside ge
      rw [← eq, List.prefix_append_right_inj] at inside
      rcases List.eq_nil_or_concat y with rfl | ⟨y', z, rfl⟩
      · rw [← eq, List.append_nil]
      · have taken := List.prefix_iff_eq_take.mp inside
        refine absurd ?_ (zero (y'.concat z).length (by simp) inside.length_le)
        rw [← taken, ← eq]
        exact List.suffix_append a _
  have later : ¬ Zero P (told lc spc (d0 ++ [(c, start)])) := by
    cases d1 with
    | nil =>
        rw [← split, told_eq]
        intro h
        refine h P.length (List.length_pos_iff.mpr nonempty) (Nat.le_refl _) ?_
        rw [List.take_length]
        exact List.suffix_append a P
    | cons z d1 => exact since [] (z :: d1) rfl (List.cons_ne_nil z d1)
  have other : isSpc c = false := by
    by_contra h
    have hc : isSpc c = true := (Bool.not_eq_false _).mp h
    rcases @told_concat lc spc d0 (c, start) with none | one
    · rw [none] at later
      exact later zero
    · rw [one] at later
      refine later (zero.concat fun d hd => ?_)
      rintro rfl
      have spaced := head _ hd
      rw [keeps.isSpc_lc, isSpc_toSpace, hc] at spaced
      cases spaced
  have whole : told lc spc D = told lc spc d0 ++ norm' lc (chars ((c, start) :: d1)) := by
    rw [split, told_append, ← fed_false]
    rw [show chars ((c, start) :: d1) = c :: chars d1 from rfl, fed_other other, fed_other other]
  have zero_iff : Zero P a → told lc spc d0 = a := by
    intro zero_a
    by_contra ne
    have less : (told lc spc d0).length < a.length := by
      by_contra h
      exact ne (begins.eq_of_length_le (by omega))
    obtain ⟨u, v, cut, fed_u⟩ := @fed_take lc spc (chars D) a
      (by rw [← told, told_eq]; exact List.prefix_append a P)
    obtain ⟨D2, E2, rfl, chars_D2, -⟩ := List.map_eq_append_iff.mp cut
    have told_D2 : told lc spc D2 = a := by
      rw [told, chars, chars_D2, fed_u]
    rcases List.append_eq_append_iff.mp split with ⟨x, shorter, -⟩ | ⟨x, rfl, rest⟩
    · have := (@told_mono lc spc _ _ ⟨x, shorter.symm⟩).length_le
      rw [told_D2] at this
      omega
    · cases x with
      | nil =>
          rw [List.append_nil] at told_D2
          exact ne told_D2
      | cons z x =>
          obtain ⟨rfl, rest'⟩ := List.cons.inj rest
          refine since x E2 rest' ?_ (told_D2 ▸ zero_a)
          rintro rfl
          rw [List.append_nil, told_D2] at told_eq
          exact nonempty (List.self_eq_append_right.mp told_eq)
  refine ⟨d0, d1, c, a, split, other, first, told_eq, begins, ?_, whole, zero_iff⟩
  rw [told_eq] at whole
  constructor
  · intro same
    rw [same] at whole
    rw [List.append_cancel_right whole]
    exact zero
  · intro zero_a
    rw [zero_iff zero_a] at whole
    exact (List.append_cancel_left whole).symm

end Found

section Exact
variable {lc : UInt32 → UInt32} {P : UText} {spc : Bool}

/-- The end of a line is not the end of the pattern. -/
theorem told_space (keeps : KeepsSpaces lc) (last : ∀ c ∈ P.getLast?, isSpc c = false)
    {D : List Cell} {p : Place} (h : P <:+: told lc spc (D ++ [(space, p)])) :
    P <:+: told lc spc D := by
  rcases @told_concat lc spc D (space, p) with none | one
  · exact none ▸ h
  rw [one, List.infix_concat_iff] at h
  rcases h with ends | inside
  · rcases List.suffix_concat_iff.mp ends with rfl | ⟨u, rfl, -⟩
    · exact List.nil_infix
    · have spaced := last _ List.getLast?_concat
      rw [keeps.isSpc_lc, isSpc_toSpace] at spaced
      cases spaced
  · exact inside

variable {lines : List UText} {C0 A B C1 D d0 d1 : List Cell} {c d : UInt32} {a : UText}
  {m q : Place} {y : List Cell}

theorem marked_one (h : FoundAt lc P spc (A ++ B) D m d0 d1 c a) {u : List Cell}
    (split : cells 0 lines = u ++ (c, m) :: d1 ++ (d, q) :: y) :
    norm' lc (marked lines (m, q)) = P ↔ Zero P a := by
  rw [marked_split lines split]
  exact h.exact'

/-- A region that runs from the end of the text to its beginning. -/
theorem marked_around (nonempty : P ≠ []) (whole : cells 0 lines = C0 ++ A)
    (again : cells 0 lines = B ++ C1)
    (before : ∀ x y, D = x ++ y → y ≠ [] → ¬ P <:+: told lc spc x)
    (h : FoundAt lc P spc (A ++ B) D m d0 d1 c a) {x e : List Cell} (mark : A = d0 ++ (c, m) :: x)
    (cursor : B = e ++ (d, q) :: y) (rest : d1 = x ++ e) :
    norm' lc (marked lines (m, q)) ≠ P := by
  intro same
  have atMark : offset lines m = (C0 ++ d0).length :=
    cells_place lines (v := x) (by rw [whole, mark, List.append_assoc])
  have atCursor : offset lines q = e.length :=
    cells_place lines (v := y ++ C1) (by rw [again, cursor, List.append_assoc, List.cons_append])
  have region : marked lines (m, q) =
      chars (((c, m) :: x).take (e.length - (C0 ++ d0).length)) := by
    rw [marked, atMark, atCursor, ← cells_chars lines 0, whole, mark, ← List.append_assoc,
      List.drop_take, ← List.map_drop, List.drop_left, ← List.map_take, chars]
  rw [region] at same
  cases n : e.length - (C0 ++ d0).length with
  | zero =>
      rw [n] at same
      exact nonempty same.symm
  | succ n' =>
      rw [n, List.take_succ_cons] at same
      have split : D = (d0 ++ (c, m) :: x.take n') ++ (x.drop n' ++ e) := by
        rw [h.split, rest, List.append_assoc, List.cons_append, ← List.append_assoc (x.take n'),
          List.take_append_drop]
      refine before _ _ split ?_ ?_
      · intro none
        have := (List.append_eq_nil_iff.mp none).2
        rw [this, List.length_nil] at n
        omega
      · rw [told_append, show chars ((c, m) :: x.take n') = c :: chars (x.take n') from rfl,
          fed_other h.other, ← fed_other h.other false, fed_false]
        exact same ▸ (List.suffix_append _ _).isInfix

/-- The region is the occurrence if it begins where the occurrence does, and does not run from the
end of the text to its beginning. -/
theorem marked_exact (keeps : KeepsSpaces lc) (nonempty : P ≠ [])
    (last : ∀ c ∈ P.getLast?, isSpc c = false) (whole : cells 0 lines = C0 ++ A)
    (again : B = [] ∨ cells 0 lines = B ++ C1) (ends : ∃ u p, A = u ++ [(space, p)])
    (read : A ++ B = D ++ (d, q) :: y)
    (before : ∀ x y, D = x ++ y → y ≠ [] → ¬ P <:+: told lc spc x)
    (h : FoundAt lc P spc (A ++ B) D m d0 d1 c a) :
    norm' lc (marked lines (m, q)) = P ↔ Zero P a ∧
      ¬ (a.length < (told lc spc A).length ∧ (told lc spc A).length < a.length + P.length) := by
  have found : P <:+: told lc spc D := by
    rw [h.told_eq]
    exact (List.suffix_append a P).isInfix
  have length : (told lc spc D).length = a.length + P.length := by
    rw [h.told_eq, List.length_append]
  have notEnd : ∀ e, D = A ++ e → ¬ P <:+: told lc spc A := by
    intro e behind inside
    obtain ⟨u, p, rfl⟩ := ends
    refine before u ((space, p) :: e) ?_ (List.cons_ne_nil _ _) (told_space keeps last inside)
    rw [behind, List.append_assoc, List.singleton_append]
  rcases List.append_eq_append_iff.mp read with ⟨e, behind, cursor⟩ | ⟨e, ahead, cursor⟩
  · -- the cursor is in the text that is read again
    have again : cells 0 lines = B ++ C1 := again.resolve_left (by rw [cursor]; simp)
    have shorter : (told lc spc A).length < a.length + P.length := by
      have pre : told lc spc A <+: told lc spc D := told_mono ⟨e, behind.symm⟩
      rw [← length]
      refine Nat.lt_of_le_of_ne pre.length_le fun same => notEnd e behind ?_
      rw [pre.eq_of_length same]
      exact found
    have afterwards : ∀ x, d0 = A ++ x → e = x ++ (c, m) :: d1 →
        (norm' lc (marked lines (m, q)) = P ↔ Zero P a ∧ ¬ (a.length < (told lc spc A).length ∧
          (told lc spc A).length < a.length + P.length)) := by
      intro x mark rest
      have longer : (told lc spc A).length ≤ a.length :=
        ((told_mono ⟨x, mark.symm⟩).trans h.begins).length_le
      rw [marked_one (u := x) (d := d) (y := y ++ C1) h (by rw [again, cursor, rest]; simp)]
      exact ⟨fun zero => ⟨zero, by omega⟩, And.left⟩
    rcases List.append_eq_append_iff.mp (h.split.symm.trans behind) with
      ⟨x, mark, rest⟩ | ⟨x, mark, rest⟩
    · cases x with
      | nil =>
          rw [List.append_nil] at mark
          exact afterwards [] (by rw [mark, List.append_nil]) rest.symm
      | cons z x =>
          obtain ⟨rfl, rest'⟩ := List.cons.inj rest
          refine iff_of_false (marked_around nonempty whole again before h mark cursor rest') ?_
          rintro ⟨zero, apart⟩
          refine apart ⟨?_, shorter⟩
          rw [← h.zero zero, mark, told_append,
            show chars ((c, m) :: x) = c :: chars x from rfl, fed_other h.other,
            List.length_append, List.length_cons]
          omega
    · exact afterwards x mark rest
  · cases e with
    | nil =>
        rw [List.append_nil] at ahead
        exact absurd (ahead ▸ found) (notEnd [] (by rw [ahead, List.append_nil]))
    | cons z e =>
        -- the whole region is in the text that is read first
        obtain ⟨rfl, -⟩ := List.cons.inj cursor
        have longer : a.length + P.length ≤ (told lc spc A).length := by
          rw [← length]
          exact (told_mono ⟨_, ahead.symm⟩).length_le
        rw [marked_one (u := C0 ++ d0) (d := d) (y := e) h (by rw [whole, ahead, h.split]; simp)]
        exact ⟨fun zero => ⟨zero, by omega⟩, And.left⟩

end Exact

/-! ## What the search does -/

section Claims
variable (lc : UInt32 → UInt32) (lines : List UText) (doWrap : Bool) (cursor : Place)

def pattern (e : Searchengine) : UText :=
  match e.string with
  | none => []
  | some s => s.chars

def searched : UText := if doWrap then text lines else (text lines).drop (offset lines cursor)

def readFirst : UText := (text lines).drop (offset lines cursor)

def readAgain : UText := if doWrap then text (lines.take (cursor.1 + 1)) else []

def FindsExactly (searchEngine : Searchengine × Bool) : Prop :=
  ∃ result, search lc lines doWrap searchEngine cursor = some result ∧
    (result.isSome = true ↔ pattern searchEngine.1 <:+: norm' lc (searched lines doWrap cursor)) ∧
    ∀ region ∈ result, norm' lc (marked lines region) = pattern searchEngine.1

def OccursApart (searchEngine : Searchengine × Bool) : Prop :=
  let P := pattern searchEngine.1
  let first := fed lc searchEngine.2 (readFirst lines cursor)
  (P <:+: norm' lc (searched lines doWrap cursor) →
    P <:+: norm' lc (readFirst lines cursor ++ readAgain lines doWrap cursor)) ∧
  ∀ a, First P (fed lc searchEngine.2 (readFirst lines cursor ++ readAgain lines doWrap cursor)) a →
    Zero P a ∧ ¬ (a.length < first.length ∧ first.length < a.length + P.length)

end Claims

section Claims
variable {lc : UInt32 → UInt32} {lines : List UText} {doWrap : Bool} {cursor : Place}

theorem kept_length (p : UText) : (kept p).length ≤ p.length := by
  have firsts_length : ∀ (after : Bool) (l : UText), (firsts after l).length ≤ l.length := by
    intro after l
    induction l generalizing after with
    | nil => exact Nat.le_refl _
    | cons c l ih =>
        have := ih true
        have := ih false
        cases hc : isSpc c with
        | true =>
            rw [firsts_spc hc, List.length_append, List.length_cons]
            cases after <;> simp <;> omega
        | false =>
            rw [firsts_other hc, List.length_cons, List.length_cons]
            omega
  have pre : kept p <+: firsts true p := List.rdropWhile_prefix _ _
  exact pre.length_le.trans (firsts_length true p)

theorem last_kept (keeps : KeepsSpaces lc) (p : UText) :
    ∀ c ∈ ((kept p).map lc).getLast?, isSpc c = false := by
  intro c hc
  rw [List.getLast?_map] at hc
  obtain ⟨d, hd, rfl⟩ := Option.map_eq_some_iff.mp hc
  rw [keeps.isSpc_lc]
  obtain ⟨some', rfl⟩ := List.mem_getLast?_eq_getLast hd
  exact (Bool.not_eq_true _).mp (List.rdropWhile_last_not isSpc (firsts true p) some')

theorem started_engine (keeps : KeepsSpaces lc) {p : UnicodeString} {fresh : Nat → Nat}
    {old sei : Searchengine} {fuel : Nat} (enough : 2 * p.chars.length < fuel)
    (started : searchStartStrChset lc fuel fresh old p = some sei) :
    ∃ S : UnicodeString, S.chars = (kept p.chars).map lc ∧ S.chars.length < 2 ^ 32 ∧
      Ready S (searchReset sei) [] ∧ sei.string_l = S.chars.length ∧ sei.string = some S := by
  obtain ⟨S, chars, begun⟩ := start_eq keeps p
  have length : S.chars.length ≤ p.chars.length := by
    rw [chars, List.length_map]
    exact kept_length p.chars
  rw [(begun fuel fresh old).resolve_right fun h => by omega] at started
  have short : S.chars.length < 2 ^ 32 := by
    by_contra long
    rw [searchStartUnicode, clearLoop_long (Nat.not_lt.mp long) _ 0 fresh (by decide)] at started
    cases started
  obtain ⟨sei', start, ready⟩ := searchStart_ready short fresh old (by omega : _ < fuel)
  obtain rfl := Option.some.inj (start.symm.trans started)
  have kept' : sei'.string = some S ∧ sei'.string_l = S.chars.length := by
    rw [searchStartUnicode] at started
    split at started
    · cases started
    · split at started
      · cases started
      · cases started
        exact ⟨rfl, rfl⟩
  exact ⟨S, chars, short, ⟨kept'.1, ready.table, tracks_nil⟩, kept'.2, kept'.1⟩

theorem infix_norm_append (keeps : KeepsSpaces lc) {P : UText}
    (head : ∀ c ∈ P.head?, isSpc c = false) {u v : UText}
    (h : P <:+: norm' lc u ∨ P <:+: norm' lc v) : P <:+: norm' lc (u ++ v) := by
  rw [← fed_false, fed_append]
  rcases h with left | right
  · rw [fed_false]
    exact left.trans (List.prefix_append _ _).isInfix
  · rw [← infix_fed keeps head (flag false u)] at right
    exact right.trans (List.suffix_append _ _).isInfix

/-- An occurrence that does not run from the end of the text to its beginning is in the text. -/
theorem infix_searched (keeps : KeepsSpaces lc) {P : UText} (nonempty : P ≠ [])
    (head : ∀ c ∈ P.head?, isSpc c = false) {spc : Bool} {a : UText}
    (occurs : a ++ P <+: fed lc spc (readFirst lines cursor ++ readAgain lines doWrap cursor))
    (apart : ¬ (a.length < (fed lc spc (readFirst lines cursor)).length ∧
      (fed lc spc (readFirst lines cursor)).length < a.length + P.length)) :
    P <:+: norm' lc (searched lines doWrap cursor) := by
  have whole : text lines =
      (text lines).take (offset lines cursor) ++ readFirst lines cursor :=
    (List.take_append_drop _ _).symm
  rw [fed_append] at occurs
  by_cases inFirst : a.length + P.length ≤ (fed lc spc (readFirst lines cursor)).length
  · have pre := List.prefix_of_prefix_length_le occurs (List.prefix_append _ _)
      (by rw [List.length_append]; exact inFirst)
    have inside := (infix_fed keeps head spc _).mp
      ((List.suffix_append a P).isInfix.trans pre.isInfix)
    rw [searched]
    cases doWrap with
    | false => exact inside
    | true =>
        rw [if_pos rfl, whole]
        exact infix_norm_append keeps head (Or.inr inside)
  · have pre := List.prefix_of_prefix_length_le (List.prefix_append _ _)
      ((List.prefix_append a P).trans occurs) (by omega)
    obtain ⟨b, rfl⟩ := pre
    rw [List.append_assoc, List.prefix_append_right_inj] at occurs
    have inside := (infix_fed keeps head _ _).mp
      ((List.suffix_append b P).isInfix.trans occurs.isInfix)
    rw [readAgain] at inside
    cases doWrap with
    | false => exact absurd (List.infix_nil.mp inside) nonempty
    | true =>
        rw [if_pos rfl] at inside
        have begins : text lines = text (lines.take (cursor.1 + 1)) ++
            text (lines.drop (cursor.1 + 1)) := by
          rw [text, text, text, ← List.flatMap_append, List.take_append_drop]
        rw [searched, if_pos rfl, begins]
        exact infix_norm_append keeps head (Or.inl inside)

theorem search_scan (searchEngine : Searchengine × Bool) (row : cursor.1 < lines.length)
    (pos : cursor.2 ≤ (lines.getD cursor.1 []).length) :
    ∃ A B C1, search lc lines doWrap searchEngine cursor =
        scan lc searchEngine.1.string_l (A ++ B) ⟨reset searchEngine, cursor⟩ ∧
      cells 0 lines = (cells 0 lines).take (offset lines cursor) ++ A ∧
      (B = [] ∨ cells 0 lines = B ++ C1) ∧ (∃ u p, A = u ++ [(space, p)]) ∧
      (∃ u p, A ++ B = u ++ [(space, p)]) ∧
      chars A = readFirst lines cursor ∧ chars B = readAgain lines doWrap cursor ∧
      ∀ c q rest, A = (c, q) :: rest → offset lines q = offset lines cursor := by
  have nonempty : lines ≠ [] := List.ne_nil_of_length_pos (by omega)
  have inside : offset lines cursor < (cells 0 lines).length := by
    have split : text lines = text (lines.take cursor.1) ++ (lines[cursor.1] ++ [space]) ++
        text (lines.drop (cursor.1 + 1)) := by
      conv_lhs => rw [← List.take_append_drop cursor.1 lines, List.drop_eq_getElem_cons row]
      rw [text, List.flatMap_append, List.flatMap_cons, ← List.append_assoc]
      rfl
    rw [List.getD_eq_getElem _ _ row] at pos
    rw [cells_length, split, offset]
    simp only [List.length_append, List.length_cons, List.length_nil]
    omega
  obtain ⟨u, p, last⟩ := cells_end nonempty 0
  have ends : ∃ u p, (cells 0 lines).drop (offset lines cursor) = u ++ [(space, p)] := by
    refine ⟨u.drop (offset lines cursor), p, ?_⟩
    rw [last, List.length_append, List.length_cons, List.length_nil] at inside
    rw [last, List.drop_append_of_le_length (by omega)]
  refine ⟨(cells 0 lines).drop (offset lines cursor),
    if doWrap then cells 0 (lines.take (cursor.1 + 1)) else [],
    cells (cursor.1 + 1) (lines.drop (cursor.1 + 1)), ?_, (List.take_append_drop _ _).symm, ?_,
    ends, ?_, ?_, ?_, ?_⟩
  · rw [search, searchRows_eq, ahead_eq lines doWrap row pos]
  · cases doWrap with
    | false => exact Or.inl rfl
    | true =>
        refine Or.inr ?_
        conv_lhs => rw [← List.take_append_drop (cursor.1 + 1) lines, cells_append]
        rw [List.length_take_of_le row, Nat.zero_add]
        rfl
  · cases doWrap with
    | false =>
        rw [if_neg Bool.false_ne_true, List.append_nil]
        exact ends
    | true =>
        have some' : lines.take (cursor.1 + 1) ≠ [] :=
          List.ne_nil_of_length_pos (by rw [List.length_take_of_le row]; omega)
        obtain ⟨v, q, eq⟩ := cells_end some' 0
        exact ⟨_ ++ v, q, by rw [if_pos rfl, eq, List.append_assoc]⟩
  · rw [chars, List.map_drop, cells_chars]
    rfl
  · rw [chars, readAgain]
    cases doWrap with
    | false => rfl
    | true => exact cells_chars _ 0
  · intro c q rest first
    have split : cells 0 lines = (cells 0 lines).take (offset lines cursor) ++ (c, q) :: rest := by
      rw [← first, List.take_append_drop]
    rw [cells_place lines split, List.length_take_of_le (by omega)]

/-- The pattern `aab` in the line `aaab`. -/
def aab : UnicodeString := ⟨[0x61, 0x61, 0x62], by simp⟩

def aaab : List UText := [[0x61, 0x61, 0x61, 0x62]]

end Claims

end Cone.EditMessageSearch
