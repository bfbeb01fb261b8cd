import Mathlib.Data.List.DropRight
import Cone.Maildirsearch

/-! # Search without regard to case and whitespace (`maildirsearch.c`, `maildirsearch.h`)

`maildir_search_start_str_chset` prepares the pattern, once it is converted to Unicode, and
`maildir_search_step_unicode_lc` the text. -/
set_option autoImplicit false
namespace Cone.Maildirsearch

/-! ## Lower case (`unicode_ultcase.c`) -/

/-- `unicode_case_hash`, `unicode_case_tab` and `unicode_case_offset`, a generated file. -/
structure CaseTables where
  hash : Nat
  tab : Array (UInt32 × UInt32 × UInt32 × UInt32)
  offset : Array Nat

section Lower
variable (t : CaseTables)

def findCaseLoop (c : UInt32) (idx : Nat) : Nat → Nat → Nat
  | 0, _ => 0
  | fuel + 1, i =>
    let uc := (t.tab.getD i (0, 0, 0, 0)).1
    if uc = c then i
    else if uc.toNat % t.hash = idx then findCaseLoop c idx fuel (i + 1)
    else 0

def findCase (c : UInt32) : Nat :=
  let idx := c.toNat % t.hash
  findCaseLoop t c idx (t.tab.size + 1) (t.offset.getD idx 0)

def unicodeLc (c : UInt32) : UInt32 :=
  let row := t.tab.getD (findCase t c) (0, 0, 0, 0)
  if row.1 ≠ c then c else row.2.2.1

end Lower

def isSpc (c : UInt32) : Bool := c = 0x20 || c = 0x09 || c = 0x0D || c = 0x0A

def space : UInt32 := 0x20

def CaseTables.NoSpaces (t : CaseTables) : Prop :=
  ∀ row ∈ t.tab, isSpc row.1 = false ∧ isSpc row.2.2.1 = false ∧ row.2.2.1 ≠ 0

/-! ## The pattern -/

section Pattern
variable (lc : UInt32 → UInt32)

/-- The inner loop: what is written so far, and what begins at the character at hand, the `i`-th.
That character may be the one that was just written. -/
def copyLoop : Nat → List UInt32 → List UInt32 → Nat × List UInt32 × List UInt32
  | i, out, [] => (i, out, [])
  | i, out, c :: rest =>
    let c' := if out.length = i then lc c else c
    if isSpc c' then (i, out ++ [lc c], c' :: rest)
    else copyLoop (i + 1) (out ++ [lc c]) rest

def compactLoop : Nat → Nat → List UInt32 → List UInt32 → Option (List UInt32)
  | 0, _, _, _ => none
  | _ + 1, _, out, [] => some out
  | fuel + 1, i, out, c :: rest =>
    let unread := (c :: rest).dropWhile isSpc
    let i := i + ((c :: rest).length - unread.length)
    if unread = [] then some out
    else
      let r := copyLoop lc i out unread
      compactLoop fuel r.1 r.2.1 r.2.2

def UnicodeString.ofBuffer (buf : List UInt32) : UnicodeString where
  chars := buf.takeWhile (· ≠ 0)
  nonzero := by
    intro c hc
    have kept := List.mem_takeWhile_imp hc
    exact of_decide_eq_true kept

/-- `maildir_search_start_str_chset`, after the conversion. -/
def searchStartStrChset (fuel : Nat) (fresh : Nat → Nat) (sei : Searchengine)
    (ucptr : UnicodeString) : Option Searchengine :=
  match compactLoop lc fuel 0 [] ucptr.chars with
  | none => none
  | some out =>
    searchStartUnicode (UnicodeString.ofBuffer (out.rdropWhile isSpc)) fuel fresh sei

end Pattern

/-! ## The text -/

section Text
variable (lc : UInt32 → UInt32) (fuel : Nat)

/-- `maildir_search_step_unicode_lc`, with the flag `spc` of the engine. -/
def searchStepUnicodeLc (sei : Searchengine × Bool) (ch : UInt32) : Option (Searchengine × Bool) :=
  let spc := isSpc ch
  let c := if spc then space else ch
  if spc && sei.2 then some (sei.1, spc)
  else (searchStepUnicode fuel sei.1 (lc c)).map fun e => (e, spc)

def searchTextLc (sei : Searchengine × Bool) (text : List UInt32) : Option (Searchengine × Bool) :=
  text.foldlM (searchStepUnicodeLc lc fuel) sei

end Text

/-! ## What the header says -/

def collapse : List UInt32 → List UInt32
  | [] => []
  | c :: text =>
    if isSpc c then
      if text.head?.any isSpc then collapse text else space :: collapse text
    else c :: collapse text

def norm' (lc : UInt32 → UInt32) (text : List UInt32) : List UInt32 := (collapse text).map lc

def norm (lc : UInt32 → UInt32) (pattern : List UInt32) : List UInt32 :=
  (((collapse pattern).dropWhile isSpc).rdropWhile isSpc).map lc

/-- The pattern can be started, whatever the engine did before, and then any text is said to have
it if and only if the one, made uniform, occurs in the other. -/
def Finds (lc : UInt32 → UInt32) (p : UnicodeString) (fresh : Nat → Nat) (old : Searchengine) :
    Prop :=
  ∃ enough, ∀ fuel, enough ≤ fuel → ∃ sei, searchStartStrChset lc fuel fresh old p = some sei ∧
    ∀ spc text, ∃ sei', searchTextLc lc fuel (sei, spc) text = some sei' ∧
      (searchFound sei'.1 = true ↔ norm lc p.chars <:+: norm' lc text)

/-- Every run of whitespace between two other characters begins with a space. -/
def SpacesFirst (p : List UInt32) : Prop :=
  ∀ u a s w, p = u ++ a :: s :: w → isSpc a = false → isSpc s = true →
    (∃ d ∈ w, isSpc d = false) → s = space

/-! ## Lower case keeps whitespace apart -/

structure KeepsSpaces (lc : UInt32 → UInt32) : Prop where
  space : ∀ c, isSpc c = true → lc c = c
  other : ∀ c, isSpc c = false → isSpc (lc c) = false
  nonzero : ∀ c, c ≠ 0 → lc c ≠ 0

theorem unicodeLc_cases (t : CaseTables) (c : UInt32) :
    unicodeLc t c = c ∨ ∃ row ∈ t.tab, row.1 = c ∧ unicodeLc t c = row.2.2.1 := by
  rw [unicodeLc]
  by_cases h : findCase t c < t.tab.size
  · simp only [Array.getD_eq_getD_getElem?, Array.getElem?_eq_getElem h, Option.getD_some]
    by_cases same : t.tab[findCase t c].1 = c
    · rw [if_neg (not_not.mpr same)]
      exact Or.inr ⟨_, Array.getElem_mem h, same, rfl⟩
    · rw [if_pos same]
      exact Or.inl rfl
  · simp only [Array.getD_eq_getD_getElem?, Array.getElem?_eq_none (Nat.not_lt.mp h),
      Option.getD_none]
    by_cases zero : (0 : UInt32) = c
    · rw [if_neg (not_not.mpr zero)]
      exact Or.inl zero
    · rw [if_pos zero]
      exact Or.inl rfl

theorem keepsSpaces {t : CaseTables} (h : t.NoSpaces) : KeepsSpaces (unicodeLc t) := by
  refine ⟨fun c spc => ?_, fun c other => ?_, fun c some' => ?_⟩
  · rcases unicodeLc_cases t c with same | ⟨row, mem, rfl, -⟩
    · exact same
    · exact absurd spc (Bool.eq_false_iff.mp (h row mem).1)
  · rcases unicodeLc_cases t c with same | ⟨row, mem, -, lower⟩
    · rw [same, other]
    · rw [lower]
      exact (h row mem).2.1
  · rcases unicodeLc_cases t c with same | ⟨row, mem, -, lower⟩
    · rw [same]
      exact some'
    · rw [lower]
      exact (h row mem).2.2

theorem KeepsSpaces.isSpc_lc {lc : UInt32 → UInt32} (keeps : KeepsSpaces lc) (c : UInt32) :
    isSpc (lc c) = isSpc c := by
  cases h : isSpc c with
  | true => rw [keeps.space c h, h]
  | false => exact keeps.other c h

/-! ## Runs of whitespace -/

/-- The first character of each run of whitespace; `after` is whether one was read before. -/
def firsts : Bool → List UInt32 → List UInt32
  | _, [] => []
  | after, c :: text =>
    if isSpc c then (if after then firsts true text else c :: firsts true text)
    else c :: firsts false text

def toSpace (c : UInt32) : UInt32 := if isSpc c then space else c

section Firsts
variable {c : UInt32} {text : List UInt32}

theorem firsts_spc (spc : isSpc c = true) (after : Bool) :
    firsts after (c :: text) = (if after then [] else [c]) ++ firsts true text := by
  rw [firsts, if_pos spc]
  cases after <;> rfl

theorem firsts_other (other : isSpc c = false) (after : Bool) :
    firsts after (c :: text) = c :: firsts false text := by
  rw [firsts, if_neg (Bool.eq_false_iff.mp other)]

theorem firsts_start (h : text.head?.any isSpc = false) : firsts true text = firsts false text := by
  cases text with
  | nil => rfl
  | cons c text => rw [firsts_other h, firsts_other h]

theorem firsts_dropWhile (text : List UInt32) :
    firsts true (text.dropWhile isSpc) = firsts true text := by
  induction text with
  | nil => rfl
  | cons c text ih =>
      rw [List.dropWhile_cons]
      cases spc : isSpc c with
      | true => rw [if_pos rfl, ih, firsts_spc spc, if_pos rfl, List.nil_append]
      | false => rw [if_neg Bool.false_ne_true]

theorem collapse_eq (text : List UInt32) : collapse text = (firsts false text).map toSpace := by
  induction text with
  | nil => rfl
  | cons c text ih =>
      rw [collapse]
      cases spc : isSpc c with
      | false => rw [if_neg Bool.false_ne_true, firsts_other spc, List.map_cons, ih, toSpace, spc]; rfl
      | true =>
          rw [if_pos rfl, firsts_spc spc, if_neg Bool.false_ne_true, List.singleton_append,
            List.map_cons, toSpace, if_pos spc]
          cases next : text.head?.any isSpc with
          | false => rw [if_neg Bool.false_ne_true, ih, firsts_start next]
          | true =>
              cases text with
              | nil => cases next
              | cons d text =>
                  have spc' : isSpc d = true := next
                  rw [if_pos rfl, ih, firsts_spc spc', firsts_spc spc', if_neg Bool.false_ne_true,
                    if_pos rfl, List.singleton_append, List.map_cons, toSpace, if_pos spc',
                    List.nil_append]

theorem isSpc_toSpace (c : UInt32) : isSpc (toSpace c) = isSpc c := by
  rw [toSpace]
  cases spc : isSpc c with
  | true => rfl
  | false => rw [if_neg Bool.false_ne_true, spc]

theorem firsts_head (h : text.head?.any isSpc = true) :
    ∃ s, isSpc s = true ∧ firsts false text = s :: firsts true text := by
  cases text with
  | nil => cases h
  | cons c text =>
      have spc : isSpc c = true := h
      exact ⟨c, spc, by rw [firsts_spc spc, firsts_spc spc]; rfl⟩

theorem head_firsts (text : List UInt32) : ∀ c ∈ (firsts true text).head?, isSpc c = false := by
  induction text with
  | nil => intro c hc; cases hc
  | cons d text ih =>
      cases spc : isSpc d with
      | true =>
          rw [firsts_spc spc, if_pos rfl, List.nil_append]
          exact ih
      | false =>
          rw [firsts_other spc]
          intro c hc
          rw [← Option.some.inj hc, spc]

theorem dropWhile_collapse (text : List UInt32) :
    (collapse text).dropWhile isSpc = (firsts true text).map toSpace := by
  have start : ((firsts true text).map toSpace).dropWhile isSpc = (firsts true text).map toSpace := by
    cases h : firsts true text with
    | nil => rfl
    | cons c rest =>
        have other := head_firsts text c (by rw [h]; rfl)
        rw [List.map_cons, List.dropWhile_cons, isSpc_toSpace, other, if_neg Bool.false_ne_true]
  rw [collapse_eq]
  cases h : text.head?.any isSpc with
  | false => rw [← firsts_start h, start]
  | true =>
      obtain ⟨s, spc, eq⟩ := firsts_head h
      rw [eq, List.map_cons, List.dropWhile_cons, isSpc_toSpace, spc, if_pos rfl, start]

theorem rdropWhile_map {f : UInt32 → UInt32} (h : ∀ c, isSpc (f c) = isSpc c) (l : List UInt32) :
    (l.map f).rdropWhile isSpc = (l.rdropWhile isSpc).map f := by
  rw [List.rdropWhile, List.rdropWhile, ← List.map_reverse, List.dropWhile_map, List.map_reverse]
  rw [show isSpc ∘ f = isSpc from funext h]

end Firsts

theorem firsts_subset (after : Bool) (text : List UInt32) : firsts after text ⊆ text := by
  induction text generalizing after with
  | nil => exact List.Subset.refl _
  | cons c text ih =>
      cases spc : isSpc c with
      | true =>
          rw [firsts_spc spc]
          refine List.append_subset.mpr ⟨?_, fun d hd => List.mem_cons_of_mem _ (ih true hd)⟩
          cases after
          · exact List.cons_subset_cons c (List.nil_subset _)
          · exact List.nil_subset _
      | false =>
          rw [firsts_other spc]
          exact List.cons_subset_cons c (ih false)

def kept (p : List UInt32) : List UInt32 := (firsts true p).rdropWhile isSpc

theorem norm_eq (lc : UInt32 → UInt32) (p : List UInt32) :
    norm lc p = ((kept p).map toSpace).map lc := by
  rw [norm, dropWhile_collapse, rdropWhile_map isSpc_toSpace, kept]

/-! ## The loops over the pattern -/

section Loops
variable {lc : UInt32 → UInt32} (keeps : KeepsSpaces lc)
include keeps

/-- A word, and the character after it if there is one. -/
theorem copyLoop_eq (i : Nat) (out rest : List UInt32) :
    ∃ i', copyLoop lc i out rest = (i', out ++ (rest.takeWhile (! isSpc ·) ++
      (rest.dropWhile (! isSpc ·)).head?.toList).map lc, rest.dropWhile (! isSpc ·)) := by
  induction rest generalizing i out with
  | nil => exact ⟨i, by rw [copyLoop]; simp⟩
  | cons c rest ih =>
      have same : isSpc (if out.length = i then lc c else c) = isSpc c := by
        split
        · exact keeps.isSpc_lc c
        · rfl
      rw [copyLoop]
      simp only [same]
      cases spc : isSpc c with
      | true =>
          have unchanged : (if out.length = i then lc c else c) = c := by
            rw [keeps.space c spc, ite_self]
          rw [if_pos rfl, unchanged]
          exact ⟨i, by simp [spc]⟩
      | false =>
          rw [if_neg Bool.false_ne_true]
          obtain ⟨i', loop⟩ := ih (i + 1) (out ++ [lc c])
          exact ⟨i', by rw [loop]; simp [spc]⟩

omit keeps in
theorem firsts_word (l : List UInt32) :
    firsts false l = l.takeWhile (! isSpc ·) ++ (l.dropWhile (! isSpc ·)).head?.toList ++
      firsts true (l.dropWhile (! isSpc ·)) := by
  induction l with
  | nil => rfl
  | cons c l ih =>
      cases spc : isSpc c with
      | true => simp [firsts, spc]
      | false =>
          rw [firsts_other spc, ih]
          simp [spc]

/-- The outer loop comes to its end in as many rounds as there are characters. -/
theorem compactLoop_eq (fuel : Nat) (rest : List UInt32) (i : Nat) (out : List UInt32) :
    compactLoop lc fuel i out rest = some (out ++ (firsts true rest).map lc) ∨
      (compactLoop lc fuel i out rest = none ∧ fuel ≤ rest.length) := by
  induction fuel generalizing i out rest with
  | zero => exact Or.inr ⟨rfl, Nat.zero_le _⟩
  | succ fuel ih =>
      cases rest with
      | nil => exact Or.inl (by rw [compactLoop]; simp [firsts])
      | cons c rest =>
          rw [compactLoop]
          cases unread : (c :: rest).dropWhile isSpc with
          | nil =>
              rw [if_pos rfl, ← firsts_dropWhile, unread]
              exact Or.inl (by simp [firsts])
          | cons d tail =>
              have other : isSpc d = false := by
                have h := List.head?_dropWhile_not isSpc (c :: rest)
                rw [unread] at h
                simpa using h
              have shorter : (d :: tail).length ≤ (c :: rest).length := by
                rw [← unread]
                exact (List.dropWhile_suffix _).length_le
              rw [if_neg (List.cons_ne_nil d tail)]
              obtain ⟨i', loop⟩ := copyLoop_eq keeps
                (i + ((c :: rest).length - (d :: tail).length)) out (d :: tail)
              simp only [loop]
              have left : ((d :: tail).dropWhile (! isSpc ·)).length ≤ tail.length := by
                rw [List.dropWhile_cons, other]
                exact (List.dropWhile_suffix _).length_le
              rcases ih ((d :: tail).dropWhile (! isSpc ·)) i' _ with done | ⟨out, less⟩
              · rw [done, ← firsts_dropWhile (c :: rest), unread,
                  firsts_start (show (d :: tail).head?.any isSpc = false from other),
                  firsts_word (d :: tail)]
                exact Or.inl (by simp)
              · refine Or.inr ⟨out, ?_⟩
                simp only [List.length_cons] at *
                omega

theorem start_eq (p : UnicodeString) :
    ∃ s : UnicodeString, s.chars = (kept p.chars).map lc ∧ ∀ fuel fresh sei,
      searchStartStrChset lc fuel fresh sei p = searchStartUnicode s fuel fresh sei ∨
        (searchStartStrChset lc fuel fresh sei p = none ∧ fuel ≤ p.chars.length) := by
  have buffer : ((firsts true p.chars).map lc).rdropWhile isSpc = (kept p.chars).map lc :=
    rdropWhile_map keeps.isSpc_lc _
  refine ⟨UnicodeString.ofBuffer ((kept p.chars).map lc), ?_, ?_⟩
  · have nonzero : ∀ c ∈ (kept p.chars).map lc, c ≠ 0 := by
      intro c hc
      obtain ⟨d, hd, rfl⟩ := List.mem_map.mp hc
      exact keeps.nonzero d (p.nonzero d (firsts_subset true p.chars
        ((List.rdropWhile_prefix isSpc _).subset hd)))
    exact List.takeWhile_eq_self_iff.mpr fun c hc => decide_eq_true (nonzero c hc)
  · intro fuel fresh sei
    rw [searchStartStrChset]
    rcases compactLoop_eq keeps fuel p.chars 0 [] with done | ⟨out, less⟩
    · rw [done]
      simp only [List.nil_append]
      rw [buffer]
      exact Or.inl rfl
    · rw [out]
      exact Or.inr ⟨rfl, less⟩

end Loops

/-! ## The text as it is fed -/

/-- The characters that reach the engine. -/
def fed (lc : UInt32 → UInt32) (after : Bool) (text : List UInt32) : List UInt32 :=
  ((firsts after text).map toSpace).map lc

section Feed
variable {lc : UInt32 → UInt32}

theorem searchTextLc_eq (fuel : Nat) (text : List UInt32) (e : Searchengine) (spc : Bool) :
    ∃ spc', searchTextLc lc fuel (e, spc) text =
      (searchText fuel e (fed lc spc text)).map fun e' => (e', spc') := by
  induction text generalizing e spc with
  | nil => exact ⟨spc, rfl⟩
  | cons c text ih =>
      rw [searchTextLc, List.foldlM_cons, searchStepUnicodeLc]
      cases hc : isSpc c with
      | true =>
          cases spc with
          | true =>
              obtain ⟨spc', run⟩ := ih e true
              refine ⟨spc', ?_⟩
              rw [fed, firsts_spc hc]
              exact run
          | false =>
              rw [fed, firsts_spc hc]
              cases step : searchStepUnicode fuel e (lc space) with
              | none =>
                  refine ⟨true, ?_⟩
                  simp [step, searchText, toSpace, hc]
              | some e' =>
                  obtain ⟨spc', run⟩ := ih e' true
                  refine ⟨spc', ?_⟩
                  simpa [step, searchText, searchTextLc, toSpace, hc, fed] using run
      | false =>
          rw [fed, firsts_other hc]
          cases step : searchStepUnicode fuel e (lc c) with
          | none =>
              refine ⟨true, ?_⟩
              simp [step, searchText, toSpace, hc]
          | some e' =>
              obtain ⟨spc', run⟩ := ih e' false
              refine ⟨spc', ?_⟩
              simpa [step, searchText, searchTextLc, toSpace, hc, fed] using run

theorem fed_false (text : List UInt32) : fed lc false text = norm' lc text := by
  rw [fed, norm', collapse_eq]

/-- A pattern that does not begin with whitespace is not missed when a space at the beginning of
the text is. -/
theorem infix_fed (keeps : KeepsSpaces lc) {p : List UInt32} (start : ∀ c ∈ p.head?, isSpc c = false)
    (spc : Bool) (text : List UInt32) : p <:+: fed lc spc text ↔ p <:+: norm' lc text := by
  rw [← fed_false]
  cases spc with
  | false => exact Iff.rfl
  | true =>
      cases h : text.head?.any isSpc with
      | false => rw [fed, fed, firsts_start h]
      | true =>
          obtain ⟨s, hs, eq⟩ := firsts_head h
          have cons : fed lc false text = lc (toSpace s) :: fed lc true text := by
            rw [fed, eq]
            rfl
          rw [cons, List.infix_cons_iff]
          constructor
          · exact Or.inr
          · rintro (pre | inside)
            · cases p with
              | nil => exact List.nil_infix
              | cons c p =>
                  have same := (List.cons_prefix_cons.mp pre).1
                  have other := start c rfl
                  rw [same, keeps.isSpc_lc, isSpc_toSpace, hs] at other
                  cases other
            · exact inside

end Feed

/-! ## The whitespace that is kept -/

theorem all_spc_firsts (after : Bool) (l : List UInt32) :
    (∃ d ∈ firsts after l, isSpc d = false) ↔ ∃ d ∈ l, isSpc d = false := by
  induction l generalizing after with
  | nil => exact Iff.rfl
  | cons c l ih =>
      cases spc : isSpc c with
      | true =>
          rw [firsts_spc spc]
          cases after <;> simp [spc, ih]
      | false =>
          rw [firsts_other spc]
          simp [spc]

theorem rdropWhile_cons (c : UInt32) (l : List UInt32) :
    (c :: l).rdropWhile isSpc =
      if (∃ d ∈ c :: l, isSpc d = false) then c :: l.rdropWhile isSpc else [] := by
  by_cases h : ∃ d ∈ c :: l, isSpc d = false
  · rw [if_pos h]
    rw [List.rdropWhile, List.reverse_cons, List.dropWhile_append]
    by_cases none : (l.reverse.dropWhile isSpc).isEmpty
    · have all := List.dropWhile_eq_nil_iff.mp (List.isEmpty_iff.mp none)
      obtain ⟨d, hd, other⟩ := h
      have here : d = c := by
        rcases List.mem_cons.mp hd with same | hd
        · exact same
        · rw [all d (List.mem_reverse.mpr hd)] at other
          cases other
      rw [if_pos none, ← here, List.dropWhile_cons, other, if_neg Bool.false_ne_true,
        List.rdropWhile, List.isEmpty_iff.mp none]
      rfl
    · rw [if_neg none, List.reverse_append]
      rfl
  · rw [if_neg h]
    refine List.rdropWhile_eq_nil_iff.mpr fun d hd => ?_
    exact (Bool.not_eq_false _).mp fun other => h ⟨d, hd, other⟩

/-- Whitespace `s` is between two other characters, the first of its run. -/
def Between (s : UInt32) (p : List UInt32) : Prop :=
  ∃ u a w, p = u ++ a :: s :: w ∧ isSpc a = false ∧ ∃ d ∈ w, isSpc d = false

theorem between_cons_spc {s c : UInt32} {p : List UInt32} (spc : isSpc c = true) :
    Between s (c :: p) ↔ Between s p := by
  constructor
  · rintro ⟨u, a, w, split, other, later⟩
    cases u with
    | nil =>
        obtain ⟨rfl, -⟩ := List.cons.inj split
        rw [spc] at other
        cases other
    | cons e u => exact ⟨u, a, w, (List.cons.inj split).2, other, later⟩
  · rintro ⟨u, a, w, rfl, other, later⟩
    exact ⟨c :: u, a, w, rfl, other, later⟩

theorem between_cons_other {s c : UInt32} {p : List UInt32} (other : isSpc c = false) :
    Between s (c :: p) ↔ (∃ w, p = s :: w ∧ ∃ d ∈ w, isSpc d = false) ∨ Between s p := by
  constructor
  · rintro ⟨u, a, w, split, other', later⟩
    cases u with
    | nil => exact Or.inl ⟨w, (List.cons.inj split).2, later⟩
    | cons e u => exact Or.inr ⟨u, a, w, (List.cons.inj split).2, other', later⟩
  · rintro (⟨w, rfl, later⟩ | ⟨u, a, w, rfl, other', later⟩)
    · exact ⟨[], c, w, rfl, other, later⟩
    · exact ⟨c :: u, a, w, rfl, other', later⟩

theorem mem_kept {s : UInt32} (spc : isSpc s = true) (after : Bool) (p : List UInt32) :
    s ∈ (firsts after p).rdropWhile isSpc ↔
      (after = false ∧ ∃ w, p = s :: w ∧ ∃ d ∈ w, isSpc d = false) ∨ Between s p := by
  induction p generalizing after with
  | nil => simp [firsts, Between]
  | cons c p ih =>
      cases hc : isSpc c with
      | true =>
          rw [between_cons_spc hc, firsts_spc hc]
          cases after with
          | true => simpa using ih true
          | false =>
              rw [if_neg Bool.false_ne_true, List.singleton_append, rdropWhile_cons]
              have later : (∃ d ∈ c :: firsts true p, isSpc d = false) ↔ ∃ d ∈ p, isSpc d = false := by
                rw [← all_spc_firsts true p]
                simp [hc]
              by_cases word : ∃ d ∈ p, isSpc d = false
              · rw [if_pos (later.mpr word), List.mem_cons, ih true]
                constructor
                · rintro (rfl | ⟨no, -⟩ | between)
                  · exact Or.inl ⟨rfl, p, rfl, word⟩
                  · cases no
                  · exact Or.inr between
                · rintro (⟨-, w, split, -⟩ | between)
                  · exact Or.inl (List.cons.inj split).1.symm
                  · exact Or.inr (Or.inr between)
              · rw [if_neg fun h => word (later.mp h)]
                refine iff_of_false List.not_mem_nil ?_
                rintro (⟨-, w, split, later⟩ | ⟨u, a, w, rfl, -, d, hd, other⟩)
                · exact word ((List.cons.inj split).2 ▸ later)
                · exact word ⟨d, by simp [hd], other⟩
      | false =>
          rw [between_cons_other hc, firsts_other hc, rdropWhile_cons, if_pos ⟨c, by simp, hc⟩,
            List.mem_cons, ih false]
          have ne : s ≠ c := by
            rintro rfl
            rw [spc] at hc
            cases hc
          constructor
          · rintro (same | ⟨-, word⟩ | between)
            · exact absurd same ne
            · exact Or.inr (Or.inl word)
            · exact Or.inr (Or.inr between)
          · rintro (⟨-, w, split, -⟩ | word | between)
            · exact absurd (List.cons.inj split).1.symm ne
            · exact Or.inr (Or.inl ⟨rfl, word⟩)
            · exact Or.inr (Or.inr between)

theorem spacesFirst_iff (p : List UInt32) :
    SpacesFirst p ↔ ∀ s ∈ kept p, isSpc s = true → s = space := by
  constructor
  · intro h s hs spc
    rcases (mem_kept spc true p).mp hs with ⟨no, -⟩ | ⟨u, a, w, split, other, later⟩
    · cases no
    · exact h u a s w split other spc later
  · intro h u a s w split other spc later
    exact h s ((mem_kept spc true p).mpr (Or.inr ⟨u, a, w, split, other, later⟩)) spc

/-! ## The promise of the header -/

section Promise
variable {lc : UInt32 → UInt32}

theorem map_toSpace_eq_iff (l : List UInt32) :
    l.map toSpace = l ↔ ∀ s ∈ l, isSpc s = true → s = space := by
  induction l with
  | nil => simp
  | cons c l ih =>
      rw [List.map_cons, List.cons.injEq, ih, List.forall_mem_cons, toSpace]
      cases isSpc c with
      | true =>
          rw [if_pos rfl]
          exact and_congr_left' ⟨fun h _ => h.symm, fun h => (h rfl).symm⟩
      | false =>
          rw [if_neg Bool.false_ne_true]
          exact and_congr_left' (iff_of_true rfl nofun)

theorem start_kept (keeps : KeepsSpaces lc) (p : List UInt32) :
    ∀ c ∈ ((kept p).map lc).head?, isSpc c = false := by
  intro c hc
  cases h : kept p with
  | nil => rw [h] at hc; cases hc
  | cons d rest =>
      have pre : kept p <+: firsts true p := List.rdropWhile_prefix _ _
      obtain ⟨more, whole⟩ := pre
      rw [h] at hc whole
      have other := head_firsts p d (by rw [← whole]; rfl)
      rw [← Option.some.inj hc, keeps.isSpc_lc, other]

theorem norm_inside (p : List UInt32) : norm lc p <:+: norm' lc p :=
  (((List.rdropWhile_prefix _ _).isInfix).trans (List.dropWhile_suffix _).isInfix).map lc

theorem fed_found (keeps : KeepsSpaces lc) {s : UnicodeString} {p : List UInt32}
    (chars : s.chars = (kept p).map lc) (short : s.chars.length < 2 ^ 32) {fuel : Nat}
    (enough : 2 * s.chars.length < fuel) (fresh : Nat → Nat) (old : Searchengine) :
    ∃ sei, searchStartUnicode s fuel fresh old = some sei ∧
      ∀ spc text, ∃ sei', searchTextLc lc fuel (sei, spc) text = some sei' ∧
        (searchFound sei'.1 = true ↔ (kept p).map lc <:+: norm' lc text) := by
  obtain ⟨sei, start, ready⟩ := searchStart_ready short fresh old enough
  refine ⟨sei, start, fun spc text => ?_⟩
  obtain ⟨spc', run⟩ := @searchTextLc_eq lc fuel text sei spc
  have le : s.chars.length ≤ fuel := by omega
  obtain ⟨sei', found, ready'⟩ := searchText_ready short le (fed lc spc text) ready
  rw [found, Option.map_some] at run
  refine ⟨(sei', spc'), run, ?_⟩
  rw [ready'.found_iff, List.nil_append, chars, infix_fed keeps (start_kept keeps p)]

theorem spaces_of_infix (keeps : KeepsSpaces lc) {l text : List UInt32}
    (h : l.map lc <:+: norm' lc text) : ∀ s ∈ l, isSpc s = true → s = space := by
  intro s hs spc
  have mem := h.subset (List.mem_map_of_mem hs)
  rw [norm', collapse_eq, List.map_map] at mem
  obtain ⟨c, -, same⟩ := List.mem_map.mp mem
  rw [keeps.space s spc, Function.comp_apply] at same
  have spc' : isSpc (toSpace c) = true := by
    rw [← keeps.isSpc_lc, same, spc]
  rw [keeps.space _ spc'] at same
  rw [isSpc_toSpace] at spc'
  rw [← same, toSpace, if_pos spc']

theorem finds_of_keeps (keeps : KeepsSpaces lc) (p : UnicodeString) (fresh : Nat → Nat)
    (old : Searchengine) :
    Finds lc p fresh old ↔ (norm lc p.chars).length < 2 ^ 32 ∧ SpacesFirst p.chars := by
  have length : ((kept p.chars).map lc).length = (norm lc p.chars).length := by
    rw [norm_eq, List.length_map, List.length_map, List.length_map]
  obtain ⟨s, chars, begun⟩ := start_eq keeps p
  have begun' : ∀ fuel, p.chars.length < fuel →
      searchStartStrChset lc fuel fresh old p = searchStartUnicode s fuel fresh old := by
    intro fuel enough
    exact (begun fuel fresh old).resolve_right fun h => by omega
  rw [← length, ← chars]
  constructor
  · rintro ⟨enough, run⟩
    obtain ⟨fuel, least, forPattern, forTable⟩ : ∃ fuel, enough ≤ fuel ∧ p.chars.length < fuel ∧
        2 * s.chars.length < fuel := ⟨enough + p.chars.length + 2 * s.chars.length + 1, by omega⟩
    obtain ⟨sei, start, search⟩ := run fuel least
    rw [begun' fuel forPattern] at start
    have short : s.chars.length < 2 ^ 32 := by
      by_contra long
      rw [searchStartUnicode, clearLoop_long (Nat.not_lt.mp long) _ 0 fresh (by decide)] at start
      cases start
    refine ⟨short, (spacesFirst_iff _).mpr ?_⟩
    obtain ⟨sei', start', search'⟩ := fed_found keeps chars short forTable fresh old
    obtain rfl := Option.some.inj (start.symm.trans start')
    -- the text is the pattern itself
    obtain ⟨e, fed, found⟩ := search false p.chars
    obtain ⟨e', fed', found'⟩ := search' false p.chars
    obtain rfl := Option.some.inj (fed.symm.trans fed')
    exact spaces_of_infix keeps (found'.mp (found.mpr (norm_inside p.chars)))
  · rintro ⟨short, spaces⟩
    have plain := (map_toSpace_eq_iff _).mpr ((spacesFirst_iff _).mp spaces)
    refine ⟨p.chars.length + 1 + (2 * s.chars.length + 1), fun fuel enough => ?_⟩
    rw [begun' fuel (by omega), norm_eq, plain]
    exact fed_found keeps chars short (by omega) fresh old

/-- What the header says holds if and only if every run of whitespace inside the pattern begins
with a space. -/
theorem finds_iff (t : CaseTables) (tables : t.NoSpaces) (p : UnicodeString) (fresh : Nat → Nat)
    (old : Searchengine) :
    Finds (unicodeLc t) p fresh old ↔
      (norm (unicodeLc t) p.chars).length < 2 ^ 32 ∧ SpacesFirst p.chars :=
  finds_of_keeps (keepsSpaces tables) p fresh old

/-- `unicode_case_tab` as far as the letter `A`. -/
def letterA : CaseTables where
  hash := 1
  tab := #[(0x41, 0x41, 0x61, 0x41), (0x61, 0x41, 0x61, 0x41)]
  offset := #[0]

theorem letterA_noSpaces : letterA.NoSpaces := by
  intro row mem
  obtain rfl | rfl : row = (0x41, 0x41, 0x61, 0x41) ∨ row = (0x61, 0x41, 0x61, 0x41) := by
    simpa [letterA] using mem
  · decide +kernel
  · decide +kernel

/-- The letters `A` and `a` with a tab between them. -/
def tabbed : UnicodeString := ⟨[0x41, 0x09, 0x61], by simp⟩

theorem finds_iff_sample :
    Finds (unicodeLc letterA) tabbed (fun _ => 0) searchInit ↔
      (norm (unicodeLc letterA) tabbed.chars).length < 2 ^ 32 ∧ SpacesFirst tabbed.chars :=
  finds_iff letterA letterA_noSpaces tabbed (fun _ => 0) searchInit

theorem tabbed_missed : ¬ Finds (unicodeLc letterA) tabbed (fun _ => 0) searchInit := by
  intro finds
  obtain ⟨-, spaces⟩ := (finds_of_keeps (keepsSpaces letterA_noSpaces) _ _ _).mp finds
  exact absurd (spaces [] 0x41 0x09 [0x61] rfl rfl rfl ⟨0x61, by decide, rfl⟩) (by decide)

end Promise

end Cone.Maildirsearch
