import Cone.Lib.WireNames
import Mathlib.Data.List.TakeWhile

/-! # Host names

A host name is read as the runs of characters between its dots.  `squeeze` writes a name with one
dot for each run of dots and none at the end; names that squeeze to the same text have the same
labels. -/
set_option autoImplicit false
namespace Cone.Lib.HostNames

open Cone.Ctype Cone.Lib.WireNames

abbrev DOT : UInt8 := byte '.'

def isDot (c : UInt8) : Bool := c = DOT

def skipDots (s : List UInt8) : List UInt8 := s.dropWhile isDot

def firstLabel (s : List UInt8) : List UInt8 := s.takeWhile fun c => !isDot c

def restOf (s : List UInt8) : List UInt8 := s.dropWhile fun c => !isDot c

section Lengths
variable (s : List UInt8)

theorem skipDots_length_le : (skipDots s).length ≤ s.length :=
  (List.dropWhile_suffix _).length_le

theorem firstLabel_append_restOf : firstLabel s ++ restOf s = s :=
  List.takeWhile_append_dropWhile

theorem restOf_length_le : (restOf s).length ≤ s.length :=
  (List.dropWhile_suffix _).length_le

variable {s}

theorem isDot_of_skipDots {c : UInt8} {t : List UInt8} (h : skipDots s = c :: t) :
    isDot c = false := by
  induction s with
  | nil => cases h
  | cons d s ih =>
      rw [skipDots, List.dropWhile_cons] at h
      by_cases hd : isDot d = true
      · rw [if_pos hd] at h
        exact ih h
      · rw [if_neg hd] at h
        cases h
        simpa using hd

theorem firstLabel_ne_nil (hne : skipDots s ≠ []) : firstLabel (skipDots s) ≠ [] := by
  cases h : skipDots s with
  | nil => exact absurd h hne
  | cons c t =>
      rw [firstLabel, List.takeWhile_cons_of_pos (by rw [isDot_of_skipDots h]; rfl)]
      nofun

theorem restOf_length_lt (hne : skipDots s ≠ []) :
    (restOf (skipDots s)).length < s.length := by
  have hlabel := List.length_pos_iff.mpr (firstLabel_ne_nil hne)
  have hsum := congrArg List.length (firstLabel_append_restOf (skipDots s))
  have hskip := skipDots_length_le s
  rw [List.length_append] at hsum
  omega

end Lengths

def labels (s : List UInt8) : List (List UInt8) :=
  if _h : skipDots s = [] then []
  else firstLabel (skipDots s) :: labels (restOf (skipDots s))
  termination_by s.length
  decreasing_by exact restOf_length_lt _h

def squeeze (s : List UInt8) : List UInt8 :=
  match s with
  | [] => []
  | c :: t =>
    if isDot c then
      if skipDots t = [] then [] else DOT :: squeeze (skipDots t)
    else c :: squeeze t
  termination_by s.length
  decreasing_by
    · have := skipDots_length_le t
      rw [List.length_cons]
      omega
    · rw [List.length_cons]
      omega

section Labels
variable {s t : List UInt8}

theorem skipDots_skipDots (s : List UInt8) : skipDots (skipDots s) = skipDots s := by
  cases h : skipDots s with
  | nil => rfl
  | cons c t => rw [skipDots, List.dropWhile_cons_of_neg (by simp [isDot_of_skipDots h])]

@[simp] theorem labels_skipDots (s : List UInt8) : labels (skipDots s) = labels s := by
  rw [labels, skipDots_skipDots, labels.eq_1 s]

theorem labels_of_ne_nil (hne : skipDots s ≠ []) :
    labels s = firstLabel (skipDots s) :: labels (restOf (skipDots s)) := by
  rw [labels, dif_neg hne]

theorem labels_of_nil (hnil : skipDots s = []) : labels s = [] := by
  rw [labels, dif_pos hnil]

def IsLabel (l : List UInt8) : Prop := l ≠ [] ∧ ∀ c ∈ l, isDot c = false

theorem isLabel_of_mem_labels {l : List UInt8} (hl : l ∈ labels s) : IsLabel l := by
  induction hn : s.length using Nat.strong_induction_on generalizing s with
  | _ n ih =>
    by_cases hne : skipDots s = []
    · rw [labels_of_nil hne] at hl
      cases hl
    · rw [labels_of_ne_nil hne] at hl
      rcases List.mem_cons.mp hl with rfl | hl
      · apply And.intro (firstLabel_ne_nil hne)
        intro c hc
        simpa using List.mem_takeWhile_imp hc
      · have hlt := restOf_length_lt hne
        exact ih _ (by omega) hl rfl

end Labels

section Squeeze
variable {s : List UInt8}

theorem squeeze_dot (t : List UInt8) :
    squeeze (DOT :: t) = if skipDots t = [] then [] else DOT :: squeeze (skipDots t) := by
  rw [squeeze, if_pos (by decide)]

theorem squeeze_cons {c : UInt8} (hc : isDot c = false) (t : List UInt8) :
    squeeze (c :: t) = c :: squeeze t := by
  rw [squeeze, if_neg (by rw [hc]; nofun)]

theorem squeeze_append {l : List UInt8} (hl : ∀ c ∈ l, isDot c = false) (t : List UInt8) :
    squeeze (l ++ t) = l ++ squeeze t := by
  induction l with
  | nil => rfl
  | cons c l ih =>
      rw [List.cons_append, squeeze_cons (hl c (by simp)), ih fun d hd => hl d (by simp [hd]),
        List.cons_append]

def dotTail (ls : List (List UInt8)) : List UInt8 := ls.flatMap fun l => DOT :: l

theorem dotted_of_ne_nil {name : List UInt8} (hne : name ≠ []) (ls : List (List UInt8)) :
    dotted name ls = name ++ dotTail ls := by
  induction ls generalizing name with
  | nil => simp [dotTail]
  | cons l ls ih =>
      rw [dotted_cons, if_neg hne, ih (by simp)]
      simp [dotTail]

theorem dotted_cons_of_isLabel {l : List UInt8} (hl : IsLabel l) (ls : List (List UInt8)) :
    dotted [] (l :: ls) = l ++ dotTail ls := by
  rw [dotted_cons, if_pos rfl, List.nil_append, dotted_of_ne_nil hl.1]

theorem restOf_cases (s : List UInt8) : restOf s = [] ∨ ∃ t, restOf s = DOT :: t := by
  induction s with
  | nil => exact Or.inl rfl
  | cons c s ih =>
      by_cases hc : isDot c = true
      · have hdot : c = DOT := by simpa [isDot] using hc
        right
        refine ⟨s, ?_⟩
        rw [restOf, List.dropWhile_cons_of_neg (by simp [hc]), hdot]
      · rw [restOf, List.dropWhile_cons_of_pos (by simpa using hc)]
        exact ih

theorem squeeze_skipDots (s : List UInt8) : squeeze (skipDots s) = dotted [] (labels s) := by
  induction hn : s.length using Nat.strong_induction_on generalizing s with
  | _ n ih =>
    by_cases hne : skipDots s = []
    · rw [hne, labels_of_nil hne, squeeze, dotted_nil]
    have hlt := restOf_length_lt hne
    have hlabel : IsLabel (firstLabel (skipDots s)) := by
      apply isLabel_of_mem_labels (s := s)
      rw [labels_of_ne_nil hne]
      exact List.mem_cons_self
    rw [labels_of_ne_nil hne, dotted_cons_of_isLabel hlabel]
    conv_lhs => rw [← firstLabel_append_restOf (skipDots s)]
    rw [squeeze_append hlabel.2]
    congr 1
    have hrest := ih _ (by omega) (restOf (skipDots s)) rfl
    rcases restOf_cases (skipDots s) with hnil | ⟨t, ht⟩
    · rw [hnil, labels_of_nil rfl, squeeze]
      rfl
    · have hskip : skipDots (restOf (skipDots s)) = skipDots t := by
        rw [ht, skipDots, List.dropWhile_cons_of_pos (by decide), skipDots]
      rw [ht, squeeze_dot, ← hskip, hrest, ← ht]
      by_cases hend : skipDots (restOf (skipDots s)) = []
      · rw [if_pos hend, labels_of_nil hend]
        rfl
      · have hlabel' : IsLabel (firstLabel (skipDots (restOf (skipDots s)))) := by
          apply isLabel_of_mem_labels (s := restOf (skipDots s))
          rw [labels_of_ne_nil hend]
          exact List.mem_cons_self
        rw [if_neg hend, labels_of_ne_nil hend, dotted_cons_of_isLabel hlabel']
        rfl

theorem squeeze_length_le (s : List UInt8) : (squeeze s).length ≤ s.length := by
  induction hn : s.length using Nat.strong_induction_on generalizing s with
  | _ n ih =>
    rw [← hn]
    cases s with
    | nil => rw [squeeze]
    | cons c t =>
        rw [List.length_cons] at hn
        rw [squeeze]
        have hskip := skipDots_length_le t
        by_cases hc : isDot c = true
        · rw [if_pos hc]
          by_cases hend : skipDots t = []
          · rw [if_pos hend]
            exact Nat.zero_le _
          · rw [if_neg hend, List.length_cons, List.length_cons]
            have := ih _ (by omega) (skipDots t) rfl
            omega
        · rw [if_neg hc, List.length_cons, List.length_cons]
          have := ih _ (by omega) t rfl
          omega

theorem dottedLen_labels_le (s : List UInt8) : dottedLen 0 (labels s) ≤ s.length := by
  have hlen := dotted_length [] (labels s)
  have hsqueeze := squeeze_length_le (skipDots s)
  have hskip := skipDots_length_le s
  rw [← squeeze_skipDots, List.length_nil] at hlen
  omega

theorem skipDots_append {l : List UInt8} (hl : IsLabel l) (t : List UInt8) :
    skipDots (l ++ t) = l ++ t := by
  cases l with
  | nil => exact absurd rfl hl.1
  | cons c l =>
      rw [skipDots, List.cons_append, List.dropWhile_cons_of_neg]
      simp [hl.2 c (by simp)]

theorem skipDots_dotted {ls : List (List UInt8)} (hls : ∀ l ∈ ls, IsLabel l) :
    skipDots (dotted [] ls) = dotted [] ls := by
  cases ls with
  | nil => rfl
  | cons l ls =>
      rw [dotted_cons_of_isLabel (hls l (by simp)), skipDots_append (hls l (by simp))]

theorem labels_dotted {ls : List (List UInt8)} (hls : ∀ l ∈ ls, IsLabel l) :
    labels (dotted [] ls) = ls := by
  have htail : ∀ ls : List (List UInt8), (∀ l ∈ ls, IsLabel l) →
      labels (dotTail ls) = labels (dotted [] ls) := by
    intro ls hls
    cases ls with
    | nil => rfl
    | cons l ls =>
        rw [dotted_cons_of_isLabel (hls l (by simp)), ← labels_skipDots (dotTail _)]
        conv_rhs => rw [← labels_skipDots]
        rfl
  induction ls with
  | nil => exact labels_of_nil rfl
  | cons l ls ih =>
      obtain ⟨hne, hdots⟩ := hls l (by simp)
      have hrest := ih fun l' hl' => hls l' (by simp [hl'])
      rw [dotted_cons_of_isLabel ⟨hne, hdots⟩]
      have hskip := skipDots_append ⟨hne, hdots⟩ (dotTail ls)
      have hstop : ∀ p : UInt8 → Bool, p DOT = false →
          (dotTail ls).takeWhile p = [] ∧ (dotTail ls).dropWhile p = dotTail ls := by
        intro p hp
        cases ls with
        | nil => exact ⟨rfl, rfl⟩
        | cons l' ls =>
            rw [dotTail, List.flatMap_cons, List.cons_append]
            exact ⟨List.takeWhile_cons_of_neg (by simp [hp]),
              List.dropWhile_cons_of_neg (by simp [hp])⟩
      have hall : ∀ c ∈ l, (!isDot c) = true := by
        intro c hc
        rw [hdots c hc]
        rfl
      obtain ⟨htake, hdrop⟩ := hstop (fun c => !isDot c) (by decide)
      have hfirst : firstLabel (l ++ dotTail ls) = l := by
        rw [firstLabel, List.takeWhile_append_of_pos hall, htake, List.append_nil]
      have hlast : restOf (l ++ dotTail ls) = dotTail ls := by
        rw [restOf, List.dropWhile_append_of_pos hall, hdrop]
      have hne' : skipDots (l ++ dotTail ls) ≠ [] := by
        rw [hskip]
        simp [hne]
      rw [labels_of_ne_nil hne', hskip, hfirst, hlast,
        htail ls fun l' hl' => hls l' (by simp [hl']), hrest]

theorem squeeze_dotted {ls : List (List UInt8)} (hls : ∀ l ∈ ls, IsLabel l) :
    squeeze (dotted [] ls) = dotted [] ls := by
  have h := squeeze_skipDots (dotted [] ls)
  rwa [skipDots_dotted hls, labels_dotted hls] at h

theorem labels_eq_of_squeeze {s t : List UInt8}
    (h : squeeze (skipDots s) = squeeze (skipDots t)) : labels s = labels t := by
  rw [squeeze_skipDots, squeeze_skipDots] at h
  rw [← labels_dotted fun l hl => isLabel_of_mem_labels (s := s) hl, h,
    labels_dotted fun l hl => isLabel_of_mem_labels (s := t) hl]

end Squeeze

section Map
variable {f : UInt8 → UInt8}

theorem skipDots_map (hf : ∀ c, isDot (f c) = isDot c) (s : List UInt8) :
    skipDots (s.map f) = (skipDots s).map f := by
  rw [skipDots, List.dropWhile_map, skipDots]
  congr 2
  funext c
  exact hf c

theorem labels_map (hf : ∀ c, isDot (f c) = isDot c) (s : List UInt8) :
    labels (s.map f) = (labels s).map (List.map f) := by
  induction hn : s.length using Nat.strong_induction_on generalizing s with
  | _ n ih =>
    have hskip := skipDots_map hf s
    by_cases hne : skipDots s = []
    · rw [labels_of_nil hne, labels_of_nil (by rw [hskip, hne]; rfl)]
      rfl
    have hlt := restOf_length_lt hne
    have hpred : (fun c => !isDot c) ∘ f = fun c => !isDot c := by
      funext c
      exact congrArg not (hf c)
    have hne' : skipDots (s.map f) ≠ [] := by
      rw [hskip]
      simpa using hne
    rw [labels_of_ne_nil hne, labels_of_ne_nil hne', hskip, List.map_cons,
      ← ih _ (by omega) (restOf (skipDots s)) rfl]
    congr 1
    · rw [firstLabel, List.takeWhile_map, hpred, firstLabel]
    · rw [restOf, List.dropWhile_map, hpred, restOf]

theorem dotted_map (hf : f DOT = DOT) (name : List UInt8) (ls : List (List UInt8)) :
    (dotted name ls).map f = dotted (name.map f) (ls.map (List.map f)) := by
  induction ls generalizing name with
  | nil => rfl
  | cons l ls ih =>
      rw [dotted_cons, ih, List.map_cons, dotted_cons]
      congr 1
      by_cases hnil : name = []
      · rw [if_pos hnil, if_pos (by rw [hnil]; rfl), List.map_append]
      · rw [if_neg hnil, if_neg (by simpa using hnil), List.map_append, List.map_append,
          List.map_singleton, hf]

theorem dottedLen_map (len : Nat) (ls : List (List UInt8)) :
    dottedLen len (ls.map (List.map f)) = dottedLen len ls := by
  induction ls generalizing len with
  | nil => rfl
  | cons l ls ih => rw [List.map_cons, dottedLen_cons, dottedLen_cons, List.length_map, ih]

end Map
end Cone.Lib.HostNames
