import Cone.ImapsubjRules

/-! # The loops of `stripsubj` follow the rules

Each pass of a loop is a rule of the `source` grammar, as long as the subject has no other
whitespace than spaces, which `collapse` sees to. -/
set_option autoImplicit false
namespace Cone.Imapsubj

open Cone.Ctype
open Cone.ImapBodystructure (Text upper)

def Spaced (t : Text) : Prop := ∀ c ∈ t, isspace c = true → c = SP

/-- The subject has no `subj-trailer`. -/
def TailFree (t : Text) : Prop := t.getLast? ≠ some SP ∧ endsFwd t = false

def marked (hasrefwd : Nat) : Bool := decide (hasrefwd ≠ 0)

theorem marked_lor (a : Nat) {flag : Nat} (h : flag ≠ 0) : marked (a ||| flag) = (marked a || true) := by
  rw [Bool.or_true, marked, decide_eq_true_eq]
  intro hzero
  exact h (Nat.or_eq_zero_iff.mp hzero).2

theorem isspace_SP : isspace SP = true := by decide

section Texts
variable {t u : Text}

theorem Spaced.subset (h : Spaced t) (hsub : u ⊆ t) : Spaced u :=
  fun c hc => h c (hsub hc)

theorem endsFwd_suffix (hsuffix : u <:+ t) (h : endsFwd u = true) : endsFwd t = true := by
  obtain ⟨v, rfl⟩ := hsuffix
  rw [endsFwd, Bool.and_eq_true, decide_eq_true_eq, decide_eq_true_eq] at h ⊢
  obtain ⟨hlen, hfwd⟩ := h
  have hdrop : (v ++ u).length - 5 = v.length + (u.length - 5) := by
    rw [List.length_append]
    omega
  rw [hdrop, List.drop_length_add_append, List.length_append]
  exact ⟨by omega, hfwd⟩

theorem TailFree.suffix (h : TailFree t) (hsuffix : u <:+ t) : TailFree u := by
  obtain ⟨hlast, hfwd⟩ := h
  constructor
  · intro hu
    obtain ⟨v, rfl⟩ := hsuffix
    rw [List.getLast?_append, hu] at hlast
    exact hlast rfl
  · cases hend : endsFwd u with
    | false => rfl
    | true =>
        rw [endsFwd_suffix hsuffix hend] at hfwd
        exact hfwd

theorem rule_of_tailFree {g : Grammar} (h : TailFree t) (hhead : t.head? ≠ some SP) :
    rule g t = ruleLeader g t := by
  rw [rule, if_neg h.1, h.2, if_neg Bool.false_ne_true, if_neg hhead]

end Texts

/-! ## The trailer -/

section Trailer
variable {g : Grammar} {p : Text}

theorem endsFwd_reverse (p : Text) :
    endsFwd p.reverse = decide (upper (p.take 5).reverse = str "(FWD)") := by
  have hlen : (str "(FWD)").length = 5 := rfl
  rw [endsFwd, List.length_reverse, List.drop_reverse]
  by_cases hp : 5 ≤ p.length
  · have hfive : p.length - (p.length - 5) = 5 := by omega
    rw [decide_eq_true hp, Bool.true_and, hfive]
  · have hne : upper (p.take 5).reverse ≠ str "(FWD)" := by
      intro h
      have := congrArg List.length h
      rw [upper, List.length_map, List.length_reverse, List.length_take, hlen] at this
      omega
    rw [decide_eq_false hp, decide_eq_false hne, Bool.false_and]

theorem trailer_steps (h : Spaced p) (hasrefwd : Nat) : ∃ m,
    Steps g p.reverse m (trailer p hasrefwd).1.reverse ∧
      marked (trailer p hasrefwd).2 = (marked hasrefwd || m) ∧
      TailFree (trailer p hasrefwd).1.reverse := by
  fun_induction trailer p hasrefwd with
  | case1 hasrefwd => exact ⟨false, .refl _, (Bool.or_false _).symm, by simp [TailFree, endsFwd]⟩
  | case2 hasrefwd c q hspace ih =>
      obtain ⟨m, hsteps, hmarked, hfree⟩ := ih (h.subset (List.subset_cons_self c q))
      have hc : c = SP := h c List.mem_cons_self hspace
      have hrule : rule g (c :: q).reverse = some (false, q.reverse) := by
        rw [rule, List.getLast?_reverse, List.head?_cons, hc, if_pos rfl, List.reverse_cons,
          List.dropLast_concat]
      exact ⟨m, by simpa using Steps.next hrule hsteps, hmarked, hfree⟩
  | case3 hasrefwd c q hspace hfwd ih =>
      obtain ⟨m, hsteps, hmarked, hfree⟩ :=
        ih (h.subset (List.drop_subset 5 (c :: q)))
      have hc : c ≠ SP := fun hc => hspace (hc ▸ isspace_SP)
      have hend : endsFwd (c :: q).reverse = true := by
        rw [endsFwd_reverse, hfwd, decide_eq_true rfl]
      have hrule : rule g (c :: q).reverse = some (true, ((c :: q).drop 5).reverse) := by
        rw [rule, List.getLast?_reverse, List.head?_cons, if_neg (by simpa using hc), hend,
          if_pos rfl, List.length_reverse, List.take_reverse]
        rw [endsFwd, Bool.and_eq_true, decide_eq_true_eq, List.length_reverse] at hend
        have hfive : (c :: q).length - ((c :: q).length - 5) = 5 := by omega
        rw [hfive]
      refine ⟨true || m, Steps.next hrule hsteps, ?_, hfree⟩
      rw [hmarked, marked_lor hasrefwd (by decide), Bool.or_assoc]
  | case4 hasrefwd c q hspace hfwd =>
      refine ⟨false, .refl _, (Bool.or_false _).symm, ?_, ?_⟩
      · rw [List.getLast?_reverse, List.head?_cons]
        intro hc
        cases hc
        exact hspace isspace_SP
      · rw [endsFwd_reverse, decide_eq_false hfwd]

end Trailer

/-! ## The leader -/

section Leader
variable {t u : Text}

theorem blobEnd_suffix (p : Text) : blobEnd p <:+ p := by
  cases p with
  | nil => exact List.suffix_rfl
  | cons c p =>
      rw [blobEnd]
      split
      · split
        · exact List.suffix_rfl
        · rename_i d q heq
          have hq : d :: q <:+ p := heq ▸ List.dropWhile_suffix _
          split
          · exact (List.dropWhile_suffix _).trans
              ((List.suffix_cons d q).trans (hq.trans (List.suffix_cons c p)))
          · exact List.suffix_rfl
      · exact List.suffix_rfl

theorem skipblobs_suffix (p : Text) : skipblobs p <:+ p := by
  fun_induction skipblobs p with
  | case1 p h ih => exact ih.trans (blobEnd_suffix p)
  | case2 p h => exact List.suffix_rfl

theorem blobs_source (n : Nat) (p : Text) (h : p.length ≤ n) :
    source.blobs n p = skipblobs p := by
  induction n generalizing p with
  | zero =>
      rw [List.length_eq_zero_iff.mp (Nat.le_zero.mp h)]
      rw [skipblobs, if_neg (by decide), Grammar.blobs]
  | succ n ih =>
      rw [Grammar.blobs, skipblobs]
      dsimp only [source, Source.blob]
      by_cases hne : blobEnd p = p
      · rw [if_neg (not_not.mpr hne), if_neg (by rw [hne]; omega)]
      · have hlt := length_blobEnd_lt hne
        rw [if_pos hne, if_pos hlt]
        exact ih _ (by omega)

theorem marker_flag {q p : Text} {flag : Nat} (h : marker q = some (flag, p)) :
    flag ≠ 0 ∧ p <:+ q := by
  rw [marker] at h
  split at h
  · cases h
    exact ⟨by decide, List.drop_suffix 2 q⟩
  · split at h
    · cases h
      exact ⟨by decide, List.drop_suffix 3 q⟩
    · split at h
      · cases h
        exact ⟨by decide, List.drop_suffix 2 q⟩
      · cases h

theorem source_leader (t : Text) : source.leader t = Source.refwd (skipblobs t) := by
  rw [Grammar.leader, blobs_source _ t (Nat.le_refl _)]
  rfl

theorem source_refwd_suffix (h : Source.refwd t = some u) : u <:+ t := by
  rw [Source.refwd, Option.bind_eq_some_iff] at h
  obtain ⟨⟨flag, q⟩, hmarker, h⟩ := h
  dsimp only at h
  split at h
  · cases h
  · rename_i c p heq
    split at h
    · cases h
      have hblob := blobEnd_suffix q
      rw [heq] at hblob
      exact (List.suffix_cons c u).trans (hblob.trans (marker_flag hmarker).2)
    · cases h

theorem source_trims : source.Trims := by
  refine ⟨fun t u h => ?_, fun t u h => source_refwd_suffix h⟩
  dsimp only [source, Source.blob] at h
  split at h
  · cases h
    exact blobEnd_suffix t
  · cases h

theorem stripBlob_suffix {x y : Cursor} {found : Bool} (h : stripBlob x = (found, y)) :
    y.p <:+ x.p := by
  rw [stripBlob] at h
  by_cases hblob : (skipblob x.p x.save).1 ≠ x.p ∧ (skipblob x.p x.save).1 ≠ []
  · rw [if_pos hblob] at h
    cases h
    exact blobEnd_suffix x.p
  · rw [if_neg hblob] at h
    cases h
    exact List.suffix_rfl

theorem stripRefwd_true {x y : Cursor} (h : stripRefwd x = (true, y)) :
    source.leader x.p = some y.p ∧ marked y.hasrefwd = (marked x.hasrefwd || true) := by
  rw [source_leader, Source.refwd]
  rw [stripRefwd] at h
  split at h
  · cases h
  · rename_i flag q hmarker
    have hflag := (marker_flag hmarker).1
    rw [hmarker, Option.bind_some]
    dsimp only [skipblob] at h ⊢
    generalize blobEnd q = e at h ⊢
    cases e with
    | nil => cases h
    | cons c p =>
        dsimp only at h ⊢
        by_cases hc : c = byte ':'
        · rw [if_pos hc] at h ⊢
          cases h
          exact ⟨rfl, marked_lor _ hflag⟩
        · rw [if_neg hc] at h
          cases h

theorem leader_of_stripRefwd_false {x y : Cursor} (h : stripRefwd x = (false, y)) :
    source.leader x.p = none ∧ y.hasrefwd = x.hasrefwd := by
  rw [source_leader, Source.refwd]
  rw [stripRefwd] at h
  split at h
  · rename_i hmarker
    cases h
    rw [hmarker]
    exact ⟨rfl, rfl⟩
  · rename_i flag q hmarker
    rw [hmarker, Option.bind_some]
    dsimp only [skipblob] at h ⊢
    generalize blobEnd q = e at h ⊢
    cases e with
    | nil =>
        cases h
        exact ⟨rfl, rfl⟩
    | cons c p =>
        dsimp only at h ⊢
        by_cases hc : c = byte ':'
        · rw [if_pos hc] at h
          cases h
        · rw [if_neg hc] at h ⊢
          cases h
          exact ⟨rfl, rfl⟩

theorem skipblob_fst (p : Text) (save : Option Saved) : (skipblob p save).1 = blobEnd p := by
  rfl

theorem ruleBlob_of_stripBlob {x y : Cursor} {found : Bool} (h : stripBlob x = (found, y)) :
    ruleBlob source x.p = (if found then some (false, y.p) else ruleFwd x.p) ∧
      y.hasrefwd = x.hasrefwd := by
  rw [stripBlob] at h
  rw [ruleBlob]
  dsimp only [source, Source.blob]
  by_cases hblob : (skipblob x.p x.save).1 ≠ x.p ∧ (skipblob x.p x.save).1 ≠ []
  · rw [if_pos hblob] at h
    rw [skipblob_fst] at hblob
    cases h
    rw [if_pos hblob.1]
    dsimp only
    rw [if_pos hblob.2]
    exact ⟨rfl, rfl⟩
  · rw [if_neg hblob] at h
    rw [skipblob_fst] at hblob
    cases h
    by_cases hne : blobEnd x.p = x.p
    · rw [if_neg (not_not.mpr hne)]
      exact ⟨rfl, rfl⟩
    · have hnil : ¬blobEnd x.p ≠ [] := fun hnil => hblob ⟨hne, hnil⟩
      rw [if_pos hne]
      dsimp only
      rw [if_neg hnil]
      exact ⟨rfl, rfl⟩

theorem rule_of_leaderStep {x y : Cursor} (hspaced : Spaced x.p) (hfree : TailFree x.p)
    (h : leaderStep x = (true, y)) : ∃ b,
    rule source x.p = some (b, y.p) ∧ y.p <:+ x.p ∧
      marked y.hasrefwd = (marked x.hasrefwd || b) := by
  rw [leaderStep] at h
  split at h
  · cases h
  · rename_i c p heq
    by_cases hspace : isspace c = true
    · rw [if_pos hspace] at h
      cases h
      have hc : c = SP := hspaced c (heq ▸ List.mem_cons_self) hspace
      refine ⟨false, ?_, heq ▸ List.suffix_cons c p, (Bool.or_false _).symm⟩
      rw [rule, if_neg hfree.1, hfree.2, if_neg Bool.false_ne_true, heq, hc, List.head?_cons,
        if_pos rfl]
      rfl
    · rw [if_neg hspace] at h
      have hhead : x.p.head? ≠ some SP := by
        rw [heq, List.head?_cons]
        intro hc
        cases hc
        exact hspace isspace_SP
      rw [rule_of_tailFree hfree hhead, ruleLeader]
      cases hr : stripRefwd x with
      | mk found z =>
          rw [hr] at h
          cases found with
          | true =>
              cases h
              obtain ⟨hleader, hmarked⟩ := stripRefwd_true hr
              rw [hleader]
              exact ⟨true, rfl, leader_suffix source_trims hleader, hmarked⟩
          | false =>
              obtain ⟨hleader, hz⟩ := leader_of_stripRefwd_false hr
              obtain ⟨hblob, hy⟩ := ruleBlob_of_stripBlob h
              have hsuffix := stripBlob_suffix h
              rw [stripRefwd_false hr] at hblob hsuffix
              rw [hleader]
              dsimp only
              rw [hblob, hy, hz]
              exact ⟨false, rfl, hsuffix, (Bool.or_false _).symm⟩

/-- Where `for (;;)` stops, only a forward header is left to remove. -/
theorem rule_of_leaderStep_false {x y : Cursor} (hfree : TailFree x.p)
    (h : leaderStep x = (false, y)) :
    rule source y.p = ruleFwd y.p ∧ y.hasrefwd = x.hasrefwd := by
  rw [leaderStep_false h]
  rw [leaderStep] at h
  split at h
  · rename_i heq
    cases h
    rw [heq]
    exact ⟨by decide, rfl⟩
  · rename_i c p heq
    by_cases hspace : isspace c = true
    · rw [if_pos hspace] at h
      cases h
    · rw [if_neg hspace] at h
      have hhead : x.p.head? ≠ some SP := by
        rw [heq, List.head?_cons]
        intro hc
        cases hc
        exact hspace isspace_SP
      rw [rule_of_tailFree hfree hhead, ruleLeader]
      cases hr : stripRefwd x with
      | mk found z =>
          rw [hr] at h
          cases found with
          | true => cases h
          | false =>
              obtain ⟨hleader, hz⟩ := leader_of_stripRefwd_false hr
              obtain ⟨hblob, hy⟩ := ruleBlob_of_stripBlob h
              rw [stripRefwd_false hr] at hblob
              rw [hleader]
              dsimp only
              rw [hblob, hy, hz]
              exact ⟨rfl, rfl⟩

theorem leader_steps {x : Cursor} (hspaced : Spaced x.p) (hfree : TailFree x.p) : ∃ m,
    Steps source x.p m (leader x).p ∧ marked (leader x).hasrefwd = (marked x.hasrefwd || m) ∧
      rule source (leader x).p = ruleFwd (leader x).p := by
  fun_induction leader x with
  | case1 x y h ih =>
      obtain ⟨b, hrule, hsuffix, hb⟩ := rule_of_leaderStep hspaced hfree h
      obtain ⟨m, hsteps, hm, hend⟩ := ih (hspaced.subset hsuffix.subset) (hfree.suffix hsuffix)
      refine ⟨b || m, .next hrule hsteps, ?_, hend⟩
      rw [hm, hb, Bool.or_assoc]
  | case2 x y h =>
      obtain ⟨hend, hmarked⟩ := rule_of_leaderStep_false hfree h
      rw [hmarked]
      refine ⟨false, ?_, (Bool.or_false _).symm, hend⟩
      rw [leaderStep_false h]
      exact .refl _

end Leader

/-! ## The whole of it -/

section Whole
variable {t r : Text} {b m : Bool} {x : Cursor}

theorem stripEnds_steps (hspaced : Spaced x.p) : ∃ m,
    Steps source x.p m (stripEnds x).p ∧
      marked (stripEnds x).hasrefwd = (marked x.hasrefwd || m) ∧
      rule source (stripEnds x).p = ruleFwd (stripEnds x).p := by
  have hreverse : Spaced x.p.reverse := fun c hc => hspaced c (List.mem_reverse.mp hc)
  obtain ⟨m, hsteps, hmarked, hfree⟩ := trailer_steps (g := source) hreverse x.hasrefwd
  rw [List.reverse_reverse] at hsteps
  obtain ⟨m', hsteps', hmarked', hend⟩ := leader_steps
    (x := { x with
      p := (trailer x.p.reverse x.hasrefwd).1.reverse
      hasrefwd := (trailer x.p.reverse x.hasrefwd).2 })
    (hspaced.subset (hsteps.part source_trims).subset) hfree
  refine ⟨m || m', hsteps.trans hsteps', ?_, hend⟩
  rw [← Bool.or_assoc, ← hmarked]
  exact hmarked'

theorem stripLoop_runs (hspaced : Spaced x.p) : ∃ m,
    Runs source x.p m (stripLoop x).p ∧
      marked (stripLoop x).hasrefwd = (marked x.hasrefwd || m) := by
  fun_induction stripLoop x with
  | case1 x y hfwd ih =>
      obtain ⟨m, hsteps, hmarked, hend⟩ := stripEnds_steps hspaced
      have hrule : rule source y.p = some (true, y.p.dropLast.drop 5) := by
        rw [hend, ruleFwd, if_pos hfwd]
      have hunwrap : Steps source x.p (m || true) (y.p.dropLast.drop 5) :=
        hsteps.trans (.one hrule)
      obtain ⟨m', hruns, hm'⟩ := ih (hspaced.subset (hunwrap.part source_trims).subset)
      refine ⟨(m || true) || m', ⟨hunwrap.trans hruns.1, hruns.2⟩, ?_⟩
      dsimp only at hm'
      rw [hm', marked_lor _ (by decide), hmarked, Bool.or_assoc, Bool.or_assoc, Bool.or_assoc]
  | case2 x y hfwd =>
      obtain ⟨m, hsteps, hmarked, hend⟩ := stripEnds_steps hspaced
      refine ⟨m, ⟨hsteps, ?_⟩, hmarked⟩
      rw [hend, ruleFwd, if_neg hfwd]

end Whole
end Cone.Imapsubj
