import Mathlib.Data.List.Chain
import Cone.ImapsubjBounds
import Cone.ImapsubjRuns

/-! # A base subject is its own base subject

The result is a part of the collapsed subject in capitals, and no rule is left for it. -/
set_option autoImplicit false
namespace Cone.Imapsubj

open Cone.Ctype
open Cone.ImapBodystructure (Text upper)

section Idempotent
variable {s t r : Text}

/-- No whitespace stands next to other whitespace. -/
def Single (t : Text) : Prop := t.IsChain fun c d => ¬(isspace c = true ∧ isspace d = true)

theorem head_collapse (s : Text) : ∀ c ∈ (collapse s).head?, isspace c = true →
    ∃ d ∈ s.head?, isspace d = true := by
  intro c hc hspace
  fun_cases collapse s with
  | case1 =>
      rw [collapse] at hc
      cases hc
  | case2 d p hd =>
      rw [collapse, if_pos hd] at hc
      cases hc
      rw [hspace] at hd
      cases hd
  | case3 d p hd =>
      rw [Bool.not_eq_true', Bool.not_eq_false] at hd
      exact ⟨d, rfl, hd⟩

theorem single_collapse (s : Text) : Single (collapse s) := by
  fun_induction collapse s with
  | case1 => exact .nil
  | case2 c p hc ih =>
      rw [Bool.not_eq_true'] at hc
      apply List.IsChain.cons ih
      intro d hd hboth
      rw [hc] at hboth
      exact absurd hboth.1 Bool.false_ne_true
  | case3 c p hc ih =>
      apply List.IsChain.cons ih
      intro d hd hboth
      obtain ⟨e, he, hspace⟩ := head_collapse _ d hd hboth.2
      have hnot := List.head?_dropWhile_not isspace p
      rw [Option.mem_def.mp he] at hnot
      dsimp only at hnot
      rw [hspace] at hnot
      cases hnot

theorem mem_collapse {c : UInt8} (h : c ∈ collapse s) : c = SP ∨ c ∈ s ∧ isspace c = false := by
  fun_induction collapse s with
  | case1 => cases h
  | case2 d p hd ih =>
      rw [Bool.not_eq_true'] at hd
      obtain rfl | h := List.mem_cons.mp h
      · exact .inr ⟨List.mem_cons_self, hd⟩
      · exact (ih h).imp_right fun hp => ⟨List.mem_cons_of_mem d hp.1, hp.2⟩
  | case3 d p hd ih =>
      obtain rfl | h := List.mem_cons.mp h
      · exact .inl rfl
      · exact (ih h).imp_right fun hp =>
          ⟨List.mem_cons_of_mem d ((List.dropWhile_sublist isspace).subset hp.1), hp.2⟩

theorem spaced_collapse (s : Text) : Spaced (collapse s) := by
  intro c hc hspace
  obtain h | h := mem_collapse hc
  · exact h
  · rw [hspace] at h
    exact absurd h.2.symm Bool.false_ne_true

theorem collapse_of_single (hspaced : Spaced t) (hsingle : Single t) : collapse t = t := by
  induction t with
  | nil => rw [collapse]
  | cons c p ih =>
      have hp := ih (hspaced.subset (List.subset_cons_self c p)) hsingle.of_cons
      rw [collapse]
      cases hc : isspace c with
      | false => rw [Bool.not_false, if_pos rfl, hp]
      | true =>
          have hdrop : p.dropWhile isspace = p := by
            cases p with
            | nil => rfl
            | cons d p =>
                have hd := (List.isChain_cons_cons.mp hsingle).1
                rw [hc] at hd
                rw [List.dropWhile_cons_of_neg (fun h => hd ⟨rfl, h⟩)]
          rw [Bool.not_true, if_neg Bool.false_ne_true, hdrop, hp,
            hspaced c List.mem_cons_self hc]

theorem upper_of_mem (h : ∀ c ∈ t, ¬(byte 'a' ≤ c ∧ c ≤ byte 'z')) : upper t = t := by
  rw [upper, List.map_congr_left fun c hc => if_neg (h c hc), List.map_id']

theorem not_lower_of_upper : ∀ c : UInt8,
    ¬(byte 'a' ≤ (if byte 'a' ≤ c ∧ c ≤ byte 'z' then c - 32 else c) ∧
      (if byte 'a' ≤ c ∧ c ≤ byte 'z' then c - 32 else c) ≤ byte 'z') :=
  forall_byte (by decide +kernel)

theorem upper_of_part (h : r <:+: collapse (upper s)) : upper r = r := by
  apply upper_of_mem
  intro c hc
  obtain rfl | hmem := mem_collapse (h.subset hc)
  · decide
  · rw [upper, List.mem_map] at hmem
    obtain ⟨⟨d, hd, rfl⟩, hspace⟩ := hmem
    exact not_lower_of_upper d

/-- The base subject as the rules determine it. -/
theorem coresubj_runs (s : Text) :
    Runs source (collapse (upper s)) (marked (coresubj s).2) (coresubj s).1 := by
  obtain ⟨m, hruns, hmarked⟩ := stripLoop_runs (x := ⟨collapse (upper s), 0, none⟩)
    (spaced_collapse (upper s))
  have hm : marked (coresubj s).2 = m := hmarked
  rw [hm]
  exact hruns

theorem coresubj_idempotent (s : Text) : coresubj (coresubj s).1 = ((coresubj s).1, 0) := by
  have hruns := coresubj_runs s
  have hpart := hruns.1.part source_trims
  have hfix : collapse (upper (coresubj s).1) = (coresubj s).1 := by
    rw [upper_of_part hpart]
    exact collapse_of_single ((spaced_collapse _).subset hpart.subset)
      (
        List.IsChain.infix (single_collapse _) hpart)
  have hagain := coresubj_runs (coresubj s).1
  rw [hfix] at hagain
  obtain ⟨hmark, htext⟩ := hagain.unique ⟨.refl _, hruns.2⟩
  rw [marked, decide_eq_false_iff_not, not_not] at hmark
  exact Prod.ext htext hmark

/-- A base subject stays what it is, and the text of the kept blobs fits its buffer. -/
theorem idempotent_and_fits (s : Text) :
    coresubj (coresubj s).1 = ((coresubj s).1, 0) ∧
      (coresubj_keepblobs s).1.length ≤ s.length ∧ (coresubj_keepblobs s).2 ≤ s.length := by
  exact ⟨coresubj_idempotent s, keepblobs_fits s⟩

example : coresubj (str "[a] re[b]: Fwd: x (fwd)") = (str "X", 3) := by decide +kernel

end Idempotent
end Cone.Imapsubj
