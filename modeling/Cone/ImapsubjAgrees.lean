import Cone.ImapsubjIdempotent
import Cone.Lib.Words

/-! # The base subject of the quoted rules

`skipblob` takes more for a blob than the ABNF of the comments does, for it lets characters past 7f
in, and `stripRefwd` takes less for a marker, for it has no whitespace behind the word. -/
set_option autoImplicit false
namespace Cone.Imapsubj

open Cone.Ctype Cone.Lib.Words
open Cone.ImapBodystructure (Text upper)

/-- A character that is no `CHAR`. -/
def foreign (c : UInt8) : Bool := !isBlobchar c && !isBracket c

/-- The code removes a blob that the ABNF does not have. -/
def TakesForeign (t : Text) : Prop :=
  ∃ b u, rule source t = some (b, u) ∧ u.countP foreign < t.countP foreign

def Gap (t : Text) : Prop :=
  TailFree t ∧ t.head? ≠ some SP ∧ rfc.leader t ≠ none ∧
    ∃ flag q, marker (rfc.blobs t.length t) = some (flag, SP :: q)

def Odd (t : Text) : Prop := TakesForeign t ∨ Gap t

/-- The rules reach no subject that the code and the ABNF read differently. -/
def Regular (s : Text) : Prop := ∀ m t, Steps rfc (collapse (upper s)) m t → ¬Odd t

/-! ## The blobs -/

section Blobs
variable {t u : Text}

theorem foreign_blobchar : ∀ c, isBlobchar c = true → isBracket c = false ∧ foreign c = false :=
  forall_byte (by decide +kernel)

theorem source_blob_iff : Source.blob t = some u ↔ ∃ w r, t = byte '[' :: (w ++ byte ']' :: r) ∧
    (∀ c ∈ w, isBracket c = false) ∧ u = r.dropWhile isspace := by
  constructor
  · intro h
    rw [Source.blob] at h
    split at h
    · rename_i hne
      cases h
      cases t with
      | nil => exact absurd rfl hne
      | cons c t =>
          rw [blobEnd] at hne ⊢
          split at hne
          · rename_i hc
            rw [if_pos hc]
            split at hne
            · exact absurd rfl hne
            · rename_i d r heq
              split at hne
              · rename_i hd
                obtain ⟨w, rfl, hw, -⟩ := dropWhile_eq_cons heq
                rw [if_pos hd]
                refine ⟨w, r, by rw [hc, hd], fun c hc => ?_, rfl⟩
                exact Bool.not_eq_true' _ ▸ hw c hc
              · exact absurd rfl hne
          · exact absurd rfl hne
    · cases h
  · intro h
    obtain ⟨w, r, rfl, hw, rfl⟩ := h
    have hdrop : (w ++ byte ']' :: r).dropWhile (!isBracket ·) = byte ']' :: r := by
      apply dropWhile_append_stop (fun c hc => by rw [hw c hc]; rfl)
      intro c hc
      cases hc
      decide
    have hend : blobEnd (byte '[' :: (w ++ byte ']' :: r)) = r.dropWhile isspace := by
      rw [blobEnd, if_pos rfl, hdrop]
      dsimp only
      rw [if_pos rfl]
    have hne : r.dropWhile isspace ≠ byte '[' :: (w ++ byte ']' :: r) := by
      intro heq
      have hlen := (List.dropWhile_sublist isspace (l := r)).length_le
      rw [heq, List.length_cons, List.length_append, List.length_cons] at hlen
      omega
    rw [Source.blob, hend, if_pos hne]

theorem rfc_blob_iff : Rfc.blob t = some u ↔ ∃ w r, t = byte '[' :: (w ++ byte ']' :: r) ∧
    (∀ c ∈ w, isBlobchar c = true) ∧ u = skipWsp r := by
  constructor
  · intro h
    cases t with
    | nil => cases h
    | cons c t =>
        rw [Rfc.blob] at h
        split at h
        · rename_i hc
          split at h
          · cases h
          · rename_i d r heq
            split at h
            · rename_i hd
              cases h
              obtain ⟨w, rfl, hw, -⟩ := dropWhile_eq_cons heq
              exact ⟨w, r, by rw [hc, hd], hw, rfl⟩
            · cases h
        · cases h
  · intro h
    obtain ⟨w, r, rfl, hw, rfl⟩ := h
    have hdrop : (w ++ byte ']' :: r).dropWhile isBlobchar = byte ']' :: r := by
      apply dropWhile_append_stop hw
      intro c hc
      cases hc
      decide
    rw [Rfc.blob, if_pos rfl, hdrop]
    dsimp only
    rw [if_pos rfl]

theorem skipWsp_of_spaced (h : Spaced t) : skipWsp t = t.dropWhile isspace := by
  induction t with
  | nil => rfl
  | cons c t ih =>
      have ht := ih (h.subset (List.subset_cons_self c t))
      by_cases hc : c = SP
      · rw [skipWsp, List.dropWhile_cons_of_pos (by rw [hc]; decide),
          List.dropWhile_cons_of_pos (by rw [hc]; decide)]
        exact ht
      · rw [skipWsp, List.dropWhile_cons_of_neg (by rw [decide_eq_true_eq]; exact hc),
          List.dropWhile_cons_of_neg (fun hspace => hc (h c List.mem_cons_self hspace))]

theorem source_blob_of_rfc (hspaced : Spaced t) (h : Rfc.blob t = some u) :
    Source.blob t = some u := by
  obtain ⟨w, r, rfl, hw, rfl⟩ := rfc_blob_iff.mp h
  refine source_blob_iff.mpr ⟨w, r, rfl, fun c hc => (foreign_blobchar c (hw c hc)).1, ?_⟩
  apply skipWsp_of_spaced (hspaced.subset _)
  intro c hc
  simp [hc]

theorem countP_skipWsp (t : Text) : (skipWsp t).countP foreign = t.countP foreign := by
  induction t with
  | nil => rfl
  | cons c t ih =>
      by_cases hc : c = SP
      · rw [skipWsp, List.dropWhile_cons_of_pos (by rw [hc]; decide), List.countP_cons_of_neg]
        · exact ih
        · rw [hc]
          decide
      · rw [skipWsp, List.dropWhile_cons_of_neg (by rw [decide_eq_true_eq]; exact hc)]

theorem countP_rfc_blob (h : Rfc.blob t = some u) : u.countP foreign = t.countP foreign := by
  obtain ⟨w, r, rfl, hw, rfl⟩ := rfc_blob_iff.mp h
  have hzero : w.countP foreign = 0 :=
    List.countP_eq_zero.mpr fun c hc => by
      rw [(foreign_blobchar c (hw c hc)).2]
      exact Bool.false_ne_true
  rw [List.countP_cons_of_neg (by decide), List.countP_append, List.countP_cons_of_neg (by decide),
    hzero, Nat.zero_add, countP_skipWsp]

/-- A blob of the code's alone has a character that is no `CHAR`. -/
theorem countP_source_blob (h : Source.blob t = some u) (hrfc : Rfc.blob t = none) :
    u.countP foreign < t.countP foreign := by
  obtain ⟨w, r, rfl, hw, rfl⟩ := source_blob_iff.mp h
  have hpos : 0 < w.countP foreign := by
    by_contra hnone
    have hall := List.countP_eq_zero.mp (Nat.eq_zero_of_not_pos hnone)
    have hblob : ∀ c ∈ w, isBlobchar c = true := by
      intro c hc
      have hnot := hall c hc
      rwa [foreign, hw c hc, Bool.not_false, Bool.and_true, Bool.not_eq_true, Bool.not_eq_false']
        at hnot
    rw [rfc_blob_iff.mpr ⟨w, r, rfl, hblob, rfl⟩] at hrfc
    cases hrfc
  have hle := (List.dropWhile_sublist isspace (l := r)).countP_le (p := foreign)
  rw [List.countP_cons_of_neg (by decide), List.countP_append, List.countP_cons_of_neg (by decide)]
  omega

theorem head_of_source_blob (h : Source.blob t = some u) : t.head? = some (byte '[') := by
  obtain ⟨w, r, rfl, hw, rfl⟩ := source_blob_iff.mp h
  rfl

/-- The two grammars have the same blobs in front, or the code removes one of its own. -/
theorem blobs_cases (n : Nat) (hlen : t.length ≤ n) (hspaced : Spaced t) :
    skipblobs t = rfc.blobs n t ∨ (skipblobs t).countP foreign < t.countP foreign ∧
      (rfc.blobs n t).head? = some (byte '[') := by
  induction n generalizing t with
  | zero =>
      rw [List.length_eq_zero_iff.mp (Nat.le_zero.mp hlen)]
      rw [skipblobs, if_neg (by decide)]
      exact .inl rfl
  | succ n ih =>
      have hsource : skipblobs t = (Source.blob t).elim t skipblobs := by
        rw [skipblobs, Source.blob]
        by_cases hne : blobEnd t = t
        · rw [if_neg (not_not.mpr hne), if_neg (by rw [hne]; omega), Option.elim_none]
        · rw [if_pos hne, if_pos (length_blobEnd_lt hne), Option.elim_some]
      rw [hsource, Grammar.blobs]
      dsimp only [rfc]
      cases hrfc : Rfc.blob t with
      | some u =>
          have hblob := source_blob_of_rfc hspaced hrfc
          have hsuffix := source_trims.1 t u hblob
          have hlt : u.length < t.length := by
            obtain ⟨w, r, rfl, hw, rfl⟩ := rfc_blob_iff.mp hrfc
            have hle := (List.dropWhile_sublist (fun c => decide (c = SP)) (l := r)).length_le
            rw [skipWsp, List.length_cons, List.length_append, List.length_cons]
            omega
          rw [hblob, Option.elim_some]
          dsimp only
          rw [← countP_rfc_blob hrfc]
          exact ih (by omega) (hspaced.subset hsuffix.subset)
      | none =>
          cases hblob : Source.blob t with
          | none => exact .inl rfl
          | some u =>
              have hle := (skipblobs_suffix u).sublist.countP_le (p := foreign)
              exact .inr ⟨Nat.lt_of_le_of_lt hle (countP_source_blob hblob hrfc),
                head_of_source_blob hblob⟩

end Blobs

/-! ## The markers -/

section Markers
variable {t u q : Text} {flag : Nat}

theorem begins_fwd (q : Text) : begins "FWD" q = (begins "FW" q && begins "D" (q.drop 2)) := by
  have hfwd : "FWD".length = 3 := rfl
  have hfw : "FW".length = 2 := rfl
  have hd : "D".length = 1 := rfl
  match q with
  | [] => decide
  | [a] => simp [begins, upper, str, hfwd, hfw, hd]
  | [a, b] => simp [begins, upper, str, hfwd, hfw, hd]
  | a :: b :: c :: q => simp [begins, upper, str, hfwd, hfw, hd, Bool.and_assoc, Bool.decide_and]

theorem head_of_begins {w : String} (hw : w.length ≠ 0) (h : begins w q = true) :
    (upper q).head? = (str w).head? := by
  rw [begins, decide_eq_true_eq] at h
  obtain ⟨n, hn⟩ := Nat.exists_eq_succ_of_ne_zero hw
  rw [← h, hn]
  cases q with
  | nil => rfl
  | cons c q => rfl

theorem word_eq (q : Text) : Rfc.word q = (marker q).map Prod.snd := by
  rw [Rfc.word, marker, begins_fwd]
  cases begins "RE" q with
  | true => rfl
  | false =>
      cases begins "FW" q with
      | false => rfl
      | true => cases begins "D" (q.drop 2) <;> rfl

theorem upper_head_of_marker (h : marker q = some (flag, u)) :
    (upper q).head? = some (byte 'R') ∨ (upper q).head? = some (byte 'F') := by
  rw [marker] at h
  split at h
  · rename_i hw
    exact .inl (head_of_begins (by decide) hw)
  · split at h
    · rename_i hw
      exact .inr (head_of_begins (by decide) hw)
    · split at h
      · rename_i hw
        exact .inr (head_of_begins (by decide) hw)
      · cases h

theorem head_of_marker (h : marker q = some (flag, u)) : q.head? ≠ some (byte '[') := by
  intro hq
  have hhead := upper_head_of_marker h
  rw [upper, List.head?_map, hq] at hhead
  revert hhead
  decide

theorem colon_iff : Rfc.colon t = some u ↔ (Rfc.blob t).getD t = byte ':' :: u := by
  rw [Rfc.colon]
  split
  · rename_i heq
    rw [heq]
    exact iff_of_false (by intro no; cases no) (by intro no; cases no)
  · rename_i c r heq
    rw [heq]
    split
    · rename_i hc
      rw [hc]
      exact ⟨fun h => by cases h; rfl, fun h => by cases h; rfl⟩
    · rename_i hc
      exact iff_of_false (by intro no; cases no) fun h => hc (List.cons.inj h).1

theorem source_refwd_iff (h : marker q = some (flag, t)) :
    Source.refwd q = some u ↔ blobEnd t = byte ':' :: u := by
  rw [Source.refwd, h, Option.bind_some]
  dsimp only
  split
  · rename_i heq
    rw [heq]
    exact ⟨nofun, nofun⟩
  · rename_i c r heq
    rw [heq]
    split
    · rename_i hc
      rw [hc]
      exact ⟨fun h => by cases h; rfl, fun h => by cases h; rfl⟩
    · rename_i hc
      exact ⟨nofun, fun h => absurd (List.cons.inj h).1 hc⟩

theorem rfc_refwd_iff (h : marker q = some (flag, t)) :
    Rfc.refwd q = some u ↔ (Rfc.blob (skipWsp t)).getD (skipWsp t) = byte ':' :: u := by
  rw [Rfc.refwd, word_eq, h, Option.map_some, Option.bind_some, colon_iff]

theorem blobEnd_eq (t : Text) : blobEnd t = (Source.blob t).getD t := by
  rw [Source.blob]
  by_cases hne : blobEnd t = t
  · rw [if_neg (not_not.mpr hne), Option.getD_none, hne]
  · rw [if_pos hne, Option.getD_some]

theorem skipWsp_of_head (h : t.head? ≠ some SP) : skipWsp t = t := by
  cases t with
  | nil => rfl
  | cons c t =>
      rw [skipWsp, List.dropWhile_cons_of_neg]
      rw [decide_eq_true_eq]
      intro hc
      exact h (congrArg some hc)

theorem source_refwd_of_rfc (hspaced : Spaced t) (hhead : t.head? ≠ some SP)
    (hmarker : marker q = some (flag, t)) (h : Rfc.refwd q = some u) :
    Source.refwd q = some u := by
  rw [rfc_refwd_iff hmarker, skipWsp_of_head hhead] at h
  rw [source_refwd_iff hmarker, blobEnd_eq]
  cases hrfc : Rfc.blob t with
  | some v =>
      rw [hrfc] at h
      rw [source_blob_of_rfc hspaced hrfc]
      exact h
  | none =>
      rw [hrfc, Option.getD_none] at h
      cases hblob : Source.blob t with
      | none => exact h
      | some v =>
          have hbracket := head_of_source_blob hblob
          rw [h, List.head?_cons] at hbracket
          exact absurd hbracket (by decide)

theorem rfc_refwd_of_source (hspaced : Spaced t) (hmarker : marker q = some (flag, t))
    (h : Source.refwd q = some u) :
    Rfc.refwd q = some u ∨ u.countP foreign < t.countP foreign := by
  rw [source_refwd_iff hmarker, blobEnd_eq] at h
  cases hblob : Source.blob t with
  | none =>
      rw [hblob, Option.getD_none] at h
      have hrfc : Rfc.blob t = none := by
        cases hrfc : Rfc.blob t with
        | none => rfl
        | some v =>
            rw [source_blob_of_rfc hspaced hrfc] at hblob
            cases hblob
      have hhead : t.head? ≠ some SP := by
        rw [h, List.head?_cons]
        decide
      left
      rw [rfc_refwd_iff hmarker, skipWsp_of_head hhead, hrfc]
      exact h
  | some v =>
      have hhead : t.head? ≠ some SP := by
        rw [head_of_source_blob hblob]
        decide
      cases hrfc : Rfc.blob t with
      | some w =>
          rw [source_blob_of_rfc hspaced hrfc] at h
          left
          rw [rfc_refwd_iff hmarker, skipWsp_of_head hhead, hrfc]
          exact h
      | none =>
          have hlt := countP_source_blob hblob hrfc
          rw [hblob, Option.getD_some] at h
          rw [h, List.countP_cons_of_neg (by decide)] at hlt
          exact .inr hlt

end Markers

/-! ## Where the two agree -/

section Agree
variable {t u : Text}

theorem marker_of_refwd (h : Rfc.refwd t ≠ none) : ∃ flag q, marker t = some (flag, q) := by
  cases hmarker : marker t with
  | none =>
      rw [Rfc.refwd, word_eq, hmarker] at h
      exact absurd rfl h
  | some r => exact ⟨r.1, r.2, rfl⟩

/-- Where the ABNF has a marker, both have the same blobs in front of it. -/
theorem skipblobs_of_leader (hspaced : Spaced t) (h : rfc.leader t ≠ none) :
    skipblobs t = rfc.blobs t.length t := by
  obtain ⟨flag, q, hmarker⟩ := marker_of_refwd h
  obtain heq | ⟨-, hhead⟩ := blobs_cases t.length (Nat.le_refl _) hspaced
  · exact heq
  · exact absurd hhead (head_of_marker hmarker)

theorem source_leader_of_rfc (hspaced : Spaced t) (h : rfc.leader t = some u)
    (hgap : ¬∃ flag q, marker (rfc.blobs t.length t) = some (flag, SP :: q)) :
    source.leader t = some u := by
  have hsome : rfc.leader t ≠ none := by
    rw [h]
    exact nofun
  have hblobs := skipblobs_of_leader hspaced hsome
  obtain ⟨flag, q, hmarker⟩ := marker_of_refwd hsome
  have hsuffix : q <:+ t := by
    have hq := (marker_flag hmarker).2
    rw [← hblobs] at hq
    exact hq.trans (skipblobs_suffix t)
  have hhead : q.head? ≠ some SP := by
    intro hq
    cases q with
    | nil => cases hq
    | cons c q =>
        cases hq
        exact hgap ⟨flag, q, hmarker⟩
  rw [source_leader, hblobs]
  exact source_refwd_of_rfc (hspaced.subset hsuffix.subset) hhead hmarker h

theorem rfc_leader_of_source (hspaced : Spaced t) (h : source.leader t = some u) :
    rfc.leader t = some u ∨ u.countP foreign < t.countP foreign := by
  rw [source_leader] at h
  obtain heq | ⟨hlt, -⟩ := blobs_cases t.length (Nat.le_refl _) hspaced
  · have hmarker : ∃ flag q, marker (skipblobs t) = some (flag, q) := by
      cases hmarker : marker (skipblobs t) with
      | none =>
          rw [Source.refwd, hmarker] at h
          cases h
      | some r => exact ⟨r.1, r.2, rfl⟩
    obtain ⟨flag, q, hmarker⟩ := hmarker
    have hsuffix := (marker_flag hmarker).2.trans (skipblobs_suffix t)
    obtain hrfc | hlt := rfc_refwd_of_source (hspaced.subset hsuffix.subset) hmarker h
    · rw [heq] at hrfc
      exact .inl hrfc
    · exact .inr (Nat.lt_of_lt_of_le hlt hsuffix.sublist.countP_le)
  · have hle := (source_refwd_suffix h).sublist.countP_le (p := foreign)
    exact .inr (Nat.lt_of_le_of_lt hle hlt)

theorem ruleBlob_agrees (hspaced : Spaced t)
    (h : ∀ u, Source.blob t = some u → u ≠ [] → Rfc.blob t ≠ none) :
    ruleBlob source t = ruleBlob rfc t := by
  rw [ruleBlob, ruleBlob]
  dsimp only [source, rfc]
  cases hrfc : Rfc.blob t with
  | some u => rw [source_blob_of_rfc hspaced hrfc]
  | none =>
      cases hblob : Source.blob t with
      | none => rfl
      | some u =>
          by_cases hu : u = []
          · dsimp only
            rw [if_neg (not_not.mpr hu)]
          · exact absurd hrfc (h u hblob hu)

theorem ruleLeader_agrees (hspaced : Spaced t) (hfree : TailFree t) (hhead : t.head? ≠ some SP)
    (h : ¬Odd t) : ruleLeader source t = ruleLeader rfc t := by
  have hrule : rule source t = ruleLeader source t := rule_of_tailFree hfree hhead
  cases hrfc : rfc.leader t with
  | some u =>
      have hgap : ¬∃ flag q, marker (rfc.blobs t.length t) = some (flag, SP :: q) := by
        intro hmarker
        exact h (.inr ⟨hfree, hhead, by rw [hrfc]; exact nofun, hmarker⟩)
      rw [ruleLeader, ruleLeader, source_leader_of_rfc hspaced hrfc hgap, hrfc]
  | none =>
      cases hsource : source.leader t with
      | some u =>
          rw [ruleLeader, hsource] at hrule
          obtain hu | hlt := rfc_leader_of_source hspaced hsource
          · rw [hrfc] at hu
            cases hu
          · exact absurd (.inl ⟨true, u, hrule, hlt⟩) h
      | none =>
          rw [ruleLeader, hsource] at hrule
          rw [ruleLeader, ruleLeader, hsource, hrfc]
          apply ruleBlob_agrees hspaced
          intro u hblob hu hnone
          have hremoved : rule source t = some (false, u) := by
            rw [hrule, ruleBlob]
            dsimp only [source]
            rw [hblob]
            exact if_pos hu
          exact h (.inl ⟨false, u, hremoved, countP_source_blob hblob hnone⟩)

theorem rule_agrees (hspaced : Spaced t) (h : ¬Odd t) : rule source t = rule rfc t := by
  by_cases hlast : t.getLast? = some SP
  · rw [rule, rule, if_pos hlast, if_pos hlast]
  · cases hend : endsFwd t with
    | true => rw [rule, rule, if_neg hlast, if_neg hlast, hend, if_pos rfl, if_pos rfl]
    | false =>
        by_cases hhead : t.head? = some SP
        · rw [rule, rule, if_neg hlast, if_neg hlast, hend, if_neg Bool.false_ne_true,
            if_neg Bool.false_ne_true, if_pos hhead, if_pos hhead]
        · rw [rule_of_tailFree ⟨hlast, hend⟩ hhead, rule_of_tailFree ⟨hlast, hend⟩ hhead]
          exact ruleLeader_agrees hspaced ⟨hlast, hend⟩ hhead h

end Agree

/-! ## Where they differ -/

section Differ
variable {t u q r r' : Text} {b m m' : Bool} {flag : Nat}

theorem skipWsp_suffix (t : Text) : skipWsp t <:+ t := List.dropWhile_suffix _

theorem rfc_blob_suffix (h : Rfc.blob t = some u) : u <:+ t := by
  obtain ⟨w, r, rfl, hw, rfl⟩ := rfc_blob_iff.mp h
  exact (skipWsp_suffix r).trans ((List.suffix_cons (byte ']') r).trans
    ((List.suffix_append w _).trans (List.suffix_cons (byte '[') _)))

theorem colon_suffix (hmarker : marker t = some (flag, q)) (h : Rfc.refwd t = some u) :
    byte ':' :: u <:+ q ∧ (byte ':' :: u).countP foreign = q.countP foreign := by
  rw [rfc_refwd_iff hmarker] at h
  rw [← h]
  cases hblob : Rfc.blob (skipWsp q) with
  | none => exact ⟨skipWsp_suffix q, countP_skipWsp q⟩
  | some v =>
      exact ⟨(rfc_blob_suffix hblob).trans (skipWsp_suffix q),
        (countP_rfc_blob hblob).trans (countP_skipWsp q)⟩

theorem rfc_trims : rfc.Trims := by
  constructor
  · intro t u h
    exact rfc_blob_suffix h
  · intro t u h
    obtain ⟨flag, q, hmarker⟩ := marker_of_refwd (t := t) (by
      rw [show Rfc.refwd t = some u from h]
      exact nofun)
    exact (List.suffix_cons (byte ':') u).trans
      ((colon_suffix hmarker h).1.trans (marker_flag hmarker).2)

theorem foreign_upper : ∀ c : UInt8,
    foreign (if byte 'a' ≤ c ∧ c ≤ byte 'z' then c - 32 else c) = foreign c :=
  forall_byte (by decide +kernel)

theorem countP_upper (t : Text) : (upper t).countP foreign = t.countP foreign := by
  rw [upper, List.countP_map]
  congr 1
  funext c
  exact foreign_upper c

theorem countP_drop_begins {w : String} (hw : (str w).countP foreign = 0)
    (h : begins w t = true) : (t.drop w.length).countP foreign = t.countP foreign := by
  rw [begins, decide_eq_true_eq] at h
  have htake : (t.take w.length).countP foreign = 0 := by
    rw [← countP_upper, h, hw]
  calc (t.drop w.length).countP foreign
      = (t.take w.length).countP foreign + (t.drop w.length).countP foreign := by
        rw [htake, Nat.zero_add]
    _ = t.countP foreign := by rw [← List.countP_append, List.take_append_drop]

theorem countP_marker (h : marker t = some (flag, q)) : q.countP foreign = t.countP foreign := by
  rw [marker] at h
  split at h
  · rename_i hw
    cases h
    exact countP_drop_begins (by decide) hw
  · split at h
    · rename_i hw
      cases h
      exact countP_drop_begins (by decide) hw
    · split at h
      · rename_i hw
        cases h
        exact countP_drop_begins (by decide) hw
      · cases h

theorem countP_rfc_refwd (h : Rfc.refwd t = some u) : u.countP foreign = t.countP foreign := by
  obtain ⟨flag, q, hmarker⟩ := marker_of_refwd (t := t) (by
    rw [h]
    exact nofun)
  have hcolon := (colon_suffix hmarker h).2
  rw [List.countP_cons_of_neg (by decide)] at hcolon
  rw [hcolon, countP_marker hmarker]

theorem countP_blobs (n : Nat) (t : Text) : (rfc.blobs n t).countP foreign = t.countP foreign := by
  induction n generalizing t with
  | zero => rfl
  | succ n ih =>
      rw [Grammar.blobs]
      dsimp only [rfc]
      cases h : Rfc.blob t with
      | none => rfl
      | some u => exact (ih u).trans (countP_rfc_blob h)

theorem countP_dropLast {c : UInt8} (h : t.getLast? = some c) (hc : foreign c = false) :
    t.dropLast.countP foreign = t.countP foreign := by
  obtain ⟨init, rfl⟩ := List.getLast?_eq_some_iff.mp h
  rw [List.dropLast_concat, List.countP_append, List.countP_singleton, hc]
  rfl

theorem countP_ruleFwd (h : ruleFwd t = some (b, u)) : u.countP foreign = t.countP foreign := by
  rw [ruleFwd] at h
  split at h
  · rename_i hfwd
    cases h
    rw [isFwd, Bool.and_eq_true, beq_iff_eq] at hfwd
    obtain ⟨hbegins, hlast⟩ := hfwd
    have hdrop : (t.drop 5).countP foreign = t.countP foreign :=
      countP_drop_begins (w := "[FWD:") (by decide) hbegins
    rw [← List.dropLast_drop_eq_drop_dropLast, ← hdrop]
    by_cases hlen : t.length ≤ 5
    · rw [List.drop_eq_nil_of_le hlen]
      rfl
    · apply countP_dropLast (c := byte ']') _ (by decide)
      rw [List.getLast?_drop, if_neg hlen, hlast]
  · cases h

theorem countP_rule_rfc (h : rule rfc t = some (b, u)) : u.countP foreign = t.countP foreign := by
  rw [rule] at h
  split at h
  · rename_i hlast
    cases h
    exact countP_dropLast hlast (by decide)
  · split at h
    · rename_i hend
      cases h
      rw [endsFwd, Bool.and_eq_true, decide_eq_true_eq, decide_eq_true_eq] at hend
      have hzero : (t.drop (t.length - 5)).countP foreign = 0 := by
        rw [← countP_upper, hend.2]
        decide
      calc (t.take (t.length - 5)).countP foreign
          = (t.take (t.length - 5)).countP foreign +
              (t.drop (t.length - 5)).countP foreign := by rw [hzero, Nat.add_zero]
        _ = t.countP foreign := by rw [← List.countP_append, List.take_append_drop]
    · split at h
      · rename_i hhead
        cases h
        cases t with
        | nil => rfl
        | cons c t =>
            cases hhead
            exact (List.countP_cons_of_neg (by decide)).symm
      · rw [ruleLeader] at h
        split at h
        · rename_i hleader
          cases h
          exact (countP_rfc_refwd hleader).trans (countP_blobs _ t)
        · rw [ruleBlob] at h
          split at h
          · rename_i v hblob
            split at h
            · cases h
              exact countP_rfc_blob hblob
            · exact countP_ruleFwd h
          · exact countP_ruleFwd h

theorem countP_steps_rfc (h : Steps rfc t m r) : r.countP foreign = t.countP foreign := by
  induction h with
  | refl t => rfl
  | next hrule hrest ih => rw [ih, countP_rule_rfc hrule]

theorem Runs.rest {g : Grammar} (h : Runs g t m r) (hrule : rule g t = some (b, u)) :
    ∃ m', Runs g u m' r := by
  obtain ⟨hsteps, hend⟩ := h
  cases hsteps with
  | refl =>
      rw [hend] at hrule
      cases hrule
  | next hrule' hrest =>
      rw [hrule] at hrule'
      cases hrule'
      exact ⟨_, hrest, hend⟩

theorem differ_of_takesForeign (h : TakesForeign t) (hsource : Runs source t m r)
    (hrfc : Runs rfc t m' r') : r ≠ r' := by
  obtain ⟨b, u, hrule, hlt⟩ := h
  obtain ⟨m'', hruns⟩ := hsource.rest hrule
  have hle := (hruns.1.part source_trims).sublist.countP_le (p := foreign)
  have heq := countP_steps_rfc hrfc.1
  intro hr
  rw [← hr] at heq
  omega

theorem blobEnd_head (h : blobEnd t ≠ t) : (blobEnd t).head? ≠ some SP := by
  have hblob : Source.blob t = some (blobEnd t) := by rw [Source.blob, if_pos h]
  obtain ⟨w, r, -, -, hr⟩ := source_blob_iff.mp hblob
  have hnot := List.head?_dropWhile_not isspace r
  rw [hr]
  intro hhead
  rw [hhead] at hnot
  dsimp only at hnot
  rw [isspace_SP] at hnot
  cases hnot

theorem skipblobs_step (t : Text) :
    skipblobs t = if blobEnd t = t then t else skipblobs (blobEnd t) := by
  rw [skipblobs]
  by_cases hne : blobEnd t = t
  · rw [if_pos hne, if_neg (by rw [hne]; omega)]
  · rw [if_neg hne, if_pos (length_blobEnd_lt hne)]

theorem rule_of_gap (hmarker : marker q = some (flag, SP :: u)) (hq : skipblobs t = q)
    (hfree : TailFree t) (hhead : t.head? ≠ some SP) :
    rule source t = if blobEnd t = t then none else some (false, blobEnd t) := by
  have hblob : Source.blob (SP :: u) = none := by
    cases hblob : Source.blob (SP :: u) with
    | none => rfl
    | some v => exact absurd (head_of_source_blob hblob) (by rw [List.head?_cons]; decide)
  have hleader : source.leader t = none := by
    cases hleader : source.leader t with
    | none => rfl
    | some v =>
        rw [source_leader, hq, source_refwd_iff hmarker, blobEnd_eq, hblob, Option.getD_none]
          at hleader
        exact absurd (List.cons.inj hleader).1 (by decide)
  rw [rule_of_tailFree hfree hhead, ruleLeader, hleader, ruleBlob]
  dsimp only [source, Source.blob]
  rw [skipblobs_step] at hq
  by_cases hne : blobEnd t = t
  · rw [if_pos hne] at hq
    rw [if_neg (not_not.mpr hne), if_pos hne, hq]
    dsimp only
    rw [ruleFwd, if_neg]
    intro hfwd
    have hupper := head_of_begins (by decide) (Bool.and_eq_true_iff.mp hfwd).1
    have hmark := upper_head_of_marker hmarker
    rw [hupper] at hmark
    revert hmark
    decide
  · rw [if_neg hne] at hq
    have hnil : blobEnd t ≠ [] := by
      intro hnil
      rw [hnil, skipblobs, if_neg (by decide)] at hq
      rw [← hq] at hmarker
      cases hmarker
    rw [if_pos hne, if_neg hne]
    dsimp only
    rw [if_pos hnil]

theorem source_of_gap (hmarker : marker q = some (flag, SP :: u)) (hq : skipblobs t = q)
    (hfree : TailFree t) (hhead : t.head? ≠ some SP) (h : Runs source t m r) : r = q := by
  obtain ⟨hsteps, hend⟩ := h
  induction hsteps with
  | refl t =>
      rw [rule_of_gap hmarker hq hfree hhead] at hend
      split at hend
      · rename_i hne
        rw [skipblobs_step, if_pos hne] at hq
        exact hq
      · cases hend
  | next hrule hrest ih =>
      rename_i t v r b m
      rw [rule_of_gap hmarker hq hfree hhead] at hrule
      split at hrule
      · cases hrule
      · rename_i hne
        cases hrule
        rw [skipblobs_step, if_neg hne] at hq
        exact ih hq (hfree.suffix (blobEnd_suffix t)) (blobEnd_head hne) hend

/-- Behind a gap the code goes no further than the marker. -/
theorem differ_of_gap (h : Gap t) (hspaced : Spaced t) (hsource : Runs source t m r)
    (hrfc : Runs rfc t m' r') : r ≠ r' := by
  obtain ⟨hfree, hhead, hleader, flag, q, hmarker⟩ := h
  have hblobs := skipblobs_of_leader hspaced hleader
  have hr := source_of_gap hmarker hblobs hfree hhead hsource
  obtain ⟨u, hu⟩ := Option.ne_none_iff_exists'.mp hleader
  have hrule : rule rfc t = some (true, u) := by
    rw [rule_of_tailFree hfree hhead, ruleLeader, hu]
  obtain ⟨m'', hruns⟩ := hrfc.rest hrule
  have hle := (hruns.1.part rfc_trims).length_le
  have hcolon := (colon_suffix hmarker hu).1.length_le
  have hlt := marker_length hmarker
  intro heq
  rw [hr] at heq
  rw [List.length_cons] at hcolon
  rw [← heq] at hle
  omega

theorem differ (h : Odd t) (hspaced : Spaced t) (hsource : Runs source t m r)
    (hrfc : Runs rfc t m' r') : r ≠ r' := by
  obtain h | h := h
  · exact differ_of_takesForeign h hsource hrfc
  · exact differ_of_gap h hspaced hsource hrfc

end Differ

/-! ## Whole runs -/

section Whole
variable {t u r : Text} {m m' : Bool}

theorem rfc_of_source (hspaced : Spaced t) (h : ∀ m u, Steps rfc t m u → ¬Odd u)
    (hruns : Runs source t m r) : Runs rfc t m r := by
  obtain ⟨hsteps, hend⟩ := hruns
  induction hsteps with
  | refl t =>
      rw [rule_agrees hspaced (h false t (.refl t))] at hend
      exact ⟨.refl t, hend⟩
  | next hrule hrest ih =>
      rename_i t v r b m
      have hsub := rule_part source_trims hrule
      rw [rule_agrees hspaced (h false t (.refl t))] at hrule
      exact (ih (hspaced.subset hsub.subset)
        (fun m' u hu => h (b || m') u (.next hrule hu)) hend).cons hrule

theorem not_odd_of_same (hspaced : Spaced t) (hsource : Runs source t m r)
    (hrfc : Runs rfc t m' r) {m'' : Bool} (hsteps : Steps rfc t m'' u) : ¬Odd u := by
  induction hsteps generalizing m m' with
  | refl t => exact fun hodd => differ hodd hspaced hsource hrfc rfl
  | next hrule hrest ih =>
      rename_i t v u b n
      have hagree := rule_agrees hspaced fun hodd => differ hodd hspaced hsource hrfc rfl
      have hsub := rule_part rfc_trims hrule
      obtain ⟨n', hrfc'⟩ := hrfc.rest hrule
      rw [← hagree] at hrule
      obtain ⟨n'', hsource'⟩ := hsource.rest hrule
      exact ih (hspaced.subset hsub.subset) hsource' hrfc'

end Whole

/-- `rfc822_coresubj` has the base subject of the quoted rules exactly for the regular subjects. -/
theorem base_subject_iff_regular (s : Text) :
    Runs rfc (collapse (upper s)) (decide ((coresubj s).2 ≠ 0)) (coresubj s).1 ↔ Regular s := by
  have hspaced := spaced_collapse (upper s)
  have hruns := coresubj_runs s
  constructor
  · intro hrfc m t hsteps
    exact not_odd_of_same hspaced hruns hrfc hsteps
  · intro hregular
    exact rfc_of_source hspaced hregular hruns

/-- The ABNF has whitespace in front of the colon. -/
theorem space_before_colon : ¬Runs rfc (collapse (upper (str "Re : foo")))
    (decide ((coresubj (str "Re : foo")).2 ≠ 0)) (coresubj (str "Re : foo")).1 := by
  intro h
  exact absurd h.2 (by decide +kernel)

end Cone.Imapsubj
