import Cone.Imapsubj

/-! # The buffer of the kept blobs

A blob is saved from the subject in front of the new cursor, so that what was saved and what is left
are never longer than the subject. -/
set_option autoImplicit false
namespace Cone.Imapsubj

open Cone.Ctype
open Cone.ImapBodystructure (Text upper)

section Bounds
variable {n : Nat} {x y : Cursor}

def Fits (n : Nat) (p : Text) (save : Option Saved) : Prop :=
  ∃ b, save = some b ∧ b.text.length + p.length ≤ n ∧ b.written ≤ n

theorem Fits.shorter {p q : Text} {save : Option Saved} (h : Fits n p save)
    (hq : q.length ≤ p.length) : Fits n q save := by
  obtain ⟨b, hb, hroom, hwritten⟩ := h
  exact ⟨b, hb, by omega, hwritten⟩

theorem fits_skipblob {p : Text} {save : Option Saved} (h : Fits n p save) :
    Fits n (skipblob p save).1 (skipblob p save).2 := by
  have hle := length_blobEnd_le p
  rw [skipblob]
  dsimp only
  split
  · obtain ⟨b, rfl, hroom, hwritten⟩ := h
    have hlen : (b.put (p.take (p.length - (blobEnd p).length))).text.length =
        b.text.length + (p.length - (blobEnd p).length) := by
      rw [Saved.put, List.length_append, List.length_take]
      omega
    have hput : (b.put (p.take (p.length - (blobEnd p).length))).written =
        max b.written (b.text.length + (p.length - (blobEnd p).length)) := by
      rw [← hlen]
      rfl
    refine ⟨_, rfl, ?_, ?_⟩
    · rw [hlen]
      omega
    · rw [hput]
      omega
  · exact h.shorter hle

theorem Fits.back {p q : Text} {save orig : Option Saved} (h : Fits n q save)
    (horig : Fits n p orig) : Fits n p (save.bind fun b => orig.map b.back) := by
  obtain ⟨b, rfl, -, hwritten⟩ := h
  obtain ⟨o, rfl, hroom, -⟩ := horig
  exact ⟨b.back o, rfl, hroom, hwritten⟩

theorem fits_stripRefwd (h : Fits n x.p x.save) :
    Fits n (stripRefwd x).2.p (stripRefwd x).2.save := by
  rw [stripRefwd]
  split
  · exact h
  · rename_i flag q hmarker
    have hlt := marker_length hmarker
    have hskip := length_skipblobs_le x.p
    have hblob := fits_skipblob (h.shorter (q := q) (by omega))
    dsimp only
    split
    · exact hblob.back h
    · rename_i c p heq
      split
      · rw [heq] at hblob
        exact hblob.shorter (Nat.le_succ _)
      · exact hblob.back h

theorem fits_stripBlob (h : Fits n x.p x.save) :
    Fits n (stripBlob x).2.p (stripBlob x).2.save := by
  have hblob := fits_skipblob h
  rw [stripBlob]
  split
  · exact hblob
  · exact hblob.back h

theorem fits_leaderStep (h : Fits n x.p x.save) :
    Fits n (leaderStep x).2.p (leaderStep x).2.save := by
  rw [leaderStep]
  split
  · exact h
  · rename_i c p heq
    split
    · rw [heq] at h
      exact h.shorter (Nat.le_succ _)
    · dsimp only
      split
      · exact fits_stripRefwd h
      · exact fits_stripBlob (fits_stripRefwd h)

theorem fits_leader (h : Fits n x.p x.save) : Fits n (leader x).p (leader x).save := by
  fun_induction leader x with
  | case1 x y hstep ih =>
      have hfits := fits_leaderStep h
      rw [hstep] at hfits
      exact ih hfits
  | case2 x y hstep =>
      have hfits := fits_leaderStep h
      rwa [hstep] at hfits

theorem fits_stripLoop (h : Fits n x.p x.save) : Fits n (stripLoop x).p (stripLoop x).save := by
  have hends : ∀ x : Cursor, Fits n x.p x.save → Fits n (stripEnds x).p (stripEnds x).save := by
    intro x h
    have hlen := length_trailer_le x.p.reverse x.hasrefwd
    rw [List.length_reverse] at hlen
    apply fits_leader
    apply h.shorter
    rw [List.length_reverse]
    exact hlen
  fun_induction stripLoop x with
  | case1 x y hfwd ih => exact ih ((hends x h).shorter (Nat.le_of_lt (length_unwrap hfwd)))
  | case2 x y hfwd => exact hends x h

theorem length_collapse_le (s : Text) : (collapse s).length ≤ s.length := by
  fun_induction collapse s with
  | case1 => exact Nat.le_refl 0
  | case2 c p hc ih => exact Nat.succ_le_succ ih
  | case3 c p hc ih =>
      have hdrop := (List.dropWhile_sublist isspace (l := p)).length_le
      rw [List.length_cons, List.length_cons]
      omega

/-- The result, and all that was written on the way to it, fits the bytes of the argument. -/
theorem keepblobs_fits (s : Text) :
    (coresubj_keepblobs s).1.length ≤ s.length ∧ (coresubj_keepblobs s).2 ≤ s.length := by
  have hlen := length_collapse_le s
  have hstart : Fits s.length (collapse s) (some ⟨[], 0⟩) :=
    ⟨⟨[], 0⟩, rfl, by simpa using hlen, Nat.zero_le _⟩
  obtain ⟨b, hb, hroom, hwritten⟩ := fits_stripLoop (x := ⟨collapse s, 0, some ⟨[], 0⟩⟩) hstart
  rw [coresubj_keepblobs, stripsubj]
  dsimp only
  rw [hb]
  simp only [Option.map_some, Option.getD_some, List.length_append]
  omega

end Bounds
end Cone.Imapsubj
