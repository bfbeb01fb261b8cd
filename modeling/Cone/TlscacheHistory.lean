import Cone.TlscacheRuns

/-! # The cache as a queue of the newest values

Where the objects of the file are, and which of the values that were ever added they hold. -/
set_option autoImplicit false
namespace Cone.TlscacheRing

open Cone.Lib.ByteFile Cone.Tlscache

section Places
variable {file : Bytes} {pos prev : Nat} {r s : Ring} {v : Bytes}

def layout : Nat → List Bytes → List (Nat × Bytes)
  | _, [] => []
  | pos, v :: vs => (pos, v) :: layout (pos + TlscacheRing.size v) vs

def Ring.places (r : Ring) : List (Nat × Bytes) := layout r.head r.newer ++ layout r.first r.older

theorem layout_values (pos : Nat) (vs : List Bytes) : (layout pos vs).map Prod.snd = vs := by
  induction vs generalizing pos with
  | nil => rfl
  | cons v vs ih => rw [layout, List.map_cons, ih]

theorem places_values (r : Ring) : r.places.map Prod.snd = r.values := by
  rw [Ring.places, List.map_append, layout_values, layout_values]
  rfl

theorem layout_bounds {vs : List Bytes} {o : Nat × Bytes} (h : o ∈ layout pos vs) :
    pos ≤ o.1 ∧ o.1 + TlscacheRing.size o.2 ≤ pos + total vs := by
  induction vs generalizing pos with
  | nil => cases h
  | cons v vs ih =>
      rw [total_cons]
      rcases List.mem_cons.1 h with rfl | mem
      · exact ⟨Nat.le_refl _, by
          show pos + TlscacheRing.size v ≤ _
          omega⟩
      · obtain ⟨hle, hend⟩ := ih mem
        omega

def Apart (a b : Nat × Bytes) : Prop :=
  a.1 + TlscacheRing.size a.2 ≤ b.1 ∨ b.1 + TlscacheRing.size b.2 ≤ a.1

theorem layout_apart (pos : Nat) (vs : List Bytes) : (layout pos vs).Pairwise Apart := by
  induction vs generalizing pos with
  | nil => exact List.Pairwise.nil
  | cons v vs ih =>
      exact List.pairwise_cons.2 ⟨fun o mem => Or.inl (layout_bounds mem).1, ih _⟩

theorem Objects.read {vs : List Bytes} (h : Objects file pos prev vs) {hdr : Hdr}
    (hend : pos + total vs ≤ hdr.filesize) (hword : hdr.filesize < 2 ^ 64) :
    ∀ o ∈ layout pos vs, Tlscache.readrec file hdr o.1 = some (TlscacheRing.size o.2, o.2) := by
  induction vs generalizing pos prev with
  | nil => exact fun o mem => absurd mem List.not_mem_nil
  | cons v vs ih =>
      rw [total_cons] at hend
      intro o mem
      rcases List.mem_cons.1 mem with rfl | mem
      · exact h.readrec (by omega) hword
      · exact ih h.2.2 (by omega) o mem

structure Stored (file : Bytes) (hdr : Hdr) (places : List (Nat × Bytes)) : Prop where
  read : ∀ o ∈ places, readrec file hdr o.1 = some (TlscacheRing.size o.2, o.2)
  head : ∀ o ∈ places.head?, o.1 = hdr.head
  inside : ∀ o ∈ places, HDR ≤ o.1 ∧ o.1 + TlscacheRing.size o.2 ≤ hdr.filesize
  apart : places.Pairwise Apart

theorem Good.stored (h : Good file r) : Stored file r.hdr r.places := by
  have hsize := h.ok.filesize.2
  have hfile : r.hdr.filesize = r.filesize := rfl
  by_cases hne : r.newer = []
  · have hnil : r.places = [] := by
      rw [Ring.places, hne, (h.ok.empty hne).1]
      rfl
    rw [hnil]
    exact ⟨fun o mem => absurd mem List.not_mem_nil, fun o mem => (by cases mem),
      fun o mem => absurd mem List.not_mem_nil, List.Pairwise.nil⟩
  · have hb := h.ok.bounds hne
    have hhead := hb.head
    have hnewer : r.head + total r.newer ≤ r.filesize := by
      have hend := h.holds.newer.length_le hne
      have hlen := h.holds.length
      omega
    have holder : r.older = [] ∨ r.first + total r.older ≤ r.head ∧ HDR ≤ r.first := by
      by_cases hold : r.older = []
      · exact Or.inl hold
      · obtain ⟨_, _, hfirst, hgap, _⟩ := h.ok.wrapped hold
        exact Or.inr ⟨hgap, hfirst⟩
    have hbehind : ∀ o ∈ layout r.first r.older,
        HDR ≤ o.1 ∧ o.1 + TlscacheRing.size o.2 ≤ r.head := by
      intro o mem
      rcases holder with hnil | ⟨hgap, hfirst⟩
      · rw [hnil] at mem
        cases mem
      · obtain ⟨hle, hend⟩ := layout_bounds mem
        omega
    refine ⟨fun o mem => ?_, fun o mem => ?_, fun o mem => ?_, ?_⟩
    · rcases List.mem_append.1 mem with mem | mem
      · exact h.holds.newer.read (by omega) (by omega) o mem
      · rcases holder with hnil | ⟨hgap, hfirst⟩
        · rw [hnil] at mem
          cases mem
        · exact h.holds.older.read (by omega) (by omega) o mem
    · obtain ⟨v, vs, hvs⟩ := List.exists_cons_of_ne_nil hne
      rw [Ring.places, hvs] at mem
      exact (congrArg Prod.fst (Option.some.inj mem)).symm
    · rcases List.mem_append.1 mem with mem | mem
      · obtain ⟨hle, hend⟩ := layout_bounds mem
        omega
      · obtain ⟨hle, hend⟩ := hbehind o mem
        omega
    · refine List.pairwise_append.2 ⟨layout_apart _ _, layout_apart _ _, fun a ha b hb' => ?_⟩
      have hle := (layout_bounds ha).1
      have hend := (hbehind b hb').2
      exact Or.inr (by omega)

end Places

section Refinement
variable {r s : Ring} {v : Bytes} {size : Nat}

/-- What an operation makes of all the values that were ever added, the newest first.  A walk goes
on here to those that are gone, which no later one sees. -/
def remember (vs : List Bytes) : Op → List Bytes
  | .add val => val :: vs
  | .walk _ walk_func arg => (walked walk_func vs arg).2.1

def history (ops : List Op) : List Bytes := ops.foldl remember []

theorem walked_prefix {A : Type} (walk_func : Walker A) {vs ws : List Bytes} (h : vs <+: ws)
    (arg : A) : (walked walk_func vs arg).2.1 <+: (walked walk_func ws arg).2.1 := by
  obtain ⟨rest, rfl⟩ := h
  rw [walked_append]
  by_cases hrc : (walked walk_func vs arg).1 ≠ 0
  · rw [if_pos hrc]
    exact List.prefix_append _ _
  · rw [if_neg hrc]
    exact List.prefix_append _ _

theorem make_values {timer : Nat} (h : r.make timer v = some s) :
    ∃ vs, s.values = v :: vs ∧ vs <+: r.values := by
  induction timer generalizing r with
  | zero => cases h
  | succ timer ih =>
      rw [Ring.make] at h
      by_cases hroom : r.Room v
      · rw [if_pos hroom] at h
        obtain rfl := Option.some.inj h
        exact ⟨r.values, place_values r v, List.prefix_refl _⟩
      · rw [if_neg hroom] at h
        by_cases htwo : 2 ≤ r.values.length
        · rw [if_pos htwo] at h
          obtain ⟨vs, hvs, hprefix⟩ := ih h
          rw [evict_values] at hprefix
          exact ⟨vs, hvs, hprefix.trans (List.dropLast_prefix _)⟩
        · rw [if_neg htwo] at h
          cases h

theorem add_values (ok : r.Ok) (h : r.add v = some s)
    (hstored : ¬ (r.newer = [] ∧ r.filesize < HDR + TlscacheRing.size v)) :
    ∃ vs, s.values = v :: vs ∧ vs <+: r.values := by
  rw [Ring.add] at h
  by_cases hnil : r.newer = []
  · have hfits : HDR + TlscacheRing.size v ≤ r.filesize := by
      by_contra hlt
      exact hstored ⟨hnil, by omega⟩
    rw [if_pos hnil, if_pos hfits] at h
    obtain rfl := Option.some.inj h
    refine ⟨[], ?_, List.nil_prefix⟩
    rw [Ring.values, show (r.start v).older = r.older from rfl, (ok.empty hnil).1]
    rfl
  · rw [if_neg hnil] at h
    exact make_values h

theorem reached_history (hmin : TLSCACHEMINSIZE ≤ size) (hmax : size < 2 ^ 63) {ops : List Op}
    (h : ∀ before val rest, ops = before ++ .add val :: rest →
      (tls_cache_add (run (init size) before) val).1 = 0) :
    ∃ r file, reached size ops = some r ∧ run (init size) ops = some file ∧ Good file r ∧
      r.values <+: history ops ∧
        ∀ before val, ops = before ++ [.add val] → r.values ≠ [] := by
  induction ops using List.reverseRecOn with
  | nil =>
      obtain ⟨file, hinit, hgood⟩ := good_init hmin hmax
      exact ⟨Ring.empty size, file, rfl, hinit, hgood, List.nil_prefix, fun before val heq =>
        absurd heq.symm (List.append_ne_nil_of_right_ne_nil _ (List.cons_ne_nil _ _))⟩
  | append_singleton ops op ih =>
      obtain ⟨r, file, hr, hfile, hgood, hprefix, _⟩ := ih fun before val rest heq =>
        h before val (rest ++ [op]) (by rw [heq, List.append_assoc]; rfl)
      have hremember : history (ops ++ [op]) = remember (history ops) op := by
        rw [history, List.foldl_append]
        rfl
      rw [reached_concat, run_concat, hr, hfile, hremember, Option.bind_some]
      cases op with
      | add val =>
          have hzero := h ops val [] rfl
          rw [hfile, tls_cache_add] at hzero
          cases hadd : r.add val with
          | none =>
              have hcorrupt := hgood.doadd_corrupt hadd
              generalize doadd file val = added at hzero hcorrupt
              obtain ⟨result, after⟩ := added
              obtain rfl : result = Added.corrupt := hcorrupt
              cases hzero
          | some s =>
              obtain ⟨after, hafter, hgood'⟩ :=
                hgood.step (show r.step (.add val) = some s from hadd)
              obtain ⟨after', hdoadd, _⟩ := hgood.doadd hadd
              have hstored : ¬ (r.newer = [] ∧ r.filesize < HDR + TlscacheRing.size val) :=
                fun hfull => by
                  rw [hdoadd, if_pos hfull] at hzero
                  cases hzero
              obtain ⟨vs, hvs, hvs'⟩ := add_values hgood.ok hadd hstored
              refine ⟨s, after, hadd, hafter, hgood', ?_, fun _ _ _ => ?_⟩
              · rw [hvs]
                exact (List.prefix_cons_inj val).2 (hvs'.trans hprefix)
              · rw [hvs]
                exact List.cons_ne_nil _ _
      | walk A walk_func arg =>
          obtain ⟨after, hafter, hgood'⟩ :=
            hgood.step (show r.step (.walk A walk_func arg) = _ from rfl)
          refine ⟨_, after, rfl, hafter, hgood', ?_, fun before val heq => ?_⟩
          · rw [walk_values]
            exact walked_prefix walk_func hprefix arg
          · cases (List.append_inj' heq rfl).2

/-- After operations of which no add answered -1, the objects of the file are some number of the
values added last, apart from each other, and a walk visits them and no others. -/
theorem cache_history (hmin : TLSCACHEMINSIZE ≤ size) (hmax : size < 2 ^ 63) (ops : List Op)
    (h : ∀ before val rest, ops = before ++ .add val :: rest →
      (tls_cache_add (run (init size) before) val).1 = 0) :
    ∃ file hdr places k, run (init size) ops = some file ∧ readhdr file = some hdr ∧
      Stored file hdr places ∧ places.map Prod.snd = (history ops).take k ∧
      (∀ (A : Type) (walk_func : Walker A) (arg : A) rc vs last,
        walked walk_func ((history ops).take k) arg = (rc, vs, last) →
          (tls_cache_walk (some file) walk_func arg).1 = rc ∧
            (tls_cache_walk (some file) walk_func arg).2.2 = last) ∧
      ∀ before val, ops = before ++ [.add val] → 0 < k := by
  obtain ⟨r, file, _, hfile, hgood, hprefix, hnewest⟩ := reached_history hmin hmax h
  have htake : (history ops).take r.values.length = r.values :=
    (List.prefix_iff_eq_take.1 hprefix).symm
  refine ⟨file, r.hdr, r.places, r.values.length, hfile, hgood.readhdr, hgood.stored,
    (places_values r).trans htake.symm, fun A walk_func arg rc vs last hwalked => ?_,
    fun before val heq => List.length_pos_of_ne_nil (hnewest before val heq)⟩
  obtain ⟨after, hwalk, _⟩ := hgood.dowalk walk_func arg
  rw [htake] at hwalked
  rw [hwalked] at hwalk
  rw [tls_cache_walk]
  simp only [hwalk, and_self]

theorem cache_history_sample : ∃ file hdr places, run (init 16384) [.add [0]] = some file ∧
    readhdr file = some hdr ∧ Stored file hdr places ∧ places.map Prod.snd = [[0]] := by
  obtain ⟨file, hdr, places, k, hfile, hhdr, hstored, hvalues, _, hk⟩ :=
    @cache_history 16384 (by decide) (by decide) [.add [0]] fun before val rest heq => by
      cases before with
      | nil =>
          obtain ⟨hval, -⟩ := List.cons.inj heq
          obtain rfl := Op.add.inj hval
          obtain ⟨file, hinit, hgood⟩ := @good_init 16384 (by decide) (by decide)
          obtain ⟨after, hadd, _⟩ := hgood.doadd (@start_add 16384 [0] (by decide))
          rw [if_neg (show ¬ ((Ring.empty 16384).newer = [] ∧
            (Ring.empty 16384).filesize < HDR + TlscacheRing.size [0]) from fun hfull => absurd hfull.2 (by decide))] at hadd
          rw [hinit, run, List.foldl_nil, tls_cache_add]
          simp only [hadd]
      | cons op before =>
          exact absurd (List.cons.inj heq).2.symm
            (List.append_ne_nil_of_right_ne_nil _ (List.cons_ne_nil _ _))
  obtain ⟨k, rfl⟩ := Nat.exists_eq_succ_of_ne_zero (Nat.ne_of_gt (hk [] [0] rfl))
  have hall : (history [.add [0]]).take (k + 1) = [[0]] := List.take_of_length_le (Nat.succ_pos k)
  exact ⟨file, hdr, places, hfile, hhdr, hstored, hvalues.trans hall⟩

end Refinement

end Cone.TlscacheRing
