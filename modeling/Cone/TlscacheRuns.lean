import Cone.TlscacheWalk
import Mathlib.Logic.Function.Iterate

/-! # Runs of the cache

The cache file and the ring go along with each other, from the file of `init` through every sequence
of adds and walks. -/
set_option autoImplicit false
namespace Cone.TlscacheRing

open Cone.Lib.ByteFile Cone.Tlscache

section Steps

inductive Op : Type 1
  | add (val : Bytes)
  | walk (A : Type) (walk_func : Walker A) (arg : A)

def step (p : Cache) : Op → Cache
  | .add val => (tls_cache_add p val).2
  | .walk _ walk_func arg => (tls_cache_walk p walk_func arg).2.1

def run (p : Cache) (ops : List Op) : Cache := ops.foldl step p

def Ring.empty (size : Nat) : Ring := ⟨size, 0, 0, [], []⟩

def Ring.step (r : Ring) : Op → Option Ring
  | .add val => r.add val
  | .walk _ walk_func arg => some (r.walk walk_func arg)

def reached (size : Nat) (ops : List Op) : Option Ring := ops.foldlM Ring.step (Ring.empty size)

variable {r s : Ring} {file : Bytes} {size : Nat} {op : Op}

theorem good_init (hmin : TLSCACHEMINSIZE ≤ size) (hmax : size < 2 ^ 63) :
    ∃ file, init size = some file ∧ Good file (Ring.empty size) := by
  have ok : (Ring.empty size).Ok := {
    filesize := ⟨hmin, hmax⟩
    empty := fun _ => ⟨rfl, rfl⟩
    head := fun hne => absurd rfl hne
    unwrapped := fun _ => ⟨rfl, Nat.zero_le _⟩
    wrapped := fun hne => absurd rfl hne }
  have holds : Holds (List.replicate size 0) (Ring.empty size) :=
    ⟨List.length_replicate, trivial, trivial⟩
  refine ⟨_, ?_, holds.good ok⟩
  rw [init, if_neg (by omega)]
  rfl

theorem Good.step (h : Good file r) (hstep : r.step op = some s) :
    ∃ after, TlscacheRing.step (some file) op = some after ∧ Good after s := by
  cases op with
  | add val =>
      obtain ⟨after, hadd, hgood⟩ := h.doadd hstep
      refine ⟨after, ?_, hgood⟩
      rw [TlscacheRing.step, tls_cache_add]
      by_cases hfull : r.newer = [] ∧ r.filesize < HDR + size val
      · rw [if_pos hfull] at hadd
        simp only [hadd]
      · rw [if_neg hfull] at hadd
        simp only [hadd]
  | walk A walk_func arg =>
      obtain ⟨after, hwalk, hgood⟩ := h.dowalk walk_func arg
      obtain rfl := Option.some.inj hstep
      refine ⟨after, ?_, hgood⟩
      rw [TlscacheRing.step, tls_cache_walk]
      simp only [hwalk]

theorem Good.step_none (h : Good file r) (hstep : r.step op = none) :
    TlscacheRing.step (some file) op = none := by
  cases op with
  | add val =>
      have hadd := h.doadd_corrupt hstep
      rw [TlscacheRing.step, tls_cache_add]
      generalize Tlscache.doadd file val = added at hadd ⊢
      obtain ⟨result, after⟩ := added
      obtain rfl : result = Added.corrupt := hadd
      rfl
  | walk A walk_func arg => cases hstep

theorem Good.run (h : Good file r) {ops : List Op} (hrun : ops.foldlM Ring.step r = some s) :
    ∃ after, TlscacheRing.run (some file) ops = some after ∧ Good after s := by
  induction ops generalizing file r with
  | nil => exact ⟨file, rfl, Option.some.inj hrun ▸ h⟩
  | cons op ops ih =>
      rw [List.foldlM_cons] at hrun
      obtain ⟨q, hstep, hrest⟩ := Option.bind_eq_some_iff.1 hrun
      obtain ⟨after, hafter, hgood⟩ := h.step hstep
      rw [TlscacheRing.run, List.foldl_cons, hafter]
      exact ih hgood hrest

theorem run_some (hmin : TLSCACHEMINSIZE ≤ size) (hmax : size < 2 ^ 63) {ops : List Op}
    (h : reached size ops = some r) : ∃ file, run (init size) ops = some file ∧ Good file r := by
  obtain ⟨file, hinit, hgood⟩ := good_init hmin hmax
  rw [hinit]
  exact hgood.run h

theorem reached_concat (size : Nat) (ops : List Op) (op : Op) :
    reached size (ops ++ [op]) = (reached size ops).bind fun r => r.step op := by
  rw [reached, List.foldlM_append]
  cases h : ops.foldlM Ring.step (Ring.empty size) with
  | none => rw [reached, h]; rfl
  | some r =>
      rw [reached, h, Option.bind_some]
      show (r.step op).bind some = r.step op
      cases r.step op <;> rfl

theorem run_concat (p : Cache) (ops : List Op) (op : Op) :
    run p (ops ++ [op]) = step (run p ops) op := by
  rw [run, List.foldl_append]
  rfl

end Steps

section Corruption
variable {r : Ring} {v : Bytes} {size : Nat}

/-- An object has its place in the cache once some of the oldest are gone, a hundred at most, and
not all. -/
def Ring.Fits (r : Ring) (v : Bytes) : Prop :=
  r.newer = [] ∨ ∃ p < 100, p < r.values.length ∧ (Ring.evict^[p] r).Room v

theorem make_isSome_iff {timer : Nat} (h : 0 < r.values.length) :
    (r.make timer v).isSome ↔ ∃ p < timer, p < r.values.length ∧ (Ring.evict^[p] r).Room v := by
  induction timer generalizing r with
  | zero =>
      refine iff_of_false (by intro hnone; cases hnone) ?_
      rintro ⟨p, hp, -⟩
      exact absurd hp (Nat.not_lt_zero p)
  | succ timer ih =>
      rw [Ring.make]
      by_cases hroom : r.Room v
      · rw [if_pos hroom]
        exact ⟨fun _ => ⟨0, Nat.succ_pos _, h, hroom⟩, fun _ => rfl⟩
      · rw [if_neg hroom]
        by_cases htwo : 2 ≤ r.values.length
        · have hlen : r.evict.values.length = r.values.length - 1 := by
            rw [evict_values, List.length_dropLast]
          rw [if_pos htwo, ih (by omega)]
          constructor
          · rintro ⟨p, hp, hlt, hfits⟩
            exact ⟨p + 1, by omega, by omega, hfits⟩
          · rintro ⟨p, hp, hlt, hfits⟩
            cases p with
            | zero => exact absurd hfits hroom
            | succ p => exact ⟨p, by omega, by omega, hfits⟩
        · rw [if_neg htwo]
          refine iff_of_false (by intro hnone; cases hnone) ?_
          rintro ⟨p, -, hlt, hfits⟩
          obtain rfl : p = 0 := by omega
          exact absurd hfits hroom

theorem add_isSome_iff (r : Ring) (v : Bytes) : (r.add v).isSome ↔ r.Fits v := by
  rw [Ring.add, Ring.Fits]
  by_cases hnil : r.newer = []
  · rw [if_pos hnil]
    exact ⟨fun _ => Or.inl hnil, fun _ => rfl⟩
  · have hpos : 0 < r.values.length := by
      rw [Ring.values, List.length_append]
      exact Nat.lt_of_lt_of_le (List.length_pos_of_ne_nil hnil) (Nat.le_add_right _ _)
    rw [if_neg hnil, make_isSome_iff hpos]
    exact ⟨Or.inr, fun hor => hor.resolve_left hnil⟩

def Answered (file : Bytes) : Op → Prop
  | .add val =>
    ((doadd file val).1 = .stored ∨ (doadd file val).1 = .nospace) ∧
      (tls_cache_add (some file) val).2.isSome
  | .walk _ walk_func arg =>
    (dowalk walk_func file arg).1 ≠ none ∧ (tls_cache_walk (some file) walk_func arg).2.1.isSome

def Sound (size : Nat) (ops : List Op) : Prop :=
  ∀ before op rest, ops = before ++ op :: rest →
    ∃ file, run (init size) before = some file ∧ Answered file op

theorem Good.answered {file : Bytes} (h : Good file r) {op : Op} (hop : (r.step op).isSome) :
    Answered file op := by
  obtain ⟨s, hs⟩ := Option.isSome_iff_exists.1 hop
  obtain ⟨after, hafter, _⟩ := h.step hs
  cases op with
  | add val =>
      obtain ⟨_, hadd, _⟩ := h.doadd hs
      refine ⟨?_, Option.isSome_iff_exists.2 ⟨after, hafter⟩⟩
      rw [hadd]
      simp only
      split
      · exact Or.inr rfl
      · exact Or.inl rfl
  | walk A walk_func arg =>
      obtain ⟨_, hwalk, _⟩ := h.dowalk walk_func arg
      refine ⟨?_, Option.isSome_iff_exists.2 ⟨after, hafter⟩⟩
      rw [hwalk]
      exact Option.some_ne_none _

theorem Answered.kept {file : Bytes} {op : Op} (h : Answered file op) :
    (step (some file) op).isSome := by
  cases op with
  | add val => exact h.2
  | walk A walk_func arg => exact h.2

/-- A run gets as far as each value that it adds fits. -/
theorem reached_isSome {ops : List Op}
    (h : ∀ before val rest, ops = before ++ .add val :: rest → ∀ r,
      reached size before = some r → r.Fits val) :
    (reached size ops).isSome := by
  induction ops using List.reverseRecOn with
  | nil => rfl
  | append_singleton ops op ih =>
      obtain ⟨r, hr⟩ := Option.isSome_iff_exists.1 (ih fun before val rest heq =>
        h before val (rest ++ [op]) (by rw [heq, List.append_assoc]; rfl))
      rw [reached_concat, hr, Option.bind_some]
      cases op with
      | add val => exact (add_isSome_iff r val).2 (h ops val [] rfl r hr)
      | walk A walk_func arg => rfl

theorem sound_iff (hmin : TLSCACHEMINSIZE ≤ size) (hmax : size < 2 ^ 63) (ops : List Op) :
    Sound size ops ↔ ∀ before val rest, ops = before ++ .add val :: rest → ∀ r,
      reached size before = some r → r.Fits val := by
  constructor
  · intro sound before val rest heq r hr
    obtain ⟨file, hfile, hanswered⟩ := sound before _ rest heq
    obtain ⟨file', hfile', hgood⟩ := run_some hmin hmax hr
    obtain rfl := Option.some.inj (hfile.symm.trans hfile')
    rw [← add_isSome_iff, Option.isSome_iff_ne_none]
    intro hnone
    have hkept := hanswered.kept
    rw [hgood.step_none (show Ring.step r (.add val) = none from hnone)] at hkept
    cases hkept
  · intro fits before op rest heq
    have hprefix : (reached size before).isSome := reached_isSome fun before' val rest' heq' =>
      fits before' val (rest' ++ op :: rest) (by rw [heq, heq', List.append_assoc]; rfl)
    obtain ⟨r, hr⟩ := Option.isSome_iff_exists.1 hprefix
    obtain ⟨file, hfile, hgood⟩ := run_some hmin hmax hr
    refine ⟨file, hfile, hgood.answered ?_⟩
    cases op with
    | add val => exact (add_isSome_iff r val).2 (fits before val rest heq r hr)
    | walk A walk_func arg => rfl

theorem sound_sample : Sound 16384 [.add [0]] :=
  (sound_iff (by decide) (by decide) _).2 fun before val rest heq r hr => by
    cases before with
    | nil =>
        obtain rfl := Option.some.inj hr
        exact Or.inl rfl
    | cons op before =>
        have hnil := (List.cons.inj heq).2
        exact absurd hnil.symm (List.append_ne_nil_of_right_ne_nil _ (List.cons_ne_nil _ _))

theorem start_add {n : Nat} {v : Bytes} (hv : HDR + TlscacheRing.size v ≤ n) :
    (Ring.empty n).add v = some ((Ring.empty n).start v) := by
  rw [Ring.add, show (Ring.empty n).newer = [] from rfl, if_pos rfl,
    if_pos (show HDR + TlscacheRing.size v ≤ (Ring.empty n).filesize from hv)]

/-- A lone object in front of which there is no room is taken for a damaged one. -/
theorem lone_add {n : Nat} {v w : Bytes}
    (hw : n < HDR + TlscacheRing.size v + TlscacheRing.size w) :
    ((Ring.empty n).start v).add w = none := by
  have hhead : ((Ring.empty n).start v).head = n - TlscacheRing.size v := rfl
  have hsome := size_eq w
  have hroom : ¬ ((Ring.empty n).start v).Room w := fun hroom => by
    rcases (room_unwrapped rfl).1 hroom with hfront | hback
    · omega
    · exact absurd (show 2 ≤ 1 from hback.1) (by decide)
  rw [Ring.add, if_neg (show ((Ring.empty n).start v).newer ≠ [] from List.cons_ne_nil _ _),
    Ring.make, if_neg hroom]
  exact if_neg (show ¬ 2 ≤ 1 by decide)

/-- The second of two values that take more than half of the file each removes the file. -/
theorem not_sound :
    ¬ Sound 16384 [.add (List.replicate 9000 0), .add (List.replicate 9000 0)] := by
  intro sound
  have hsize : TlscacheRing.size (List.replicate 9000 0) = 9016 := by
    rw [size_eq, List.length_replicate]
  have hhdr : HDR = 32 := rfl
  have hadd := @start_add 16384 (List.replicate 9000 0) (by omega)
  have hnone := @lone_add 16384 (List.replicate 9000 0) (List.replicate 9000 0) (by omega)
  generalize (List.replicate 9000 (0 : UInt8)) = big at *
  obtain ⟨file, hfile, hanswered⟩ := sound [.add big] _ [] rfl
  have hfirst : reached 16384 [.add big] = some ((Ring.empty 16384).start big) := by
    rw [show [Op.add big] = [] ++ [.add big] from rfl, reached_concat]
    exact hadd
  obtain ⟨after, hafter, hgood⟩ := run_some (by decide) (by decide) hfirst
  obtain rfl := Option.some.inj (hfile.symm.trans hafter)
  have hkept := hanswered.kept
  rw [hgood.step_none (show Ring.step _ (.add big) = none from hnone)] at hkept
  cases hkept

end Corruption
end Cone.TlscacheRing
