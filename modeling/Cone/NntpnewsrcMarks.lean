import Mathlib.Data.Set.Insert
import Cone.Nntpnewsrc

/-! # One mark

What `read` and `unread` do to a well-formed list, by the range the scan stops at. -/
set_option autoImplicit false
namespace Cone.NntpnewsrcMarks
open Cone.Lib.Ranges
open Cone.Nntpnewsrc

/-- The list is as the class description wants it, with numbers a `msgnum_t` can hold. -/
structure Wf (rs : List Range) : Prop where
  spaced : Spaced rs
  fits : ∀ r ∈ rs, 1 ≤ r.1 ∧ r.2 < msgnums

section Positions
variable {A : Type} (xs ys : List A) (x y : A)

theorem getElem?_mid : (xs ++ x :: ys)[xs.length]? = some x := by simp

theorem getElem?_after : (xs ++ x :: y :: ys)[xs.length + 1]? = some y := by
  rw [List.getElem?_append_right (by omega)]
  simp

theorem set_mid : (xs ++ x :: ys).set xs.length y = xs ++ y :: ys := by simp

theorem eraseIdx_mid : (xs ++ x :: ys).eraseIdx xs.length = xs ++ ys := by
  rw [List.eraseIdx_append_of_length_le (le_refl _)]
  simp

theorem take_drop_after (k : Nat) (h : k = xs.length + 1) :
    (xs ++ x :: ys).take k ++ y :: (xs ++ x :: ys).drop k = xs ++ x :: y :: ys := by
  subst h
  have split : xs ++ x :: ys = (xs ++ [x]) ++ ys := by simp
  have length : xs.length + 1 = (xs ++ [x]).length := by simp
  rw [split, length, List.take_left, List.drop_left]
  simp

end Positions

section WellFormed
variable {pre post : List Range} {r : Range}

theorem wf_append_iff {rs ss : List Range} :
    Wf (rs ++ ss) ↔ Wf rs ∧ Wf ss ∧ ∀ r ∈ rs, ∀ s ∈ ss, r.2 + 1 < s.1 := by
  constructor
  · intro h
    obtain ⟨left, right, between⟩ := spaced_append_iff.mp h.spaced
    exact ⟨⟨left, fun r mem => h.fits r (List.mem_append_left _ mem)⟩,
      ⟨right, fun r mem => h.fits r (List.mem_append_right _ mem)⟩, between⟩
  · rintro ⟨left, right, between⟩
    refine ⟨spaced_append_iff.mpr ⟨left.spaced, right.spaced, between⟩, fun r mem => ?_⟩
    exact (List.mem_append.mp mem).elim (left.fits r) (right.fits r)

theorem wf_cons_iff {rs : List Range} :
    Wf (r :: rs) ↔ (1 ≤ r.1 ∧ r.1 ≤ r.2 ∧ r.2 < msgnums) ∧ Wf rs ∧ ∀ s ∈ rs, r.2 + 1 < s.1 := by
  constructor
  · intro h
    obtain ⟨here, rest, between⟩ := spaced_cons_iff.mp h.spaced
    have fits := h.fits r (by simp)
    exact ⟨⟨fits.1, here, fits.2⟩, ⟨rest, fun s mem => h.fits s (by simp [mem])⟩, between⟩
  · rintro ⟨here, rest, between⟩
    refine ⟨spaced_cons_iff.mpr ⟨here.2.1, rest.spaced, between⟩, fun s mem => ?_⟩
    rcases List.mem_cons.mp mem with rfl | mem
    · exact ⟨here.1, here.2.2⟩
    · exact rest.fits s mem

structure Around (pre : List Range) (r : Range) (post : List Range) : Prop where
  left : Wf pre
  right : Wf post
  here : 1 ≤ r.1 ∧ r.1 ≤ r.2 ∧ r.2 < msgnums
  before : ∀ s ∈ pre, s.2 + 1 < r.1
  after : ∀ s ∈ post, r.2 + 1 < s.1
  across : ∀ s ∈ pre, ∀ s' ∈ post, s.2 + 1 < s'.1

theorem around_iff : Wf (pre ++ r :: post) ↔ Around pre r post := by
  constructor
  · intro h
    obtain ⟨left, rest, between⟩ := wf_append_iff.mp h
    obtain ⟨here, right, after⟩ := wf_cons_iff.mp rest
    exact ⟨left, right, here, fun s mem => between s mem r (by simp), after,
      fun s mem s' mem' => between s mem s' (by simp [mem'])⟩
  · intro h
    refine wf_append_iff.mpr ⟨h.left, wf_cons_iff.mpr ⟨h.here, h.right, h.after⟩, ?_⟩
    intro s mem s' mem'
    rcases List.mem_cons.mp mem' with rfl | mem'
    · exact h.before s mem
    · exact h.across s mem s' mem'

end WellFormed

/-! ## `read` -/

section Read
variable {grow : Nat → Nat} {v : Msglist} {m : Nat}

def ReadOk (rs : List Range) (m : Nat) : Prop :=
  rs = [] ∨ (∃ last, rs.getLast? = some last ∧ m ≤ last.2) ∧
    ∃ first, rs.head? = some first ∧ first.1 ≤ m + 1

/-- The call has a defined result that is well-formed and holds the numbers `s`. -/
def Gives (r : Option Msglist) (s : Set Nat) : Prop :=
  ∃ v, r = some v ∧ Wf v.elems ∧ numbers v.elems = s

theorem gives_some {v : Msglist} {s : Set Nat} (wf : Wf v.elems) (same : numbers v.elems = s) :
    Gives (some v) s := ⟨v, rfl, wf, same⟩

theorem not_gives_none {s : Set Nat} : ¬ Gives none s := by
  rintro ⟨v, h, -⟩
  cases h

theorem readLoop_skip {pre post : List Range} (shape : v.elems = pre ++ post)
    (above : ∀ r ∈ post, m < r.1) (j : Nat) (h : j ≤ post.length) :
    readLoop grow v m (pre.length + j) = readLoop grow v m pre.length := by
  induction j with
  | zero => rfl
  | succ j ih =>
      have inside : j < post.length := h
      have here : v.elems[pre.length + j]? = some post[j] := by
        rw [shape, List.getElem?_append_right (by omega)]
        simp [inside]
      rw [← Nat.add_assoc, readLoop, here]
      show (if post[j].1 > m then readLoop grow v m (pre.length + j) else _) = _
      rw [if_pos (above _ (List.getElem_mem inside)), ih (by omega)]

theorem read_eq {pre post : List Range} (shape : v.elems = pre ++ post)
    (above : ∀ r ∈ post, m < r.1) : read grow v m = readLoop grow v m pre.length := by
  unfold Nntpnewsrc.read
  rw [shape, List.length_append]
  exact readLoop_skip shape above post.length (le_refl _)

theorem readFront_iff (low : 1 ≤ m) (high : m + 1 < msgnums) (wf : Wf v.elems)
    (above : ∀ r ∈ v.elems, m < r.1) :
    Gives (some (readFront grow v m)) (insert m (numbers v.elems)) ↔ ReadOk v.elems m := by
  cases shape : v.elems with
  | nil =>
      refine iff_of_true (gives_some ?_ ?_) (.inl rfl)
      · rw [readFront, shape]
        simp [Msglist.insert, shape, wf_cons_iff, low, show m < msgnums by omega]
        exact ⟨spaced_nil, by simp⟩
      · rw [readFront, shape]
        ext n
        simp [Msglist.insert, shape, le_antisymm_iff, and_comm]
  | cons r rs =>
      rw [shape] at wf above
      obtain ⟨here, rest, between⟩ := wf_cons_iff.mp wf
      have low' : m < r.1 := above r (by simp)
      have result : readFront grow v m = { v with elems := (r.1 - 1, r.2) :: rs } := by
        have nonzero : (m + 1) % msgnums ≠ 0 ∧ r.1 ≠ 0 := by
          rw [Nat.mod_eq_of_lt high]
          omega
        rw [readFront, shape]
        exact if_pos nonzero
      rw [result]
      have others : ∀ s ∈ rs, r.1 < s.1 := fun s mem => by have := between s mem; omega
      constructor
      · rintro ⟨v', same, -, numbers'⟩
        obtain rfl : { v with elems := (r.1 - 1, r.2) :: rs } = v' := Option.some.inj same
        have grown : r.1 - 1 ∈ insert m (numbers (r :: rs)) := by
          rw [← numbers', mem_numbers_cons]
          left
          simp only
          omega
        have next : r.1 = m + 1 := by
          rcases grown with same | mem
          · omega
          · rcases mem_numbers_cons.mp mem with inside | mem
            · omega
            · exact absurd mem (not_mem_numbers_of_lt others (by omega))
        refine .inr ⟨?_, r, rfl, by omega⟩
        obtain ⟨last, isLast⟩ : ∃ last, (r :: rs).getLast? = some last :=
          ⟨_, List.getLast?_eq_some_getLast (List.cons_ne_nil r rs)⟩
        have mem := List.mem_of_getLast? isLast
        have := wf.spaced.ordered last mem
        have := above last mem
        exact ⟨last, isLast, by omega⟩
      · rintro (none | ⟨-, first, isFirst, le⟩)
        · cases none
        · obtain rfl : r = first := Option.some.inj isFirst
          refine gives_some (wf_cons_iff.mpr ⟨?_, rest, between⟩) ?_
          · simp only
            omega
          · ext n
            simp only [mem_numbers_cons, Set.mem_insert_iff]
            have : r.1 - 1 ≤ n ↔ n = m ∨ r.1 ≤ n := by omega
            rw [this]
            constructor
            · rintro (⟨h | h, h'⟩ | h)
              · exact .inl h
              · exact .inr (.inl ⟨h, h'⟩)
              · exact .inr (.inr h)
            · rintro (h | ⟨h, h'⟩ | h)
              · exact .inl ⟨.inl h, by omega⟩
              · exact .inl ⟨.inr h, h'⟩
              · exact .inr h

theorem mem_numbers_mid {pre post : List Range} {r : Range} {n : Nat} :
    n ∈ numbers (pre ++ r :: post) ↔
      n ∈ numbers pre ∨ (r.1 ≤ n ∧ n ≤ r.2) ∨ n ∈ numbers post := by
  simp

theorem last_above {pre post : List Range} (some_ : post ≠ [])
    (wf : ∀ r ∈ post, r.1 ≤ r.2) (above : ∀ r ∈ post, m < r.1) :
    ∃ last, (pre ++ post).getLast? = some last ∧ m ≤ last.2 := by
  have mem := List.getLast_mem some_
  refine ⟨post.getLast some_, ?_, ?_⟩
  · rw [List.getLast?_append, List.getLast?_eq_some_getLast some_]
    rfl
  · have := wf _ mem
    have := above _ mem
    omega

theorem gives_between {pre post : List Range} {r next : Range} (low : 1 ≤ m)
    (around : Around pre r (next :: post)) (behind : r.2 < m) (front : m < next.1) {w : Msglist}
    (shape : (r.2 + 1 = m ∧ m + 1 = next.1 ∧ w.elems = pre ++ (r.1, next.2) :: post) ∨
      (r.2 + 1 = m ∧ m + 1 ≠ next.1 ∧ w.elems = pre ++ (r.1, r.2 + 1) :: next :: post) ∨
      (r.2 + 1 ≠ m ∧ m + 1 = next.1 ∧ w.elems = pre ++ r :: (next.1 - 1, next.2) :: post) ∨
      (r.2 + 1 ≠ m ∧ m + 1 ≠ next.1 ∧ w.elems = pre ++ r :: (m, m) :: next :: post)) :
    Gives (some w) (insert m (numbers (pre ++ r :: next :: post))) := by
  obtain ⟨left, right, here, before, after, across⟩ := around
  obtain ⟨nextHere, rest, nextAfter⟩ := wf_cons_iff.mp right
  have gap := after next (by simp)
  have before' : ∀ s ∈ pre, s.2 + 1 < next.1 := fun s mem => across s mem next (by simp)
  have after' : ∀ s ∈ post, r.2 + 1 < s.1 := fun s mem => after s (by simp [mem])
  have across' : ∀ s ∈ pre, ∀ s' ∈ post, s.2 + 1 < s'.1 :=
    fun s mem s' mem' => across s mem s' (by simp [mem'])
  rcases shape with ⟨grow, join, shape⟩ | ⟨grow, join, shape⟩ | ⟨grow, join, shape⟩ |
    ⟨grow, join, shape⟩
  · refine gives_some ?_ ?_
    · rw [shape]
      exact around_iff.mpr ⟨left, rest, ⟨here.1, by simp only; omega, nextHere.2.2⟩, before,
        nextAfter, across'⟩
    · ext n
      rw [shape]
      simp only [mem_numbers_append, mem_numbers_cons, Set.mem_insert_iff]
      have : (r.1 ≤ n ∧ n ≤ next.2) ↔
          n = m ∨ (r.1 ≤ n ∧ n ≤ r.2) ∨ (next.1 ≤ n ∧ n ≤ next.2) := by omega
      rw [this]
      simp only [or_assoc, or_left_comm]
  · refine gives_some ?_ ?_
    · rw [shape]
      refine around_iff.mpr ⟨left, right, ⟨here.1, by simp only; omega, by simp only; omega⟩,
        before, ?_, across⟩
      intro s mem
      rcases List.mem_cons.mp mem with rfl | mem
      · simp only
        omega
      · have := nextAfter s mem
        simp only
        omega
    · ext n
      rw [shape]
      simp only [mem_numbers_append, mem_numbers_cons, Set.mem_insert_iff]
      have : (r.1 ≤ n ∧ n ≤ r.2 + 1) ↔ n = m ∨ (r.1 ≤ n ∧ n ≤ r.2) := by omega
      rw [this]
      simp only [or_assoc, or_left_comm]
  · refine gives_some ?_ ?_
    · rw [shape]
      refine around_iff.mpr ⟨left,
        wf_cons_iff.mpr ⟨⟨by simp only; omega, by simp only; omega, nextHere.2.2⟩, rest, nextAfter⟩,
        here, before, ?_, ?_⟩
      · intro s mem
        rcases List.mem_cons.mp mem with rfl | mem
        · simp only
          omega
        · exact after' s mem
      · intro s mem s' mem'
        rcases List.mem_cons.mp mem' with rfl | mem'
        · have := before s mem
          simp only
          omega
        · exact across' s mem s' mem'
    · ext n
      rw [shape]
      simp only [mem_numbers_append, mem_numbers_cons, Set.mem_insert_iff]
      have : (next.1 - 1 ≤ n ∧ n ≤ next.2) ↔ n = m ∨ (next.1 ≤ n ∧ n ≤ next.2) := by omega
      rw [this]
      simp only [or_assoc, or_left_comm]
  · refine gives_some ?_ ?_
    · rw [shape]
      refine around_iff.mpr ⟨left, wf_cons_iff.mpr ⟨⟨low, le_refl _, by simp only; omega⟩, right, ?_⟩,
        here, before, ?_, ?_⟩
      · intro s mem
        rcases List.mem_cons.mp mem with rfl | mem
        · simp only
          omega
        · have := nextAfter s mem
          simp only
          omega
      · intro s mem
        rcases List.mem_cons.mp mem with rfl | mem
        · simp only
          omega
        · exact after s mem
      · intro s mem s' mem'
        rcases List.mem_cons.mp mem' with rfl | mem'
        · have := before s mem
          simp only
          omega
        · exact across s mem s' mem'
    · ext n
      rw [shape]
      simp only [mem_numbers_append, mem_numbers_cons, Set.mem_insert_iff]
      have : (m ≤ n ∧ n ≤ m) ↔ n = m := by omega
      rw [this]
      simp only [or_left_comm]

theorem readBehind_iff {pre post : List Range} {r : Range} (low : 1 ≤ m) (high : m + 1 < msgnums)
    (shape : v.elems = pre ++ r :: post) (wf : Wf v.elems) (begun : r.1 ≤ m)
    (above : ∀ r ∈ post, m < r.1) :
    Gives (readLoop grow v m (pre.length + 1)) (insert m (numbers v.elems)) ↔
      ReadOk v.elems m := by
  have around : Around pre r post := around_iff.mp (shape ▸ wf)
  have here : v.elems[pre.length]? = some r := by rw [shape, getElem?_mid]
  have first : ∃ first, v.elems.head? = some first ∧ first.1 ≤ m + 1 := by
    cases pre with
    | nil => exact ⟨r, by rw [shape]; rfl, by omega⟩
    | cons s pre =>
        refine ⟨s, by rw [shape]; rfl, ?_⟩
        have := around.before s (by simp)
        have := around.left.spaced.ordered s (by simp)
        omega
  rw [readLoop, here]
  show Gives (if r.1 > m then _ else if m ≤ r.2 then some v else _) _ ↔ _
  rw [if_neg (by omega)]
  by_cases known : m ≤ r.2
  · rw [if_pos known]
    refine iff_of_true (gives_some wf ?_) (.inr ⟨?_, first⟩)
    · rw [Set.insert_eq_of_mem]
      rw [shape, mem_numbers_mid]
      exact .inr (.inl ⟨begun, known⟩)
    · rw [shape]
      cases post with
      | nil => exact ⟨r, by simp, known⟩
      | cons next post =>
          rw [List.append_cons]
          exact last_above (List.cons_ne_nil next post) around.right.spaced.ordered above
  rw [if_neg known]
  cases post with
  | nil =>
      have past : v.elems[pre.length + 1]? = none := by rw [shape]; simp
      rw [past]
      refine iff_of_false not_gives_none ?_
      rintro (none | ⟨⟨last, isLast, le⟩, -⟩)
      · rw [shape] at none
        simp at none
      · rw [shape] at isLast
        obtain rfl : r = last := by simpa using isLast
        exact known le
  | cons next post =>
      have after : v.elems[pre.length + 1]? = some next := by rw [shape, getElem?_after]
      have front := above next (by simp)
      have wrap : (r.2 + 1) % msgnums = r.2 + 1 := Nat.mod_eq_of_lt (by omega)
      have wrap' : (m + 1) % msgnums = m + 1 := Nat.mod_eq_of_lt high
      have ok : ReadOk v.elems m := by
        refine .inr ⟨?_, first⟩
        rw [shape, List.append_cons]
        exact last_above (List.cons_ne_nil next post) around.right.spaced.ordered above
      rw [after]
      refine iff_of_true ?_ ok
      simp only [Option.bind_eq_bind, Option.bind_some, wrap, wrap']
      rw [shape]
      by_cases growThis : r.2 + 1 = m
      · rw [if_pos growThis]
        by_cases growNext : m + 1 = next.1
        · rw [if_pos growNext]
          refine gives_between low around (by omega) front (.inl ⟨growThis, growNext, ?_⟩)
          rw [Msglist.erase, Msglist.store, shape, set_mid]
          have cut := eraseIdx_mid (pre ++ [(r.1, next.2)]) post next
          rw [List.append_assoc, List.append_assoc, List.length_append] at cut
          exact cut
        · rw [if_neg growNext]
          refine gives_between low around (by omega) front (.inr (.inl ⟨growThis, growNext, ?_⟩))
          rw [Msglist.store, shape, set_mid]
      · rw [if_neg growThis]
        by_cases growNext : m + 1 = next.1
        · rw [if_pos growNext]
          refine gives_between low around (by omega) front
            (.inr (.inr (.inl ⟨growThis, growNext, ?_⟩)))
          rw [Msglist.store, shape]
          simp
        · rw [if_neg growNext]
          refine gives_between low around (by omega) front
            (.inr (.inr (.inr ⟨growThis, growNext, ?_⟩)))
          rw [Msglist.insert, shape]
          exact take_drop_after pre (next :: post) r (m, m) _ rfl

/-- A message is marked as read, and nothing else, just where the call meets `ReadOk`. -/
theorem read_iff (low : 1 ≤ m) (high : m + 1 < msgnums) (wf : Wf v.elems) :
    Gives (Nntpnewsrc.read grow v m) (insert m (numbers v.elems)) ↔ ReadOk v.elems m := by
  obtain ⟨pre, post, shape, below, above⟩ := exists_split wf.spaced m
  rw [read_eq shape above]
  cases pre using List.reverseRecOn with
  | nil =>
      rw [List.nil_append] at shape
      exact readFront_iff low high wf (by rw [shape]; exact above)
  | append_singleton pre r =>
      rw [List.append_assoc, List.singleton_append] at shape
      rw [List.length_append, List.length_singleton]
      exact readBehind_iff low high shape wf (below r (by simp)) above

end Read

/-! ## `unread` -/

section Unread
variable {grow : Nat → Nat} {v : Msglist} {m : Nat}

/-- The range that holds `m` is not split, or there is room for one more range. -/
def UnreadOk (v : Msglist) (m : Nat) : Prop :=
  v.elems.length ≠ v.capacity ∨ ¬ ∃ r ∈ v.elems, r.1 < m ∧ m < r.2

theorem unreadLoop_skip {pre post : List Range} (shape : v.elems = pre ++ post) (wf : Wf v.elems)
    (above : ∀ r ∈ post, m < r.1) (j : Nat) (h : j ≤ post.length) :
    unreadLoop grow v m (pre.length + j) = unreadLoop grow v m pre.length := by
  induction j with
  | zero => rfl
  | succ j ih =>
      have inside : j < post.length := h
      have here : v.elems[pre.length + j]? = some post[j] := by
        rw [shape, List.getElem?_append_right (by omega)]
        simp [inside]
      have mem : post[j] ∈ post := List.getElem_mem inside
      have first := above _ mem
      have ordered := wf.spaced.ordered post[j] (by rw [shape]; exact List.mem_append_right _ mem)
      rw [← Nat.add_assoc, unreadLoop, here]
      show (if post[j].2 < m then some v
        else if post[j].1 > m then unreadLoop grow v m (pre.length + j) else _) = _
      rw [if_neg (by omega), if_pos first, ih (by omega)]

theorem unread_eq {pre post : List Range} (shape : v.elems = pre ++ post) (wf : Wf v.elems)
    (above : ∀ r ∈ post, m < r.1) : unread grow v m = unreadLoop grow v m pre.length := by
  unfold unread
  rw [shape, List.length_append]
  exact unreadLoop_skip shape wf above post.length (le_refl _)

/-- Nothing to take away. -/
theorem gives_same (wf : Wf v.elems) (out : m ∉ numbers v.elems) :
    Gives (some v) (numbers v.elems \ {m}) :=
  gives_some wf (Set.sdiff_singleton_eq_self out).symm

theorem not_mem_around {pre post : List Range} {r : Range} (around : Around pre r post) {n : Nat}
    (inside : r.1 ≤ n ∧ n ≤ r.2) : n ∉ numbers pre ∧ n ∉ numbers post := by
  constructor
  · rintro ⟨s, mem, -, high⟩
    have := around.before s mem
    omega
  · rintro ⟨s, mem, low, -⟩
    have := around.after s mem
    omega

theorem gives_without (mid : List Range) {pre post : List Range} {r : Range} (around : Around pre r post)
    (inside : r.1 ≤ m ∧ m ≤ r.2) {w : Msglist} (shape : w.elems = pre ++ (mid ++ post))
    (kept : ∀ n, n ∈ numbers mid ↔ (r.1 ≤ n ∧ n ≤ r.2) ∧ n ≠ m) (wf : Wf mid)
    (within : ∀ s ∈ mid, r.1 ≤ s.1 ∧ s.2 ≤ r.2) :
    Gives (some w) (numbers (pre ++ r :: post) \ {m}) := by
  obtain ⟨outPre, outPost⟩ := not_mem_around around inside
  refine gives_some ?_ ?_
  · rw [shape]
    refine wf_append_iff.mpr ⟨around.left, wf_append_iff.mpr ⟨wf, around.right, ?_⟩, ?_⟩
    · intro s mem s' mem'
      have := (within s mem).2
      have := around.after s' mem'
      omega
    · intro s mem s' mem'
      rcases List.mem_append.mp mem' with mem' | mem'
      · have := around.before s mem
        have := (within s' mem').1
        omega
      · exact around.across s mem s' mem'
  · ext n
    rw [shape]
    simp only [mem_numbers_append, mem_numbers_cons, kept, Set.mem_sdiff, Set.mem_singleton_iff]
    constructor
    · rintro (h | ⟨h, other⟩ | h)
      · exact ⟨.inl h, by rintro rfl; exact outPre h⟩
      · exact ⟨.inr (.inl h), other⟩
      · exact ⟨.inr (.inr h), by rintro rfl; exact outPost h⟩
    · rintro ⟨h | h | h, other⟩
      · exact .inl h
      · exact .inr (.inl ⟨h, other⟩)
      · exact .inr (.inr h)

theorem unreadInside_iff {pre post : List Range} {r : Range} (shape : v.elems = pre ++ r :: post)
    (wf : Wf v.elems) (begun : r.1 ≤ m) (above : ∀ r ∈ post, m < r.1) :
    Gives (unreadLoop grow v m (pre.length + 1)) (numbers v.elems \ {m}) ↔
      v.elems.length ≠ v.capacity ∨ ¬ (r.1 < m ∧ m < r.2) := by
  have around : Around pre r post := around_iff.mp (shape ▸ wf)
  obtain ⟨positive, ordered, fits⟩ := around.here
  have here : v.elems[pre.length]? = some r := by rw [shape, getElem?_mid]
  rw [unreadLoop, here]
  show Gives (if r.2 < m then _ else if r.1 > m then _ else _) _ ↔ _
  by_cases past : r.2 < m
  · rw [if_pos past]
    refine iff_of_true (gives_same wf ?_) (.inr (by omega))
    rw [shape, mem_numbers_mid]
    rintro (⟨s, mem, -, high⟩ | h | h)
    · have := around.before s mem
      omega
    · omega
    · exact not_mem_numbers_of_lt above (le_refl m) h
  rw [if_neg past, if_neg (by omega)]
  have inside : r.1 ≤ m ∧ m ≤ r.2 := ⟨begun, by omega⟩
  by_cases single : r.1 = r.2
  · rw [if_pos single, shape]
    refine iff_of_true (gives_without [] around inside ?_ ?_ ⟨spaced_nil, by simp⟩ (by simp))
      (.inr (by omega))
    · rw [Msglist.erase, shape, eraseIdx_mid]
      rfl
    · intro n
      simp only [mem_numbers_nil, false_iff]
      omega
  rw [if_neg single]
  by_cases atFirst : r.1 = m
  · rw [if_pos atFirst]
    refine iff_of_true ?_ (.inr (by omega))
    rw [shape]
    refine gives_without [(r.1 + 1, r.2)] around inside ?_ ?_ ?_ ?_
    · rw [Msglist.store, shape, set_mid]
      rfl
    · intro n
      simp only [mem_numbers_cons, mem_numbers_nil, or_false]
      omega
    · exact wf_cons_iff.mpr ⟨⟨by simp only; omega, by simp only; omega, fits⟩,
        ⟨spaced_nil, by simp⟩, by simp⟩
    · simp
  rw [if_neg atFirst]
  by_cases atLast : r.2 = m
  · rw [if_pos atLast]
    refine iff_of_true ?_ (.inr (by omega))
    rw [shape]
    refine gives_without [(r.1, r.2 - 1)] around inside ?_ ?_ ?_ ?_
    · rw [Msglist.store, shape, set_mid]
      rfl
    · intro n
      simp only [mem_numbers_cons, mem_numbers_nil, or_false]
      omega
    · exact wf_cons_iff.mpr ⟨⟨positive, by simp only; omega, by simp only; omega⟩,
        ⟨spaced_nil, by simp⟩, by simp⟩
    · simp
  rw [if_neg atLast]
  by_cases full : v.elems.length = v.capacity
  · rw [if_pos full]
    refine iff_of_false not_gives_none ?_
    rintro (h | h)
    · exact h full
    · exact h (by omega)
  · rw [if_neg full]
    refine iff_of_true ?_ (.inl full)
    have put : ((v.insert grow (pre.length + 1) (m + 1, r.2)).store pre.length (r.1, m - 1)).elems =
        pre ++ ([(r.1, m - 1), (m + 1, r.2)] ++ post) := by
      rw [Msglist.store, Msglist.insert, shape, take_drop_after pre post r _ _ rfl, set_mid]
      rfl
    rw [shape]
    refine gives_without [(r.1, m - 1), (m + 1, r.2)] around inside put ?_ ?_ ?_
    · intro n
      simp only [mem_numbers_cons, mem_numbers_nil, or_false]
      omega
    · refine wf_cons_iff.mpr ⟨⟨positive, by simp only; omega, by simp only; omega⟩,
        wf_cons_iff.mpr ⟨⟨by simp only; omega, by simp only; omega, fits⟩, ⟨spaced_nil, by simp⟩,
          by simp⟩, ?_⟩
      intro s mem
      rw [List.mem_singleton.mp mem]
      simp only
      omega
    · intro s mem
      simp only [List.mem_cons, List.not_mem_nil, or_false] at mem
      rcases mem with rfl | rfl
      · simp only
        omega
      · simp only
        omega

/-- A message is no longer marked as read, and nothing else, just where the call meets
`UnreadOk`. -/
theorem unread_iff (wf : Wf v.elems) :
    Gives (unread grow v m) (numbers v.elems \ {m}) ↔ UnreadOk v m := by
  obtain ⟨pre, post, shape, below, above⟩ := exists_split wf.spaced m
  rw [unread_eq shape wf above]
  cases pre using List.reverseRecOn with
  | nil =>
      rw [List.nil_append] at shape
      refine iff_of_true (gives_same wf ?_) (.inr ?_)
      · rw [shape]
        exact not_mem_numbers_of_lt above (le_refl m)
      · rintro ⟨r, mem, low, -⟩
        rw [shape] at mem
        have := above r mem
        omega
  | append_singleton pre r =>
      rw [List.append_assoc, List.singleton_append] at shape
      rw [List.length_append, List.length_singleton,
        unreadInside_iff shape wf (below r (by simp)) above]
      have around : Around pre r post := around_iff.mp (shape ▸ wf)
      have only : (∃ s ∈ v.elems, s.1 < m ∧ m < s.2) ↔ r.1 < m ∧ m < r.2 := by
        constructor
        · rintro ⟨s, mem, low, high⟩
          rw [shape] at mem
          rcases List.mem_append.mp mem with mem | mem
          · have := around.before s mem
            have := below r (by simp)
            omega
          · rcases List.mem_cons.mp mem with rfl | mem
            · exact ⟨low, high⟩
            · have := above s mem
              omega
        · intro h
          exact ⟨r, by rw [shape]; simp, h⟩
      rw [UnreadOk, only]

end Unread

end Cone.NntpnewsrcMarks
