import Cone.NntpnewsrcLine

/-! # A group opened again

`GroupOpenTask` of nntpgroupopen.C without a snapshot, and the newsrc file of nntp.C, which is not
cached; a file that is written is there. -/
set_option autoImplicit false
namespace Cone.NntpReopen

open Cone.Lib.Ranges Cone.Linebreak Cone.NntpnewsrcMarks Cone.UnicodeTablookup
open Cone.Nntpnewsrc (Msglist Name Newsrc Spaces empty msgnums parse parse_print print)

abbrev Text := List UInt8

structure State where
  newsrcFile : List Text
  index : List Nat
  loWatermark : Nat
  hiWatermark : Nat
  openedGroup : Text

section Nntp
variable (tab : Tables LbClass) (grow : Nat → Nat)

def updateOpenedNewsrc (file : List Text) (n : Newsrc) : List Text :=
  let lines := file.map fun line =>
    if (parse tab grow line).newsgroupname = n.newsgroupname then print n else line
  if file.any fun line => (parse tab grow line).newsgroupname = n.newsgroupname then lines
  else lines ++ [print n]

/-- The loop of `createNewsrc`; there is no `lastNum` before the first number. -/
def createLoop (v : Msglist) (lastNum : Option Nat) : List Nat → Msglist
  | [] => v
  | b :: index =>
    let v := match lastNum with
      | none => if b > 1 then v.pushBack grow (1, b - 1) else v
      | some lastNum => if lastNum + 1 ≠ b then v.pushBack grow (lastNum + 1, b - 1) else v
    createLoop v (some b) index

def createNewsrc (index : List Nat) (hiWatermark : Nat) (n : Newsrc) : Newsrc :=
  let v := { n.msglist with elems := [] }
  { n with
    msglist :=
      if index ≠ [] then createLoop grow v none index
      else if hiWatermark > 1 then v.pushBack grow (1, hiWatermark - 1)
      else v }

/-- `GroupOpenTask::selectedGroup`, with the line of the group; the estimate only reserves room. -/
def selectedGroup (g : Text) (_estimatedCount loArticleCount hiArticleCount : Nat) (s : State) :
    Newsrc × State :=
  let n := ((s.newsrcFile.map (parse tab grow)).find? fun n => n.newsgroupname = g).getD
    { empty with newsgroupname := g, subscribed := false }
  let n :=
    if n.subscribed then n
    else { n with subscribed := true, msglist := { n.msglist with elems := [] } }
  let n :=
    if n.msglist.elems.getLast?.any (·.2 > hiArticleCount) then
      { n with msglist := { n.msglist with elems := [] } }
    else n
  (n, ⟨s.newsrcFile, [], loArticleCount, hiArticleCount, []⟩)

/-- The index and `msglistI` after one article number. -/
def processMessageNumber (i : List Nat × List Range) (n : Nat) : List Nat × List Range :=
  let msglistI := i.2.dropWhile (·.2 < n)
  if msglistI.head?.any (·.1 ≤ n) then (i.1, msglistI)
  else if i.1.getLast?.any (n ≤ ·) then (i.1, msglistI)
  else (i.1 ++ [n], msglistI)

/-- The numbers that the server lists, and the end of the list. -/
def opened (g : Text) (listed : List Nat) (selected : Newsrc × State) : State :=
  let (n, s) := selected
  let index := (listed.foldl processMessageNumber (s.index, n.msglist.elems)).1
  { s with
    index := index
    openedGroup := g
    newsrcFile :=
      updateOpenedNewsrc tab grow s.newsrcFile (createNewsrc grow index s.hiWatermark n) }

end Nntp

/-! ## The marks of a line -/

section Marks
variable {grow : Nat → Nat} {v : Msglist} {index : List Nat} {hiWatermark : Nat}

/-- What is between `l` and the last number, without the numbers. -/
def gaps (l : Nat) : List Nat → List Range
  | [] => []
  | b :: index => if l + 1 ≠ b then (l + 1, b - 1) :: gaps b index else gaps b index

theorem createLoop_gaps (v : Msglist) (l : Nat) (index : List Nat) :
    (createLoop grow v (some l) index).elems = v.elems ++ gaps l index := by
  induction index generalizing v l with
  | nil => simp [createLoop, gaps]
  | cons b index ih =>
      rw [createLoop, gaps, ih]
      by_cases gap : l + 1 ≠ b
      · simp [gap, Msglist.pushBack]
      · simp [gap]

theorem le_getLastD {b : Nat} (asc : (b :: index).Pairwise (· < ·)) : b ≤ index.getLastD b := by
  rcases List.mem_cons.1 (@List.getLastD_mem_cons _ index b) with same | mem
  · exact same.ge
  · exact ((List.pairwise_cons.1 asc).1 _ mem).le

theorem gaps_marks {l : Nat} (asc : (l :: index).Pairwise (· < ·))
    (fits : ∀ b ∈ index, b < msgnums) :
    Wf (gaps l index) ∧ (∀ r ∈ gaps l index, l < r.1) ∧
      ∀ n, n ∈ numbers (gaps l index) ↔ l < n ∧ n ≤ index.getLastD l ∧ n ∉ index := by
  induction index generalizing l with
  | nil =>
      refine ⟨⟨spaced_nil, by simp [gaps]⟩, by simp [gaps], fun n => ?_⟩
      simp only [gaps, mem_numbers_nil, List.getLastD_nil, false_iff]
      omega
  | cons b index ih =>
      obtain ⟨above, asc'⟩ := List.pairwise_cons.1 asc
      obtain ⟨wf, behind, same⟩ := ih asc' fun c mem => fits c (List.mem_cons_of_mem b mem)
      have hb := above b List.mem_cons_self
      have hfits := fits b List.mem_cons_self
      have hlast := le_getLastD asc'
      have hmem : ∀ n, (l < n ∧ n < b) ∨ n ∈ numbers (gaps b index) ↔
          l < n ∧ n ≤ (b :: index).getLastD l ∧ n ∉ b :: index := by
        intro n
        rw [same, List.getLastD_cons, List.mem_cons]
        by_cases mem : n ∈ index
        · have := (List.pairwise_cons.1 asc').1 n mem
          simp only [mem, or_true, not_true_eq_false, and_false, or_false, iff_false]
          omega
        · simp only [mem, or_false, not_false_eq_true, and_true]
          omega
      rw [gaps]
      by_cases gap : l + 1 ≠ b
      · rw [if_pos gap]
        refine ⟨wf_cons_iff.2 ⟨by simp only; omega, wf, fun s mem => ?_⟩, fun r mem => ?_,
          fun n => ?_⟩
        · have := behind s mem
          simp only
          omega
        · rcases List.mem_cons.1 mem with rfl | mem
          · exact Nat.lt_succ_self l
          · exact hb.trans (behind r mem)
        · rw [← hmem, mem_numbers_cons]
          exact or_congr_left (by simp only; omega)
      · rw [if_neg gap]
        refine ⟨wf, fun r mem => hb.trans (behind r mem), fun n => ?_⟩
        rw [← hmem]
        exact (or_iff_right (by omega)).symm

/-- The last number that the line of an index tells something of. -/
def lastTold (index : List Nat) (hiWatermark : Nat) : Nat :=
  index.getLast?.getD (hiWatermark - 1)

theorem createNewsrc_marks (asc : (0 :: index).Pairwise (· < ·)) (fits : ∀ a ∈ index, a < msgnums)
    (hhi : hiWatermark ≤ msgnums) (n : Newsrc) :
    Wf (createNewsrc grow index hiWatermark n).msglist.elems ∧
      ∀ a, a ∈ numbers (createNewsrc grow index hiWatermark n).msglist.elems ↔
        1 ≤ a ∧ a ≤ lastTold index hiWatermark ∧ a ∉ index := by
  cases index with
  | nil =>
      have nil : Wf [] := ⟨spaced_nil, by simp⟩
      by_cases some' : hiWatermark > 1
      · simp only [createNewsrc, some', Msglist.pushBack, lastTold]
        exact ⟨wf_cons_iff.2 ⟨by simp only; omega, nil, by simp⟩, by simp⟩
      · simp only [createNewsrc, some', lastTold]
        refine ⟨nil, fun a => ?_⟩
        simp
        omega
  | cons b index =>
      have hb := (List.pairwise_cons.1 asc).1 b List.mem_cons_self
      have hmarks : (createNewsrc grow (b :: index) hiWatermark n).msglist.elems =
          gaps 0 (b :: index) := by
        by_cases one : b > 1
        · simp [createNewsrc, createLoop, createLoop_gaps, gaps, one, Msglist.pushBack,
            Nat.ne_of_lt one]
        · simp [createNewsrc, createLoop, createLoop_gaps, gaps, show b = 1 by omega]
      obtain ⟨wf, -, same⟩ := gaps_marks asc fits
      rw [hmarks]
      refine ⟨wf, fun a => ?_⟩
      rw [same, lastTold, List.getLastD_eq_getLast?, List.getLast?_cons]
      rfl

/-- Where the scan for `n` stops tells whether `n` is marked. -/
theorem mem_numbers_iff {marks : List Range} (spaced : Spaced marks) (n : Nat) :
    n ∈ numbers marks ↔ (marks.dropWhile (·.2 < n)).head?.any (·.1 ≤ n) = true := by
  induction marks with
  | nil => simp
  | cons r marks ih =>
      obtain ⟨-, spaced', between⟩ := spaced_cons_iff.1 spaced
      rw [mem_numbers_cons]
      by_cases before : r.2 < n
      · rw [List.dropWhile_cons_of_pos (by simpa using before), ← ih spaced']
        exact or_iff_right (by omega)
      · rw [List.dropWhile_cons_of_neg (by simpa using before)]
        have later : n ∈ numbers marks → r.1 ≤ n := by
          rintro ⟨s, mem, low, -⟩
          have := between s mem
          omega
        simp
        exact ⟨fun h => h.elim (·.1) later, fun low => Or.inl ⟨low, by omega⟩⟩

theorem dropWhile_dropWhile {a c : Nat} (lt : a < c) (marks : List Range) :
    (marks.dropWhile (·.2 < a)).dropWhile (·.2 < c) = marks.dropWhile (·.2 < c) := by
  induction marks with
  | nil => rfl
  | cons r marks ih =>
      by_cases before : r.2 < a
      · rw [List.dropWhile_cons_of_pos (by simpa using before), ih,
          List.dropWhile_cons_of_pos (by simp; omega)]
      · rw [List.dropWhile_cons_of_neg (by simpa using before)]

/-- An article that is not marked is taken, in the order of the list. -/
theorem processMessageNumber_marks {taken : List Nat} {marks : List Range} {articles : List Nat}
    {p : Nat → Bool} (asc : articles.Pairwise (· < ·))
    (above : ∀ a ∈ articles, ∀ last ∈ taken.getLast?, last < a)
    (hp : ∀ a ∈ articles, p a = !(marks.dropWhile (·.2 < a)).head?.any (·.1 ≤ a)) :
    (articles.foldl processMessageNumber (taken, marks)).1 = taken ++ articles.filter p := by
  induction articles generalizing taken marks with
  | nil => simp
  | cons a articles ih =>
      obtain ⟨later, asc'⟩ := List.pairwise_cons.1 asc
      have hp' : ∀ c ∈ articles, p c =
          !((marks.dropWhile (·.2 < a)).dropWhile (·.2 < c)).head?.any (·.1 ≤ c) := by
        intro c mem
        rw [dropWhile_dropWhile (later c mem)]
        exact hp c (List.mem_cons_of_mem a mem)
      have hfirst := hp a List.mem_cons_self
      rw [List.foldl_cons, processMessageNumber]
      dsimp only
      cases marked : (marks.dropWhile (·.2 < a)).head?.any (·.1 ≤ a) with
      | true =>
          rw [marked] at hfirst
          rw [if_pos rfl, ih asc' (fun c mem => above c (List.mem_cons_of_mem a mem)) hp',
            List.filter_cons_of_neg (by simp [hfirst])]
      | false =>
          rw [marked] at hfirst
          have behind : taken.getLast?.any (a ≤ ·) = false := by
            cases hlast : taken.getLast? with
            | none => rfl
            | some last => simpa using above a List.mem_cons_self last hlast
          have above' : ∀ c ∈ articles, ∀ last ∈ (taken ++ [a]).getLast?, last < c := by
            intro c mem last hlast
            obtain rfl : a = last := by simpa using hlast
            exact later c mem
          rw [if_neg Bool.false_ne_true, behind, if_neg Bool.false_ne_true, ih asc' above' hp',
            List.filter_cons_of_pos (by simp [hfirst]), List.append_assoc]
          rfl

end Marks

/-! ## Reopening -/

section Reopen
variable {tab : Tables LbClass} {grow : Nat → Nat} {f : List Text} {n : Newsrc} {g : Text}

/-- The line that was written last for a group is the one that is read for it. -/
theorem find_updateOpenedNewsrc (hg : (parse tab grow (print n)).newsgroupname = g)
    (hn : n.newsgroupname = g) :
    ((updateOpenedNewsrc tab grow f n).map (parse tab grow)).find?
      (fun m => m.newsgroupname = g) = some (parse tab grow (print n)) := by
  have replaced : ∀ lines : List Text,
      ((lines.map fun line =>
          if (parse tab grow line).newsgroupname = g then print n else line).map
        (parse tab grow)).find? (fun m => m.newsgroupname = g) =
      if lines.any fun line => (parse tab grow line).newsgroupname = g then
        some (parse tab grow (print n)) else none := by
    intro lines
    induction lines with
    | nil => rfl
    | cons line lines ih =>
        by_cases hline : (parse tab grow line).newsgroupname = g
        · simp [hline, hg]
        · simpa [hline] using ih
  rw [updateOpenedNewsrc, hn]
  split
  · rename_i found
    rw [replaced, if_pos found]
  · rename_i none'
    rw [List.map_append, List.find?_append, replaced, if_neg none', Option.none_or]
    simp [hg]

/-- A table that knows a space. -/
def spaceTables : Tables LbClass :=
  { indextab := #[0, 1], rangetab := #[(0x20, 0x20)], classtab := #[.SP] }

theorem spaces_spaceTables : Spaces spaceTables :=
  ⟨by decide +kernel, Ctype.forall_byte (by decide +kernel), by decide +kernel, by decide +kernel⟩

/-- Two articles are left of an index that went up to 6. -/
def sampleFile : List Text :=
  updateOpenedNewsrc spaceTables id []
    (createNewsrc id [3, 5] 7 { empty with newsgroupname := [97] })

end Reopen
end Cone.NntpReopen
