import Cone.SearchMessages
import Cone.Lib.Istream

/-! # Searching a group on the server

nntpxpat.C: the XPAT command, its reply, and the positions that the search reports. -/
set_option autoImplicit false
namespace Cone.NntpXpat

open Cone.Ctype Cone.Lib.Decimal Cone.Lib.Istream
open Cone.SearchMessages (SearchParams MessageInfo inScope)

abbrev Text := List UInt8

def IDX_DELETED : UInt8 := 1
def IDX_FLAGGED : UInt8 := 2
def IDX_SEARCH : UInt8 := 128

structure NntpMessageInfo where
  msgNum : Nat
  msgFlag : UInt8
  deriving DecidableEq, Repr

def NntpMessageInfo.info (m : NntpMessageInfo) : MessageInfo Nat where
  uid := m.msgNum
  marked := m.msgFlag &&& IDX_FLAGGED ≠ 0
  replied := false
  deleted := m.msgFlag &&& IDX_DELETED ≠ 0
  draft := false
  unread := false

section Task

inductive ResponseFunc where
  | processStatusResponse
  | processXpatResponse
  deriving DecidableEq, Repr

structure Xpat where
  index : List NntpMessageInfo
  lastIdxMsgNum : Nat
  response_func : ResponseFunc
  result : Option (List Nat)
  deriving DecidableEq, Repr

def selectedGroup (index : List NntpMessageInfo) (hdr srch : Text) : Xpat × Text :=
  (⟨index.map fun b => { b with msgFlag := b.msgFlag &&& ~~~IDX_SEARCH }, 0,
      .processStatusResponse, none⟩,
    str "XPAT " ++ hdr ++ str " " ++ decimal ((index.head?.map (·.msgNum)).getD 1) ++ str "- *" ++
      srch ++ str "*\x0d\n")

/-- The loop of `processXpatResponse`: where it ends, and whether the message there is marked. -/
def scan (index : List NntpMessageInfo) (n : Nat) : Nat → Nat → Option (Nat × Bool)
  | 0, _ => none
  | fuel + 1, lastIdxMsgNum =>
    match index[lastIdxMsgNum]? with
    | none => none
    | some m =>
      if m.msgNum > n then
        if lastIdxMsgNum = 0 then some (lastIdxMsgNum, false)
        else if index[lastIdxMsgNum - 1]?.any (·.msgNum < n) then some (lastIdxMsgNum - 1, false)
        else scan index n fuel (lastIdxMsgNum - 1)
      else if m.msgNum < n then
        if lastIdxMsgNum + 1 = index.length then some (lastIdxMsgNum + 1, false)
        else if index[lastIdxMsgNum + 1]?.any (·.msgNum > n) then some (lastIdxMsgNum + 1, false)
        else scan index n fuel (lastIdxMsgNum + 1)
      else some (lastIdxMsgNum, true)

variable (p : SearchParams)

def done (index : List NntpMessageInfo) : List Nat :=
  let Xor := if p.searchNot then IDX_SEARCH else 0
  let masks : UInt8 × UInt8 :=
    match p.scope with
    | .search_all => (Xor, IDX_SEARCH)
    | .search_unmarked => (Xor ||| IDX_FLAGGED, 0)
    | .search_marked => (Xor, 0)
    | .search_range => (Xor, IDX_FLAGGED)
  let range : Nat × Nat :=
    if p.scope = .search_range then
      let rangeHi := if p.rangeHi > index.length then index.length else p.rangeHi
      (if p.rangeLo > rangeHi then rangeHi else p.rangeLo, rangeHi)
    else (0, index.length)
  (List.range' range.1 (range.2 - range.1)).filter fun b =>
    index[b]?.any fun m =>
      let f := (m.msgFlag ^^^ masks.1) ||| masks.2
      f &&& IDX_FLAGGED ≠ 0 && f &&& IDX_SEARCH ≠ 0

def processXpatResponse (t : Xpat) (l : Text) : Option Xpat :=
  -- a line that starts with a dot has no number
  let t := if l.head? = some (byte '.') then { t with result := some (done p t.index) } else t
  match readSize l with
  | none => some t
  | some (n, _) =>
    if t.index.length = 0 then some t
    else
      let start :=
        if t.lastIdxMsgNum = t.index.length then t.lastIdxMsgNum - 1 else t.lastIdxMsgNum
      (scan t.index n (t.index.length + 1) start).map fun r =>
        { t with
          lastIdxMsgNum := r.1
          index :=
            if r.2 then
              t.index.modify r.1 fun m => { m with msgFlag := m.msgFlag ||| IDX_SEARCH }
            else t.index }

def processStatusResponse (t : Xpat) (line : Text) : Xpat :=
  if line.head? ≠ some (byte '2') then { t with result := some (done p t.index) }
  else { t with response_func := .processXpatResponse }

def processGroup (t : Xpat) (line : Text) : Option Xpat :=
  if t.result.isSome then some t
  else
    match t.response_func with
    | .processStatusResponse => some (processStatusResponse p t line)
    | .processXpatResponse => processXpatResponse p t line

def search (index : List NntpMessageInfo) (hdr srch : Text) (lines : List Text) : Option Xpat :=
  lines.foldlM (processGroup p) (selectedGroup index hdr srch).1

end Task

section Scan
variable {index : List NntpMessageInfo} {n cur fuel : Nat}

def Ascending (index : List NntpMessageInfo) : Prop :=
  index.Pairwise fun a b => a.msgNum < b.msgNum

def Finds (index : List NntpMessageInfo) (n : Nat) (r : Nat × Bool) : Prop :=
  r.1 ≤ index.length ∧ (r.2 = true → ∃ m, index[r.1]? = some m ∧ m.msgNum = n) ∧
    (r.2 = false → ∀ m ∈ index, m.msgNum ≠ n)

theorem Ascending.lt (hasc : Ascending index) {i j : Nat} {a b : NntpMessageInfo} (hij : i < j)
    (ha : index[i]? = some a) (hb : index[j]? = some b) : a.msgNum < b.msgNum := by
  obtain ⟨hi, rfl⟩ := List.getElem?_eq_some_iff.1 ha
  obtain ⟨hj, rfl⟩ := List.getElem?_eq_some_iff.1 hb
  exact List.pairwise_iff_getElem.1 hasc i j hi hj hij

/-- Below of some place all numbers are smaller, and from there on they are greater. -/
theorem ne_of_split (i : Nat) (hbelow : ∀ j m, j < i → index[j]? = some m → m.msgNum < n)
    (habove : ∀ j m, i ≤ j → index[j]? = some m → n < m.msgNum) :
    ∀ m ∈ index, m.msgNum ≠ n := by
  intro m mem
  obtain ⟨j, hj⟩ := List.mem_iff_getElem?.1 mem
  rcases Nat.lt_or_ge j i with hlt | hge
  · exact Nat.ne_of_lt (hbelow j m hlt hj)
  · exact Nat.ne_of_gt (habove j m hge hj)

theorem below_of_last (hasc : Ascending index) {i : Nat} {m : NntpMessageInfo}
    (hm : index[i]? = some m) (hlt : m.msgNum < n) :
    ∀ j x, j < i + 1 → index[j]? = some x → x.msgNum < n := by
  intro j x hj hx
  rcases Nat.lt_or_eq_of_le (Nat.le_of_lt_succ hj) with hij | rfl
  · exact Nat.lt_trans (hasc.lt hij hx hm) hlt
  · rw [hm] at hx
    exact Option.some.inj hx ▸ hlt

theorem above_of_first (hasc : Ascending index) {i : Nat} {m : NntpMessageInfo}
    (hm : index[i]? = some m) (hlt : n < m.msgNum) :
    ∀ j x, i ≤ j → index[j]? = some x → n < x.msgNum := by
  intro j x hj hx
  rcases Nat.lt_or_eq_of_le hj with hij | rfl
  · exact Nat.lt_trans hlt (hasc.lt hij hm hx)
  · rw [hm] at hx
    exact Option.some.inj hx ▸ hlt

theorem scan_left (hasc : Ascending index) {m : NntpMessageInfo} (hm : index[cur]? = some m)
    (hge : n ≤ m.msgNum) (hfuel : cur < fuel) :
    ∃ r, scan index n fuel cur = some r ∧ Finds index n r := by
  induction fuel generalizing cur m with
  | zero => exact absurd hfuel (Nat.not_lt_zero cur)
  | succ fuel ih =>
      obtain ⟨hlen, -⟩ := List.getElem?_eq_some_iff.1 hm
      rw [scan, hm]
      by_cases hgt : m.msgNum > n
      · simp only [if_pos hgt]
        cases cur with
        | zero =>
            refine ⟨_, rfl, Nat.zero_le _, nofun, fun _ => ?_⟩
            exact ne_of_split 0 (fun j x hj => absurd hj (Nat.not_lt_zero j))
              (above_of_first hasc hm hgt)
        | succ cur =>
            obtain ⟨x, hx⟩ : ∃ x, index[cur]? = some x :=
              ⟨_, List.getElem?_eq_getElem (Nat.lt_of_succ_lt hlen)⟩
            simp only [Nat.add_one_ne_zero, if_false, Nat.add_one_sub_one, hx, Option.any_some,
              decide_eq_true_eq]
            by_cases hlt : x.msgNum < n
            · rw [if_pos hlt]
              refine ⟨_, rfl, Nat.le_of_lt (Nat.lt_of_succ_lt hlen), nofun, fun _ => ?_⟩
              exact ne_of_split (cur + 1) (below_of_last hasc hx hlt) (above_of_first hasc hm hgt)
            · rw [if_neg hlt]
              exact ih hx (Nat.le_of_not_lt hlt) (Nat.lt_of_succ_lt_succ hfuel)
      · have heq : m.msgNum = n := Nat.le_antisymm (Nat.le_of_not_lt hgt) hge
        simp only [if_neg hgt, if_neg (Nat.not_lt.2 hge)]
        exact ⟨_, rfl, Nat.le_of_lt hlen, fun _ => ⟨m, hm, heq⟩, nofun⟩

theorem scan_right (hasc : Ascending index) {m : NntpMessageInfo} (hm : index[cur]? = some m)
    (hle : m.msgNum ≤ n) (hfuel : index.length < cur + fuel) :
    ∃ r, scan index n fuel cur = some r ∧ Finds index n r := by
  induction fuel generalizing cur m with
  | zero =>
      obtain ⟨hlen, -⟩ := List.getElem?_eq_some_iff.1 hm
      omega
  | succ fuel ih =>
      obtain ⟨hlen, -⟩ := List.getElem?_eq_some_iff.1 hm
      rw [scan, hm]
      simp only [if_neg (Nat.not_lt.2 hle)]
      by_cases hlt : m.msgNum < n
      · rw [if_pos hlt]
        by_cases hend : cur + 1 = index.length
        · rw [if_pos hend]
          refine ⟨_, rfl, Nat.le_of_eq hend, nofun, fun _ => ?_⟩
          refine ne_of_split (cur + 1) (below_of_last hasc hm hlt) fun j x hj hx => ?_
          obtain ⟨hjlen, -⟩ := List.getElem?_eq_some_iff.1 hx
          omega
        · obtain ⟨x, hx⟩ : ∃ x, index[cur + 1]? = some x :=
            ⟨_, List.getElem?_eq_getElem (Nat.lt_of_le_of_ne hlen hend)⟩
          simp only [if_neg hend, hx, Option.any_some, decide_eq_true_eq]
          by_cases hgt : x.msgNum > n
          · rw [if_pos hgt]
            refine ⟨_, rfl, hlen, nofun, fun _ => ?_⟩
            exact ne_of_split (cur + 1) (below_of_last hasc hm hlt) (above_of_first hasc hx hgt)
          · rw [if_neg hgt]
            exact ih hx (Nat.le_of_not_lt hgt) (by omega)
      · have heq : m.msgNum = n := Nat.le_antisymm hle (Nat.le_of_not_lt hlt)
        rw [if_neg hlt]
        exact ⟨_, rfl, Nat.le_of_lt hlen, fun _ => ⟨m, hm, heq⟩, nofun⟩

theorem scan_finds (hasc : Ascending index) (hcur : cur < index.length) :
    ∃ r, scan index n (index.length + 1) cur = some r ∧ Finds index n r := by
  have hm := List.getElem?_eq_getElem hcur
  rcases Nat.le_total n index[cur].msgNum with hge | hle
  · exact scan_left hasc hm hge (Nat.lt_succ_of_lt hcur)
  · exact scan_right hasc hm hle (by omega)

end Scan

section Answers
variable {index : List NntpMessageInfo} {numbers : List Nat} {n : Nat}

def marked (msgFlag : UInt8) (hit : Bool) : UInt8 :=
  if hit then msgFlag &&& ~~~IDX_SEARCH ||| IDX_SEARCH else msgFlag &&& ~~~IDX_SEARCH

def marks (index : List NntpMessageInfo) (numbers : List Nat) : List NntpMessageInfo :=
  index.map fun m => { m with msgFlag := marked m.msgFlag (m.msgNum ∈ numbers) }

theorem getElem?_marks (i : Nat) :
    (marks index numbers)[i]? =
      index[i]?.map fun m => { m with msgFlag := marked m.msgFlag (m.msgNum ∈ numbers) } :=
  List.getElem?_map

theorem length_marks : (marks index numbers).length = index.length := List.length_map _

theorem ascending_marks (hasc : Ascending index) : Ascending (marks index numbers) :=
  List.pairwise_map.2 hasc

theorem marked_again (msgFlag : UInt8) (hit : Bool) :
    marked msgFlag hit ||| IDX_SEARCH = marked msgFlag true := by
  cases hit with
  | true => rw [marked, if_pos rfl, UInt8.or_assoc, UInt8.or_self]
  | false => rfl

/-- What a line of the reply does. -/
theorem marks_append (hasc : Ascending index) {r : Nat × Bool}
    (hr : Finds (marks index numbers) n r) :
    (if r.2 then
        (marks index numbers).modify r.1 fun m => { m with msgFlag := m.msgFlag ||| IDX_SEARCH }
      else marks index numbers) = marks index (numbers ++ [n]) := by
  obtain ⟨-, hfound, hmissing⟩ := hr
  apply List.ext_getElem?
  intro i
  rw [getElem?_marks]
  cases hhit : r.2 with
  | false =>
      rw [if_neg Bool.false_ne_true, getElem?_marks]
      cases hm : index[i]? with
      | none => rfl
      | some m =>
          have hne : m.msgNum ≠ n := by
            apply hmissing hhit { m with msgFlag := marked m.msgFlag (m.msgNum ∈ numbers) }
            exact List.mem_map_of_mem (List.mem_of_getElem? hm)
          simp only [Option.map_some, List.mem_append, List.mem_singleton, hne, or_false]
  | true =>
      obtain ⟨y, hy, hn⟩ := hfound hhit
      rw [if_pos rfl, List.getElem?_modify, getElem?_marks]
      rw [getElem?_marks] at hy
      obtain ⟨x, hx, rfl⟩ := Option.map_eq_some_iff.1 hy
      cases hm : index[i]? with
      | none => rfl
      | some m =>
          by_cases hi : r.1 = i
          · subst hi
            obtain rfl := Option.some.inj (hx.symm.trans hm)
            have hmem : x.msgNum ∈ numbers ++ [n] := by
              rw [show x.msgNum = n from hn]
              exact List.mem_append_right _ List.mem_cons_self
            simp only [Option.map_some, Option.map_eq_map, if_true, marked_again, hmem,
              decide_true]
          · have hne : m.msgNum ≠ n := by
              rw [← show x.msgNum = n from hn]
              rcases Nat.lt_or_gt_of_ne hi with hlt | hgt
              · exact Nat.ne_of_gt (hasc.lt hlt hx hm)
              · exact Nat.ne_of_lt (hasc.lt hgt hm hx)
            simp only [Option.map_some, Option.map_eq_map, if_neg hi, List.mem_append,
              List.mem_singleton, hne, or_false]

end Answers

section Runs
variable {p : SearchParams} {index : List NntpMessageInfo} {numbers : List Nat} {lines : List Text}
variable {t : Xpat} {cur : Nat}

def reading (index : List NntpMessageInfo) (numbers : List Nat) (cur : Nat) : Xpat :=
  ⟨marks index numbers, cur, .processXpatResponse, none⟩

def EndsReply (line : Text) : Prop := line.head? = some (byte '.')

instance (line : Text) : Decidable (EndsReply line) :=
  inferInstanceAs (Decidable (line.head? = some (byte '.')))

def numbersIn (lines : List Text) : List Nat := lines.filterMap fun l => (readSize l).map Prod.fst

theorem numbersIn_cons (line : Text) (lines : List Text) :
    numbersIn (line :: lines) = numbersIn [line] ++ numbersIn lines :=
  List.filterMap_append (l := [line])

theorem readSize_ends {line : Text} (h : EndsReply line) : readSize line = none := by
  obtain ⟨rest, rfl⟩ := List.head?_eq_some_iff.1 h
  rfl

theorem processXpatResponse_last {line : Text} (h : EndsReply line) :
    processXpatResponse p t line = some { t with result := some (done p t.index) } := by
  rw [processXpatResponse, readSize_ends h]
  exact congrArg some (if_pos h)

theorem processXpatResponse_line (hasc : Ascending index) (hcur : cur ≤ index.length) {line : Text}
    (h : ¬ EndsReply line) :
    ∃ next, next ≤ index.length ∧
      processXpatResponse p (reading index numbers cur) line =
        some (reading index (numbers ++ numbersIn [line]) next) := by
  have hdot : ¬ line.head? = some (byte '.') := h
  simp only [processXpatResponse, if_neg hdot]
  cases hread : readSize line with
  | none =>
      have hnone : numbersIn [line] = [] := by
        simp only [numbersIn, List.filterMap, hread, Option.map_none]
      refine ⟨cur, hcur, ?_⟩
      rw [hnone, List.append_nil]
  | some r =>
      have hsome : numbersIn [line] = [r.1] := by
        simp only [numbersIn, List.filterMap, hread, Option.map_some]
      obtain ⟨n, rest⟩ := r
      rw [hsome]
      simp only [reading, length_marks]
      by_cases hempty : index.length = 0
      · obtain rfl := List.length_eq_zero_iff.1 hempty
        exact ⟨cur, hcur, rfl⟩
      · rw [if_neg hempty]
        have hstart : (if cur = index.length then cur - 1 else cur) <
            (marks index numbers).length := by
          rw [length_marks]
          split <;> omega
        obtain ⟨r, hr, hfinds⟩ := scan_finds (n := n) (@ascending_marks index numbers hasc) hstart
        rw [length_marks] at hr
        refine ⟨r.1, @length_marks index numbers ▸ hfinds.1, ?_⟩
        rw [hr, ← marks_append hasc hfinds]
        rfl

theorem foldlM_done {found : List Nat} (h : t.result = some found) :
    lines.foldlM (processGroup p) t = some t := by
  induction lines with
  | nil => rfl
  | cons line lines ih =>
      rw [List.foldlM_cons, processGroup, if_pos (by rw [h]; rfl)]
      exact ih

theorem foldlM_reading (hasc : Ascending index) (hcur : cur ≤ index.length) :
    ∃ t, lines.foldlM (processGroup p) (reading index numbers cur) = some t ∧
      t.result =
        if ∃ line ∈ lines, EndsReply line then
          some (done p (marks index
            (numbers ++ numbersIn (lines.takeWhile fun line => ¬ EndsReply line))))
        else none := by
  induction lines generalizing numbers cur with
  | nil => exact ⟨_, rfl, (if_neg (by simp)).symm⟩
  | cons line lines ih =>
      rw [List.foldlM_cons]
      by_cases hend : EndsReply line
      · have hfirst : processGroup p (reading index numbers cur) line = some
            { reading index numbers cur with result := some (done p (marks index numbers)) } :=
          processXpatResponse_last hend
        rw [hfirst, if_pos ⟨line, List.mem_cons_self, hend⟩,
          List.takeWhile_cons_of_neg (by simpa using hend)]
        refine ⟨_, foldlM_done rfl, ?_⟩
        rw [numbersIn, List.filterMap_nil, List.append_nil]
      · obtain ⟨next, hnext, hline⟩ :=
          @processXpatResponse_line p index numbers cur hasc hcur line hend
        have hfirst : processGroup p (reading index numbers cur) line =
          some (reading index (numbers ++ numbersIn [line]) next) := hline
        obtain ⟨t, ht, hresult⟩ := @ih (numbers ++ numbersIn [line]) next hnext
        refine ⟨t, ?_, ?_⟩
        · rw [hfirst]
          exact ht
        · rw [hresult, List.takeWhile_cons_of_pos (by simpa using hend), List.append_assoc]
          simp only [List.mem_cons, exists_eq_or_imp, hend, false_or]
          rw [← numbersIn_cons]

def Answered : List Text → Prop
  | [] => False
  | status :: lines => status.head? = some (byte '2') → ∃ line ∈ lines, EndsReply line

def answer : List Text → List Nat
  | [] => []
  | status :: lines =>
    if status.head? = some (byte '2') then
      numbersIn (lines.takeWhile fun line => ¬ EndsReply line)
    else []

theorem search_result (hasc : Ascending index) (hdr srch : Text) :
    ∃ t, search p index hdr srch lines = some t ∧
      (Answered lines → t.result = some (done p (marks index (answer lines)))) ∧
      (¬ Answered lines → t.result = none) := by
  cases lines with
  | nil => exact ⟨_, rfl, False.elim, fun _ => rfl⟩
  | cons status lines =>
      have hstart : marks index [] = (selectedGroup index hdr srch).1.index := by
        simp only [marks, marked, List.not_mem_nil, decide_false, Bool.false_eq_true, if_false]
        rfl
      rw [search, List.foldlM_cons]
      by_cases hok : status.head? = some (byte '2')
      · have hfirst : processGroup p (selectedGroup index hdr srch).1 status =
            some (reading index [] 0) := by
          rw [reading, hstart]
          exact congrArg some (if_neg (not_not.2 hok))
        obtain ⟨t, ht, hresult⟩ :=
          @foldlM_reading p index [] lines 0 hasc (Nat.zero_le _)
        refine ⟨t, by rw [hfirst]; exact ht, ?_, ?_⟩
        · intro hanswered
          rw [hresult, if_pos (hanswered hok), answer, if_pos hok, List.nil_append]
        · intro hnot
          rw [hresult, if_neg fun h => hnot fun _ => h]
      · have hfirst : processGroup p (selectedGroup index hdr srch).1 status = some
            { (selectedGroup index hdr srch).1 with result := some (done p (marks index [])) } := by
          rw [hstart]
          exact congrArg some (if_pos hok)
        refine ⟨_, by rw [hfirst]; exact foldlM_done rfl, ?_, ?_⟩
        · intro _
          rw [answer, if_neg hok]
        · exact fun hnot => absurd (fun h => absurd h hok) hnot

end Runs

section Reports
variable {p : SearchParams} {index : List NntpMessageInfo} {numbers : List Nat}

def wanted (p : SearchParams) (index : List NntpMessageInfo) (numbers : List Nat) : List Nat :=
  (List.range index.length).filter fun i =>
    index[i]?.any fun m => inScope p i m.info && (decide (m.msgNum ∈ numbers) != p.searchNot)

/-- What `done` asks of the flags. -/
def shown (msgFlag Xor Ror : UInt8) : Bool :=
  let f := (msgFlag ^^^ Xor) ||| Ror
  f &&& IDX_FLAGGED ≠ 0 && f &&& IDX_SEARCH ≠ 0

theorem shown_marked (msgFlag : UInt8) (hit searchNot : Bool) :
    (shown (marked msgFlag hit) (if searchNot then IDX_SEARCH else 0) IDX_SEARCH =
      decide (msgFlag &&& IDX_FLAGGED ≠ 0)) ∧
    (shown (marked msgFlag hit) ((if searchNot then IDX_SEARCH else 0) ||| IDX_FLAGGED) 0 =
      (!decide (msgFlag &&& IDX_FLAGGED ≠ 0) && (hit != searchNot))) ∧
    (shown (marked msgFlag hit) (if searchNot then IDX_SEARCH else 0) 0 =
      (decide (msgFlag &&& IDX_FLAGGED ≠ 0) && (hit != searchNot))) ∧
    (shown (marked msgFlag hit) (if searchNot then IDX_SEARCH else 0) IDX_FLAGGED =
      (hit != searchNot)) := by
  revert msgFlag
  cases hit <;> cases searchNot <;> exact forall_byte (by decide +kernel)

theorem filter_eq_filter_iff {α : Type} {l : List α} {f g : α → Bool} :
    l.filter f = l.filter g ↔ ∀ x ∈ l, f x = g x := by
  constructor
  · intro heq x mem
    have hiff : x ∈ l.filter f ↔ x ∈ l.filter g := by rw [heq]
    rw [List.mem_filter, List.mem_filter, and_iff_right mem, and_iff_right mem] at hiff
    exact Bool.eq_iff_iff.2 hiff
  · exact List.filter_congr

/-- A part of the positions, as a condition on all of them. -/
theorem filter_range' (lo hi n : Nat) (f : Nat → Bool) :
    (List.range' (min lo (min hi n)) (min hi n - min lo (min hi n))).filter f =
      (List.range n).filter fun i => (decide (lo ≤ i) && decide (i < hi)) && f i := by
  obtain ⟨a, b, c, ha, hb, hc⟩ : ∃ a b c, min lo (min hi n) = a ∧ min hi n - min lo (min hi n) = b ∧
      n = a + b + c := ⟨_, _, n - min hi n, rfl, rfl, by omega⟩
  rw [hb, ha, List.range_eq_range', hc, Nat.add_assoc, ← List.range'_append_1,
    ← List.range'_append_1, List.filter_append, List.filter_append]
  have hbefore : (List.range' 0 a).filter
      (fun i => (decide (lo ≤ i) && decide (i < hi)) && f i) = [] := by
    rw [List.filter_eq_nil_iff]
    intro i mem
    rw [List.mem_range'_1] at mem
    have hlo : ¬ (lo ≤ i) := by omega
    simp [hlo]
  have hafter : (List.range' (0 + a + b) c).filter
      (fun i => (decide (lo ≤ i) && decide (i < hi)) && f i) = [] := by
    rw [List.filter_eq_nil_iff]
    intro i mem
    rw [List.mem_range'_1] at mem
    have hout : ¬ (lo ≤ i ∧ i < hi) := by omega
    simp only [← Bool.decide_and, hout, decide_false, Bool.false_and, Bool.false_eq_true,
      not_false_eq_true]
  rw [hbefore, hafter, List.nil_append, List.append_nil, Nat.zero_add]
  apply List.filter_congr
  intro i mem
  rw [List.mem_range'_1] at mem
  have hlo : lo ≤ i := by omega
  have hhi : i < hi := by omega
  simp only [hlo, hhi, decide_true, Bool.true_and]

/-- What `done` reports of the positions of the scope. -/
theorem filter_marks (l : List Nat) (Xor Ror : UInt8) :
    (l.filter fun b => (marks index numbers)[b]?.any fun m => shown m.msgFlag Xor Ror) =
      l.filter fun b => index[b]?.any fun m =>
        shown (marked m.msgFlag (m.msgNum ∈ numbers)) Xor Ror := by
  apply List.filter_congr
  intro b _
  rw [getElem?_marks]
  cases index[b]? <;> rfl

theorem done_all (hscope : p.scope = .search_all) :
    done p (marks index numbers) =
      (List.range index.length).filter fun i => index[i]?.any fun m => m.info.marked := by
  simp only [done, hscope, reduceCtorEq, if_false, length_marks, Nat.sub_zero]
  rw [← List.range_eq_range']
  refine (filter_marks _ _ _).trans ?_
  simp only [(shown_marked _ _ _).1]
  rfl

theorem done_other (hscope : p.scope ≠ .search_all) :
    done p (marks index numbers) = wanted p index numbers := by
  cases h : p.scope with
  | search_all => exact absurd h hscope
  | search_unmarked =>
      simp only [done, wanted, inScope, h, reduceCtorEq, if_false, length_marks, Nat.sub_zero]
      rw [← List.range_eq_range']
      refine (filter_marks _ _ _).trans ?_
      simp only [(shown_marked _ _ _).2.1]
      rfl
  | search_marked =>
      simp only [done, wanted, inScope, h, reduceCtorEq, if_false, length_marks, Nat.sub_zero]
      rw [← List.range_eq_range']
      refine (filter_marks _ _ _).trans ?_
      simp only [(shown_marked _ _ _).2.2.1]
      rfl
  | search_range =>
      have hhi : (if p.rangeHi > index.length then index.length else p.rangeHi) =
          min p.rangeHi index.length := by
        split <;> omega
      have hlo : (if p.rangeLo > min p.rangeHi index.length then min p.rangeHi index.length
          else p.rangeLo) = min p.rangeLo (min p.rangeHi index.length) := by
        split <;> omega
      simp only [done, wanted, inScope, h, if_true, length_marks, hhi, hlo]
      refine (filter_marks _ _ _).trans ?_
      rw [filter_range']
      apply List.filter_congr
      intro i _
      simp only [(shown_marked _ _ _).2.2.2]
      cases index[i]? with
      | none => exact Bool.and_false _
      | some m =>
          simp only [Option.any_some, Bool.not_or, ← decide_not, Nat.not_lt, ge_iff_le, Nat.not_le]

def MarkedWanted (p : SearchParams) (index : List NntpMessageInfo) (numbers : List Nat) : Prop :=
  p.scope = .search_all →
    ∀ m ∈ index, m.info.marked = (decide (m.msgNum ∈ numbers) != p.searchNot)

theorem done_eq_wanted_iff :
    done p (marks index numbers) = wanted p index numbers ↔ MarkedWanted p index numbers := by
  by_cases hscope : p.scope = .search_all
  · rw [done_all hscope, wanted, filter_eq_filter_iff, MarkedWanted]
    simp only [inScope, hscope, Bool.true_and, List.mem_range, forall_const]
    constructor
    · intro h m mem
      obtain ⟨i, hi, rfl⟩ := List.mem_iff_getElem.1 mem
      have hpos := h i hi
      rw [List.getElem?_eq_getElem hi] at hpos
      exact hpos
    · intro h i hi
      rw [List.getElem?_eq_getElem hi]
      exact h _ (List.getElem_mem hi)
  · exact iff_of_true (done_other hscope) fun h => absurd h hscope

end Reports

section Searches
variable {p : SearchParams} {index : List NntpMessageInfo}

/-- The search ends with the last line of the reply, whatever the lines are, and its positions are
right exactly when the scope is not that of all messages or the marked messages are the wanted. -/
theorem xpat_reports_iff (hasc : Ascending index) (hdr srch : Text) (lines : List Text) :
    ∃ t, search p index hdr srch lines = some t ∧ (t.result.isSome ↔ Answered lines) ∧
      ∀ found, t.result = some found →
        (found = wanted p index (answer lines) ↔ MarkedWanted p index (answer lines)) := by
  obtain ⟨t, ht, hdone, hnone⟩ := @search_result p index lines hasc hdr srch
  refine ⟨t, ht, ?_, ?_⟩
  · by_cases h : Answered lines
    · rw [hdone h]
      exact iff_of_true rfl h
    · rw [hnone h]
      exact iff_of_false Bool.false_ne_true h
  · intro found hfound
    by_cases h : Answered lines
    · obtain rfl := Option.some.inj ((hdone h).symm.trans hfound)
      exact done_eq_wanted_iff
    · rw [hnone h] at hfound
      cases hfound

/-- Two articles, the second one marked. -/
def sampleIndex : List NntpMessageInfo := [⟨1, 0⟩, ⟨2, IDX_FLAGGED⟩]

def sampleLines : List Text := [str "221 ok", str "1 spam", str "."]

theorem xpat_reports_sample :
    ∃ t, search ⟨false, .subject, .search_unmarked, 0, 0⟩ sampleIndex (str "Subject") (str "spam")
        sampleLines = some t ∧ (t.result.isSome ↔ Answered sampleLines) ∧
      ∀ found, t.result = some found →
        (found = wanted ⟨false, .subject, .search_unmarked, 0, 0⟩ sampleIndex (answer sampleLines) ↔
          MarkedWanted ⟨false, .subject, .search_unmarked, 0, 0⟩ sampleIndex
            (answer sampleLines)) :=
  xpat_reports_iff (by simp [Ascending, sampleIndex]) (str "Subject") (str "spam") sampleLines

/-- The search of all messages misses the listed one and reports the marked one. -/
theorem all_misses_listed :
    (search ⟨false, .subject, .search_all, 0, 0⟩ sampleIndex (str "Subject") (str "spam")
        sampleLines).bind (·.result) = some [1] ∧
      wanted ⟨false, .subject, .search_all, 0, 0⟩ sampleIndex (answer sampleLines) = [0] := by
  decide +kernel

end Searches
end Cone.NntpXpat
