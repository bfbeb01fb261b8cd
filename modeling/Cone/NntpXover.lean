import Cone.Lib.Istream
import Cone.Lib.SequenceSet

/-! # The overview of a group

nntpxover.C: the ranges of articles that XOVER asks for, and the messages that its replies are
about. -/
set_option autoImplicit false
namespace Cone.NntpXover

open Cone.Ctype Cone.Lib.Decimal Cone.Lib.Istream
open Cone.Lib.SequenceSet (Range members)

abbrev Text := List UInt8

/-- The message numbers of `mail::nntp`'s index, while its group is open. -/
abbrev Index := List Nat

def MSGNUM : Nat := 2 ^ 64

section Numbers
variable (index : Index) (n : Nat)

/-- The first loop of `fixGenericMessageNumber`, with `left` messages from `msgNum` on: whether it
ends before them. -/
def up : Nat → Nat → Bool × Nat
  | 0, msgNum => (false, msgNum)
  | left + 1, msgNum =>
    if index[msgNum]?.any (n > ·) then up left (msgNum + 1) else (true, msgNum)

/-- The second loop. -/
def down : Nat → Nat
  | 0 => 0
  | msgNum + 1 => if index[msgNum + 1]?.any (n < ·) then down msgNum else msgNum + 1

def fixGenericMessageNumber (uid : Text) (msgNum : Nat) : Bool × Nat :=
  match readSize uid with
  | none => (false, msgNum)
  | some (n, _) =>
    let cnt := index.length
    if cnt ≤ msgNum ∧ cnt = 0 then (false, 0)
    else
      let msgNum := if cnt ≤ msgNum then cnt - 1 else msgNum
      match up index n (cnt - msgNum) msgNum with
      | (false, msgNum) => (false, msgNum)
      | (true, msgNum) =>
        let msgNum := down index n msgNum
        (index[msgNum]? = some n, msgNum)

end Numbers

section Task

inductive ResponseFunc where
  | processXoverStatus
  | processXover
  deriving DecidableEq, Repr

inductive Event (E D : Type) where
  | messageSizeCallback (msgNum byte_count : Nat)
  | messageArrivalDateCallback (msgNum : Nat) (date : D)
  | messageEnvelopeCallback (msgNum : Nat) (env : E)
  deriving DecidableEq, Repr

def Event.msgNum {E D : Type} : Event E D → Nat
  | .messageSizeCallback msgNum _ => msgNum
  | .messageArrivalDateCallback msgNum _ => msgNum
  | .messageEnvelopeCallback msgNum _ => msgNum

def ARRIVALDATE : UInt8 := 1
def MESSAGESIZE : UInt8 := 2
def ENVELOPE : UInt8 := 4

abbrev MsgUid := Nat × Text

/-- The task; `before` and `pending` are `msgUids` up to `nextUid` and from there on, `prevUid` the
entry that it points to.  The commands, the events and the call of `genericAttributes` are what went
out; behind `result` the task is gone. -/
structure Xover (E D : Type) where
  attributes : UInt8
  before : List MsgUid
  pending : List MsgUid
  prevUid : MsgUid
  firstMsgNum : Nat
  lastMsgNum : Nat
  response_func : ResponseFunc
  commands : List Text
  events : List (Event E D)
  genericAttributes : Option (List Nat × UInt8)
  result : Option Bool
  deriving DecidableEq, Repr

/-- The loop of the constructor over the sorted positions. -/
def uidsOf (index : Index) : List Nat → List MsgUid
  | [] => []
  | b :: cpy =>
    if cpy.head? ≠ some b then
      match index[b]? with
      | none => []
      | some msgNum => (b, decimal msgNum) :: uidsOf index cpy
    else uidsOf index cpy

variable {E D : Type}

def xoverTask (index : Index) (messages : List Nat) (attributes : UInt8) : Xover E D :=
  ⟨attributes, [], uidsOf index (messages.mergeSort (· ≤ ·)), (0, []), 0, 0,
    .processXoverStatus, [], [], none, none⟩

variable (index : Index)

def fix (u : MsgUid) : Bool × MsgUid :=
  let (found, msgNum) := fixGenericMessageNumber index u.2 u.1
  (found, (msgNum, u.2))

/-- The messages that no longer exist are passed over. -/
def skipMissing : List MsgUid → List MsgUid × List MsgUid
  | [] => ([], [])
  | u :: pending =>
    match fix index u with
    | (true, u) => ([], u :: pending)
    | (false, u) =>
      let (skipped, pending) := skipMissing pending
      (u :: skipped, pending)

def grow : Nat → List MsgUid → List MsgUid × List MsgUid
  | _, [] => ([], [])
  | last, u :: pending =>
    let (found, u) := fix index u
    if found ∧ (index[last]?.map fun msgNum => (msgNum + 1) % MSGNUM) = index[u.1]? then
      let (range, pending) := grow u.1 pending
      (u :: range, pending)
    else ([], u :: pending)

def command (first last : Text) : Text := str "XOVER " ++ first ++ str "-" ++ last ++ [CR, NL]

def finish (t : Xover E D) : Xover E D :=
  let msgNums := ((t.before ++ t.pending).map (fix index)).filterMap fun r =>
    if r.1 then some r.2.1 else none
  let attributes := t.attributes &&& ~~~(MESSAGESIZE ||| ENVELOPE ||| ARRIVALDATE)
  { t with
    attributes
    genericAttributes := if attributes ≠ 0 then some (msgNums, attributes) else none
    result := some true }

def doNextXoverRange : Nat → Xover E D → Option (Xover E D)
  | 0, _ => none
  | fuel + 1, t =>
    match skipMissing index t.pending with
    | (skipped, []) => some (finish index { t with before := t.before ++ skipped, pending := [] })
    | (skipped, prevUid :: pending) =>
      let (range, pending) := grow index prevUid.1 pending
      let lastUid := range.getLastD prevUid
      let t :=
        { t with
          before := t.before ++ skipped ++ prevUid :: range
          pending
          prevUid
          response_func := .processXoverStatus }
      match readSize prevUid.2, readSize lastUid.2 with
      | some (firstMsgNum, _), some (lastMsgNum, _) =>
        some
          { t with
            firstMsgNum
            lastMsgNum
            commands := t.commands ++ [command prevUid.2 lastUid.2] }
      | _, _ => doNextXoverRange fuel t

def nextRange (t : Xover E D) : Option (Xover E D) :=
  doNextXoverRange index (t.pending.length + 1) t

def selectedGroup (t : Xover E D) : Option (Xover E D) := nextRange index t

def processXoverStatus (t : Xover E D) (msg : Text) : Xover E D :=
  if msg.head? ≠ some (byte '2') then { t with result := some false }
  else { t with response_func := .processXover }

variable (newEnvelope : E) (genericBuildEnvelope : Text → Text → E → E) (date : E → D)

def articleNumber (msg : Text) : Option Nat :=
  (readSize ((msg.splitOn TAB).getD 0 [])).map (·.1)

def overview (t : Xover E D) (msg : Text) : List (Event E D) :=
  let fields := fun i => (msg.splitOn TAB).getD i []
  match readSize (fields 0) with
  | none => []
  | some (n, _) =>
    let byte_count := ((readSize (fields 6)).map (·.1)).getD 0
    if n < t.firstMsgNum ∨ n > t.lastMsgNum then []
    else
      let env := genericBuildEnvelope (str "Subject") (fields 1) newEnvelope
      let env := genericBuildEnvelope (str "From") (fields 2) env
      let env := genericBuildEnvelope (str "Date") (fields 3) env
      let env := genericBuildEnvelope (str "Message-ID") (fields 4) env
      let env := genericBuildEnvelope (str "References") (fields 5) env
      let msgNum := n - t.firstMsgNum + t.prevUid.1
      (if t.attributes &&& MESSAGESIZE ≠ 0 then [.messageSizeCallback msgNum byte_count] else []) ++
        (if t.attributes &&& ARRIVALDATE ≠ 0 then [.messageArrivalDateCallback msgNum (date env)]
          else []) ++
        (if t.attributes &&& ENVELOPE ≠ 0 then [.messageEnvelopeCallback msgNum env] else [])

def processXover (t : Xover E D) (msg : Text) : Option (Xover E D) :=
  if msg = str "." then nextRange index t
  else
    some { t with events := t.events ++ overview newEnvelope genericBuildEnvelope date t msg }

/-- A line of the server; behind the end of the task it is for another one. -/
def processGroup (t : Xover E D) (msg : Text) : Option (Xover E D) :=
  if t.result.isSome then some t
  else
    match t.response_func with
    | .processXoverStatus => some (processXoverStatus t msg)
    | .processXover => processXover index newEnvelope genericBuildEnvelope date t msg

def run (asked : Index) (messages : List Nat) (attributes : UInt8) (lines : List Text) :
    Option (Xover E D) :=
  (selectedGroup index (xoverTask asked messages attributes)).bind fun t =>
    lines.foldlM (processGroup index newEnvelope genericBuildEnvelope date) t

end Task

section Fix
variable {index : Index} {n : Nat}

def Ascending (index : Index) : Prop := index.Pairwise (· < ·)

instance (index : Index) : Decidable (Ascending index) :=
  inferInstanceAs (Decidable (index.Pairwise (· < ·)))

theorem Ascending.lt_of (hasc : Ascending index) {i j a b : Nat} (hi : index[i]? = some a)
    (hj : index[j]? = some b) (hij : i < j) : a < b := by
  obtain ⟨hilen, rfl⟩ := List.getElem?_eq_some_iff.1 hi
  obtain ⟨hjlen, rfl⟩ := List.getElem?_eq_some_iff.1 hj
  exact List.pairwise_iff_getElem.1 hasc i j hilen hjlen hij

theorem Ascending.position (hasc : Ascending index) {i j a b : Nat} (hi : index[i]? = some a)
    (hj : index[j]? = some b) (hab : a < b) : i < j := by
  rcases Nat.lt_trichotomy i j with hlt | rfl | hgt
  · exact hlt
  · rw [hi] at hj
    exact absurd (Option.some.inj hj) (Nat.ne_of_lt hab)
  · exact absurd (hasc.lt_of hj hi hgt) (Nat.lt_asymm hab)

theorem Ascending.next (hasc : Ascending index) {i j a : Nat} (hi : index[i]? = some a)
    (hj : index[j]? = some (a + 1)) : j = i + 1 := by
  have hlt : i < j := hasc.position hi hj (Nat.lt_succ_self a)
  rcases Nat.lt_or_eq_of_le hlt with hbetween | heq
  · obtain ⟨hlen, -⟩ := List.getElem?_eq_some_iff.1 hj
    have hm := List.getElem?_eq_getElem (Nat.lt_trans hbetween hlen)
    have hleft := hasc.lt_of hi hm (Nat.lt_succ_self i)
    have hright := hasc.lt_of hm hj hbetween
    omega
  · exact heq.symm

theorem up_spec (hasc : Ascending index) {p : Nat} (hp : index[p]? = some n) (left msgNum : Nat)
    (hcnt : msgNum + left = index.length) (hleft : 0 < left) :
    ∃ m, up index n left msgNum = (true, m) ∧ p ≤ m ∧ m < index.length := by
  induction left generalizing msgNum with
  | zero => omega
  | succ left ih =>
      have hm := List.getElem?_eq_getElem (l := index) (i := msgNum) (by omega)
      rw [up, hm, Option.any_some]
      by_cases hgt : n > index[msgNum]
      · have hlt : msgNum < p := hasc.position hm hp hgt
        obtain ⟨hlen, -⟩ := List.getElem?_eq_some_iff.1 hp
        rw [if_pos (decide_eq_true hgt)]
        exact ih (msgNum + 1) (by omega) (by omega)
      · rw [if_neg (by simpa using hgt)]
        refine ⟨msgNum, rfl, ?_, by omega⟩
        by_contra hlt
        exact hgt (hasc.lt_of hm hp (Nat.lt_of_not_le hlt))

theorem down_spec (hasc : Ascending index) {p : Nat} (hp : index[p]? = some n) (msgNum : Nat)
    (hle : p ≤ msgNum) (hlen : msgNum < index.length) : down index n msgNum = p := by
  induction msgNum with
  | zero => exact (Nat.le_zero.1 hle).symm
  | succ msgNum ih =>
      have hm := List.getElem?_eq_getElem hlen
      rw [down, hm, Option.any_some]
      by_cases hgt : n < index[msgNum + 1]
      · have hlt : p < msgNum + 1 := hasc.position hp hm hgt
        rw [if_pos (decide_eq_true hgt)]
        exact ih (Nat.le_of_lt_succ hlt) (Nat.lt_of_succ_lt hlen)
      · rw [if_neg (by simpa using hgt)]
        by_contra hne
        exact hgt (hasc.lt_of hp hm (Nat.lt_of_le_of_ne hle (Ne.symm hne)))

/-- Wherever it starts, a number is found exactly when it is in the index, and where it is. -/
theorem fix_spec (hasc : Ascending index) (hn : n < MSGNUM) (msgNum : Nat) :
    ∃ m, fix index (msgNum, decimal n) = (decide (n ∈ index), (m, decimal n)) ∧
      (n ∈ index → index[m]? = some n) := by
  have hread : readSize (decimal n) = some (n, []) := by
    have h := @readSize_decimal n hn [] nofun
    rwa [List.append_nil] at h
  simp only [fix, fixGenericMessageNumber, hread]
  by_cases hnil : index.length = 0
  · obtain rfl := List.length_eq_zero_iff.1 hnil
    exact ⟨0, by simp, nofun⟩
  · rw [if_neg fun h => hnil h.2]
    generalize hstart : (if index.length ≤ msgNum then index.length - 1 else msgNum) = start
    have hlt : start < index.length := by
      rw [← hstart]
      split <;> omega
    by_cases hmem : n ∈ index
    · obtain ⟨p, hp⟩ := List.mem_iff_getElem?.1 hmem
      obtain ⟨m, hup, hle, hlen⟩ :=
        up_spec hasc hp (index.length - start) start (by omega) (by omega)
      have hdown := down_spec hasc hp m hle hlen
      exact ⟨p, by simp [hup, hdown, hp, hmem], fun _ => hp⟩
    · have hne (m : Nat) : index[m]? ≠ some n := fun h => hmem (List.mem_of_getElem? h)
      rcases up index n (index.length - start) start with ⟨found, m⟩
      cases found with
      | false => exact ⟨m, by simp [hmem], fun h => absurd h hmem⟩
      | true => exact ⟨down index n m, by simp [hmem, hne], fun h => absurd h hmem⟩

end Fix

section Ranges
variable {index : Index} {ns : List Nat} {us : List MsgUid}

abbrev Uids (ns : List Nat) (us : List MsgUid) : Prop :=
  List.Forall₂ (fun n (u : MsgUid) => u.2 = decimal n) ns us

theorem exists_of_uids (h : Uids ns us) {u : MsgUid} (mem : u ∈ us) :
    ∃ n ∈ ns, u.2 = decimal n := by
  induction h with
  | nil => exact absurd mem List.not_mem_nil
  | @cons n v ns us hv _ ih =>
      rcases List.mem_cons.1 mem with rfl | mem
      · exact ⟨n, List.mem_cons_self, hv⟩
      · obtain ⟨k, hk, hu⟩ := ih mem
        exact ⟨k, List.mem_cons_of_mem n hk, hu⟩

/-- The numbers of the messages asked for, in their order. -/
theorem uidsOf_spec (hasc : Ascending index) (cpy : List Nat) (hsorted : cpy.Pairwise (· ≤ ·)) :
    ∃ ns, Uids ns (uidsOf index cpy) ∧ ns.Pairwise (· < ·) ∧
      ∀ n, n ∈ ns ↔ ∃ b ∈ cpy, index[b]? = some n := by
  induction cpy with
  | nil => exact ⟨[], List.Forall₂.nil, List.Pairwise.nil, by simp⟩
  | cons b cpy ih =>
      obtain ⟨hfirst, hrest⟩ := List.pairwise_cons.1 hsorted
      obtain ⟨ns, huids, hup, hmem⟩ := ih hrest
      rw [uidsOf]
      by_cases hlast : cpy.head? ≠ some b
      · have hlt : ∀ c ∈ cpy, b < c := by
          intro c mem
          cases cpy with
          | nil => exact absurd mem List.not_mem_nil
          | cons d cpy =>
              have hbd : b < d := by
                have hle := hfirst d List.mem_cons_self
                have hne : d ≠ b := fun heq => hlast (congrArg some heq)
                omega
              rcases List.mem_cons.1 mem with rfl | mem
              · exact hbd
              · exact Nat.lt_of_lt_of_le hbd ((List.pairwise_cons.1 hrest).1 c mem)
        rw [if_pos hlast]
        cases hb : index[b]? with
        | none =>
            refine ⟨[], List.Forall₂.nil, List.Pairwise.nil, fun n => ?_⟩
            refine ⟨fun mem => absurd mem List.not_mem_nil, fun ⟨c, mem, hc⟩ => ?_⟩
            have hend := List.getElem?_eq_none_iff.1 hb
            have hle := hfirst
            rcases List.mem_cons.1 mem with rfl | mem
            · rw [hb] at hc
              cases hc
            · obtain ⟨hlen, -⟩ := List.getElem?_eq_some_iff.1 hc
              have := hlt c mem
              omega
        | some m =>
            refine ⟨m :: ns, List.Forall₂.cons rfl huids, ?_, fun n => ?_⟩
            · refine List.pairwise_cons.2 ⟨fun n mem => ?_, hup⟩
              obtain ⟨c, hc, hn⟩ := (hmem n).1 mem
              exact hasc.lt_of hb hn (hlt c hc)
            · simp [hmem, hb, eq_comm]
      · rw [if_neg hlast]
        refine ⟨ns, huids, hup, fun n => ?_⟩
        have hin : b ∈ cpy := List.mem_of_head? (not_not.1 hlast)
        rw [hmem]
        constructor
        · rintro ⟨c, mem, hc⟩
          exact ⟨c, List.mem_cons_of_mem b mem, hc⟩
        · rintro ⟨c, mem, hc⟩
          rcases List.mem_cons.1 mem with rfl | mem
          · exact ⟨c, hin, hc⟩
          · exact ⟨c, mem, hc⟩

theorem length_uidsOf (cpy : List Nat) : (uidsOf index cpy).length ≤ cpy.length := by
  induction cpy with
  | nil => exact Nat.le_refl 0
  | cons b cpy ih =>
      rw [uidsOf]
      split
      · split
        · exact Nat.zero_le _
        · exact Nat.succ_le_succ ih
      · exact Nat.le_succ_of_le ih

theorem skipMissing_spec (hasc : Ascending index) (hsmall : ∀ n ∈ ns, n < MSGNUM)
    (huids : Uids ns us) :
    ∃ missing rest, ns = missing ++ rest ∧ Uids missing (skipMissing index us).1 ∧
      (∀ n ∈ missing, n ∉ index) ∧ Uids rest (skipMissing index us).2 ∧
      ∀ u ∈ (skipMissing index us).2.head?, index[u.1]? = rest.head? := by
  induction huids with
  | nil => exact ⟨[], [], rfl, List.Forall₂.nil, nofun, List.Forall₂.nil, nofun⟩
  | @cons n u ns us hu huids ih =>
      obtain ⟨pos, uid⟩ := u
      obtain rfl : uid = decimal n := hu
      obtain ⟨m, hfix, hfound⟩ := fix_spec hasc (hsmall n List.mem_cons_self) pos
      rw [skipMissing, hfix]
      by_cases hmem : n ∈ index
      · simp only [decide_eq_true hmem]
        refine ⟨[], n :: ns, rfl, List.Forall₂.nil, nofun, List.Forall₂.cons rfl huids, ?_⟩
        intro u hu
        obtain rfl := Option.some.inj hu
        exact hfound hmem
      · obtain ⟨missing, rest, rfl, hmissing, hnot, hrest, hhead⟩ :=
          ih fun k mem => hsmall k (List.mem_cons_of_mem n mem)
        simp only [decide_eq_false hmem]
        refine ⟨n :: missing, rest, rfl, List.Forall₂.cons rfl hmissing, ?_, hrest, hhead⟩
        intro k mem
        rcases List.mem_cons.1 mem with rfl | mem
        · exact hmem
        · exact hnot k mem

/-- The messages behind the one with number `a` whose numbers and positions run in step. -/
theorem grow_spec (hasc : Ascending index) (hsmall : ∀ n ∈ ns, n < MSGNUM) (huids : Uids ns us)
    {last a : Nat} (hlast : index[last]? = some a) (hup : (a :: ns).Pairwise (· < ·)) :
    ∃ k rest, ns = List.range' (a + 1) k ++ rest ∧
      Uids (List.range' (a + 1) k) (grow index last us).1 ∧ Uids rest (grow index last us).2 ∧
      (∀ i ≤ k, index[last + i]? = some (a + i)) ∧
      ∀ u : MsgUid, u.2 = decimal a → ((grow index last us).1.getLastD u).2 = decimal (a + k) := by
  induction huids generalizing last a with
  | nil =>
      refine ⟨0, [], rfl, List.Forall₂.nil, List.Forall₂.nil, fun i hi => ?_, fun u hu => hu⟩
      rw [Nat.le_zero.1 hi]
      exact hlast
  | @cons n u ns us hu huids ih =>
      obtain ⟨pos, uid⟩ := u
      obtain rfl : uid = decimal n := hu
      have hn := hsmall n List.mem_cons_self
      obtain ⟨m, hfix, hfound⟩ := fix_spec hasc hn pos
      obtain ⟨hlt, hup⟩ := List.pairwise_cons.1 hup
      have han := hlt n List.mem_cons_self
      rw [grow, hfix]
      by_cases hnext : n ∈ index ∧ n = a + 1
      · obtain ⟨hmem, rfl⟩ := hnext
        have hm := hfound hmem
        obtain rfl := hasc.next hlast hm
        obtain ⟨k, rest, rfl, hrange, hrest, hstep, hend⟩ :=
          ih (fun k mem => hsmall k (List.mem_cons_of_mem _ mem)) hm hup
        have hcond : (index[last]?.map fun msgNum => (msgNum + 1) % MSGNUM) = index[last + 1]? := by
          rw [hlast, hm, Option.map_some, Nat.mod_eq_of_lt hn]
        simp only [decide_eq_true hmem, hcond, and_self, if_true]
        refine ⟨k + 1, rest, rfl, List.Forall₂.cons rfl hrange, hrest, ?_, ?_⟩
        · intro i hi
          cases i with
          | zero => exact hlast
          | succ i =>
              have := hstep i (Nat.le_of_succ_le_succ hi)
              rwa [Nat.add_right_comm, Nat.add_right_comm a] at this
        · intro u hu
          have := hend (last + 1, decimal (a + 1)) rfl
          rw [List.getLastD_cons, this, Nat.add_right_comm, Nat.add_assoc]
      · have hcond : ¬ (decide (n ∈ index) = true ∧
            (index[last]?.map fun msgNum => (msgNum + 1) % MSGNUM) = index[m]?) := by
          rintro ⟨hmem, heq⟩
          have hmem := of_decide_eq_true hmem
          have hmod : (a + 1) % MSGNUM = n := by
            rw [hlast, hfound hmem, Option.map_some] at heq
            exact Option.some.inj heq
          rw [Nat.mod_eq_of_lt (Nat.lt_of_le_of_lt han hn)] at hmod
          exact hnext ⟨hmem, hmod.symm⟩
        simp only [if_neg hcond]
        refine ⟨0, n :: ns, rfl, List.Forall₂.nil, List.Forall₂.cons rfl huids, ?_, fun u hu => hu⟩
        intro i hi
        rw [Nat.le_zero.1 hi]
        exact hlast

end Ranges

section Runs
variable {E D : Type} {index : Index} {wanted : List Nat} {t : Xover E D}

/-- What was asked for: the numbers up to `nextUid` that are in the index. -/
structure Asked (index : Index) (wanted : List Nat) (t : Xover E D) (ranges : List Range)
    (sofar todo : List Nat) : Prop where
  wanted : wanted = sofar ++ todo
  before : Uids sofar t.before
  pending : Uids todo t.pending
  commands : t.commands = ranges.map fun r => command (decimal r.1) (decimal r.2)
  members : ranges.flatMap members = sofar.filter (· ∈ index)

/-- The numbers of the range that is being read, with their positions. -/
def Located (index : Index) (wanted : List Nat) (t : Xover E D) : Prop :=
  ∀ n, t.firstMsgNum ≤ n → n ≤ t.lastMsgNum →
    index[n - t.firstMsgNum + t.prevUid.1]? = some n ∧ n ∈ wanted

def Handed (index : Index) (wanted : List Nat) (t : Xover E D) : Prop :=
  ∀ call ∈ t.genericAttributes, ∀ m ∈ call.1, ∃ n ∈ wanted, index[m]? = some n

inductive Next (index : Index) (wanted : List Nat) (t t' : Xover E D) (todo todo' : List Nat) : Prop
  | finished (result : t'.result = some true) (all : todo' = []) (handed : Handed index wanted t')
  | asks (result : t'.result = t.result) (response : t'.response_func = .processXoverStatus)
      (generic : t'.genericAttributes = t.genericAttributes) (located : Located index wanted t')
      (less : todo'.length < todo.length)

theorem finish_handed (hasc : Ascending index) (hsmall : ∀ n ∈ wanted, n < MSGNUM)
    (huids : Uids wanted (t.before ++ t.pending)) : Handed index wanted (finish index t) := by
  intro call hcall m hm
  rw [finish] at hcall
  simp only at hcall
  split at hcall
  · obtain rfl := Option.some.inj hcall
    obtain ⟨r, hr, hpos⟩ := List.mem_filterMap.1 hm
    obtain ⟨u, hu, rfl⟩ := List.mem_map.1 hr
    obtain ⟨n, hn, huid⟩ := exists_of_uids huids hu
    obtain ⟨pos, uid⟩ := u
    obtain rfl : uid = decimal n := huid
    obtain ⟨p, hfix, hfound⟩ := fix_spec hasc (hsmall n hn) pos
    rw [hfix] at hpos
    split at hpos
    · obtain rfl := Option.some.inj hpos
      rename_i hmem
      exact ⟨n, hn, hfound (of_decide_eq_true hmem)⟩
    · cases hpos
  · cases hcall

theorem nextRange_spec (hasc : Ascending index) (hsmall : ∀ n ∈ wanted, n < MSGNUM)
    (hup : wanted.Pairwise (· < ·)) {ranges : List Range} {sofar todo : List Nat}
    (h : Asked index wanted t ranges sofar todo) :
    ∃ t' ranges' sofar' todo', nextRange index t = some t' ∧
      Asked index wanted t' ranges' sofar' todo' ∧ t'.events = t.events ∧
      Next index wanted t t' todo todo' := by
  obtain ⟨hwanted, hbefore, hpending, hcommands, hmembers⟩ := h
  have htodo : ∀ n ∈ todo, n < MSGNUM := fun n mem =>
    hsmall n (hwanted ▸ List.mem_append_right sofar mem)
  obtain ⟨missing, rest, rfl, hmissing, hnot, hrest, hhead⟩ :=
    skipMissing_spec hasc htodo hpending
  have hfilter : missing.filter (· ∈ index) = [] := by
    simpa using hnot
  rw [nextRange, doNextXoverRange]
  rcases hskip : skipMissing index t.pending with ⟨skipped, rest'⟩
  rw [hskip] at hmissing hrest hhead
  simp only at hmissing hrest hhead
  cases hrest with
  | nil =>
      have hall : Uids wanted (t.before ++ skipped ++ []) := by
        rw [hwanted, List.append_nil, List.append_nil]
        exact List.rel_append hbefore hmissing
      refine ⟨_, ranges, sofar ++ missing, [], rfl, ⟨?_, ?_, List.Forall₂.nil, hcommands, ?_⟩, rfl,
        .finished rfl rfl (finish_handed hasc hsmall hall)⟩
      · rw [hwanted, List.append_nil]
        exact (List.append_nil _).symm
      · exact List.rel_append hbefore hmissing
      · rw [List.filter_append, hfilter, List.append_nil, hmembers]
  | @cons a prevUid ns us hu hus =>
      have hlast : index[prevUid.1]? = some a := hhead prevUid rfl
      have hup' : (a :: ns).Pairwise (· < ·) := by
        rw [hwanted] at hup
        exact (hup.sublist (List.sublist_append_right _ _)).sublist (List.sublist_append_right _ _)
      have ha : a < MSGNUM := htodo a (List.mem_append_right _ List.mem_cons_self)
      have hns : ∀ n ∈ ns, n < MSGNUM := fun n mem =>
        htodo n (List.mem_append_right _ (List.mem_cons_of_mem a mem))
      obtain ⟨k, rest, rfl, hrange, hrest, hstep, hend⟩ := grow_spec hasc hns hus hlast hup'
      rcases hgrow : grow index prevUid.1 us with ⟨range, rest'⟩
      rw [hgrow] at hrange hrest hend
      simp only at hrange hrest hend
      have hread {n : Nat} (hn : n < MSGNUM) : readSize (decimal n) = some (n, []) := by
        have hread := @readSize_decimal n hn [] nofun
        rwa [List.append_nil] at hread
      have hk : a + k < MSGNUM := by
        cases k with
        | zero => exact ha
        | succ k =>
            refine hns (a + (k + 1)) (List.mem_append_left _ ?_)
            rw [List.mem_range'_1]
            omega
      simp only [hgrow, hend prevUid hu, hu, hread ha, hread hk]
      have hmem : a :: List.range' (a + 1) k = List.range' a (k + 1) := List.range'_succ.symm
      refine ⟨_, ranges ++ [(a, a + k)], sofar ++ missing ++ List.range' a (k + 1), rest, rfl,
        ⟨?_, ?_, hrest, ?_, ?_⟩, rfl, .asks rfl rfl rfl ?_ ?_⟩
      · rw [hwanted, ← hmem]
        simp
      · rw [← hmem]
        exact List.rel_append (List.rel_append hbefore hmissing) (List.Forall₂.cons hu hrange)
      · rw [List.map_append, hcommands]
        rfl
      · have hin : (List.range' a (k + 1)).filter (· ∈ index) = List.range' a (k + 1) := by
          refine List.filter_eq_self.2 fun n mem => decide_eq_true ?_
          obtain ⟨hle, hlt⟩ := List.mem_range'_1.1 mem
          have := hstep (n - a) (by omega)
          rw [Nat.add_sub_cancel' hle] at this
          exact List.mem_of_getElem? this
        rw [List.flatMap_append, hmembers, List.filter_append, List.filter_append, hfilter, hin,
          List.append_nil, List.flatMap_singleton, members, if_pos (Nat.le_add_right a k)]
        rw [show a + k + 1 - a = k + 1 by omega]
      · intro n hfirst hlast
        have hn := hstep (n - a) (Nat.sub_le_iff_le_add'.2 hlast)
        rw [Nat.add_sub_cancel' hfirst, Nat.add_comm] at hn
        refine ⟨hn, ?_⟩
        rw [hwanted, ← List.cons_append, hmem]
        refine List.mem_append_right _ (List.mem_append_right _ (List.mem_append_left _ ?_))
        exact List.mem_range'_1.2 ⟨hfirst, Nat.lt_succ_of_le hlast⟩
      · simp only [List.length_append, List.length_cons, List.length_range']
        omega

/-- The task between two lines of the server. -/
structure Inv (index : Index) (wanted : List Nat) (t : Xover E D) (ranges : List Range)
    (sofar todo : List Nat) : Prop where
  asked : Asked index wanted t ranges sofar todo
  located : t.result = none → Located index wanted t
  handed : Handed index wanted t
  complete : t.result = some true → todo = []

theorem inv_of_next {t' : Xover E D} {ranges : List Range} {sofar' todo todo' : List Nat}
    (hasked : Asked index wanted t' ranges sofar' todo') (hresult : t.result = none)
    (hhanded : Handed index wanted t) (h : Next index wanted t t' todo todo') :
    Inv index wanted t' ranges sofar' todo' := by
  cases h with
  | finished result all handed =>
      exact ⟨hasked, fun h => (Option.some_ne_none true (result ▸ h)).elim, handed, fun _ => all⟩
  | asks result response generic located less =>
      refine ⟨hasked, fun _ => located, ?_, fun h => ?_⟩
      · rwa [Handed, generic]
      · rw [result, hresult] at h
        cases h

variable (newEnvelope : E) (genericBuildEnvelope : Text → Text → E → E) (date : E → D)

theorem overview_located (hlocated : Located index wanted t) {msg : Text} :
    ∀ e ∈ overview newEnvelope genericBuildEnvelope date t msg,
      ∃ n ∈ wanted, articleNumber msg = some n ∧ index[e.msgNum]? = some n := by
  intro e he
  rw [overview] at he
  simp only at he
  rcases hread : readSize ((msg.splitOn TAB).getD 0 []) with _ | ⟨n, rest⟩
  · rw [hread] at he
    exact absurd he List.not_mem_nil
  · rw [hread] at he
    simp only at he
    split at he
    · exact absurd he List.not_mem_nil
    · rename_i hin
      obtain ⟨hfirst, hlast⟩ := not_or.1 hin
      obtain ⟨hpos, hmem⟩ := hlocated n (Nat.le_of_not_lt hfirst) (Nat.le_of_not_lt hlast)
      have hnum : e.msgNum = n - t.firstMsgNum + t.prevUid.1 := by
        simp only [List.mem_append] at he
        rcases he with (he | he) | he <;>
          (split at he
           · rw [List.mem_singleton.1 he]
             rfl
           · exact absurd he List.not_mem_nil)
      exact ⟨n, hmem, by rw [articleNumber, hread]; rfl, hnum ▸ hpos⟩

/-- A line of the server. -/
theorem processGroup_spec (hasc : Ascending index) (hsmall : ∀ n ∈ wanted, n < MSGNUM)
    (hup : wanted.Pairwise (· < ·)) {ranges : List Range} {sofar todo : List Nat}
    (h : Inv index wanted t ranges sofar todo) (msg : Text) :
    ∃ t' ranges' sofar' todo' new,
      processGroup index newEnvelope genericBuildEnvelope date t msg = some t' ∧
      Inv index wanted t' ranges' sofar' todo' ∧ t'.events = t.events ++ new ∧
      ∀ e ∈ new, ∃ n ∈ wanted, articleNumber msg = some n ∧ index[e.msgNum]? = some n := by
  rw [processGroup]
  by_cases hdone : t.result.isSome = true
  · rw [if_pos hdone]
    exact ⟨t, ranges, sofar, todo, [], rfl, h, (List.append_nil _).symm, nofun⟩
  · have hresult : t.result = none := Option.not_isSome_iff_eq_none.1 hdone
    rw [if_neg hdone]
    obtain ⟨hasked, hlocated, hhanded, hcomplete⟩ := h
    cases t.response_func with
    | processXoverStatus =>
        refine ⟨_, ranges, sofar, todo, [], rfl, ?_, ?_, nofun⟩
        · rw [processXoverStatus]
          split
          · exact ⟨⟨hasked.wanted, hasked.before, hasked.pending, hasked.commands, hasked.members⟩,
              nofun, hhanded, nofun⟩
          · exact ⟨⟨hasked.wanted, hasked.before, hasked.pending, hasked.commands, hasked.members⟩,
              hlocated, hhanded, hcomplete⟩
        · rw [processXoverStatus, List.append_nil]
          split <;> rfl
    | processXover =>
        simp only [processXover]
        by_cases hdot : msg = str "."
        · obtain ⟨t', ranges', sofar', todo', hnext, hasked', hevents, hstep⟩ :=
            nextRange_spec hasc hsmall hup hasked
          rw [if_pos hdot]
          exact ⟨t', ranges', sofar', todo', [], hnext, inv_of_next hasked' hresult hhanded hstep,
            hevents.trans (List.append_nil _).symm, nofun⟩
        · rw [if_neg hdot]
          exact ⟨_, ranges, sofar, todo, _, rfl,
            ⟨⟨hasked.wanted, hasked.before, hasked.pending, hasked.commands, hasked.members⟩,
              hlocated, hhanded, hcomplete⟩, rfl, overview_located _ _ _ (hlocated hresult)⟩

def Requested (asked : Index) (messages : List Nat) (n : Nat) : Prop :=
  ∃ b ∈ messages, asked[b]? = some n

theorem start_spec (hasc : Ascending index) {asked : Index} (hasked : Ascending asked)
    (hsmall : ∀ n ∈ asked, n < MSGNUM) (messages : List Nat) (attributes : UInt8) :
    ∃ (wanted : List Nat) (t : Xover E D) (ranges : List Range) (sofar todo : List Nat),
      selectedGroup index (xoverTask asked messages attributes) = some t ∧
      Inv index wanted t ranges sofar todo ∧ t.events = [] ∧
      (∀ n ∈ wanted, n < MSGNUM) ∧ wanted.Pairwise (· < ·) ∧
      (∀ n, n ∈ wanted ↔ Requested asked messages n) ∧
      (t.result = some true ∨ t.result = none ∧ t.response_func = .processXoverStatus ∧
        todo.length < messages.length) := by
  have hsorted : (messages.mergeSort (· ≤ ·)).Pairwise (· ≤ ·) :=
    (List.pairwise_mergeSort (by simpa using fun a b c => Nat.le_trans)
      (by simpa using Nat.le_total) messages).imp (by simp)
  obtain ⟨wanted, huids, hup, hmem⟩ := uidsOf_spec hasked _ hsorted
  have hrequested (n : Nat) : n ∈ wanted ↔ Requested asked messages n := by
    rw [hmem]
    simp only [List.mem_mergeSort, Requested]
  have hsmall' : ∀ n ∈ wanted, n < MSGNUM := by
    intro n mem
    obtain ⟨b, -, hb⟩ := (hrequested n).1 mem
    exact hsmall n (List.mem_of_getElem? hb)
  have hstart : Asked index wanted (xoverTask asked messages attributes : Xover E D) [] [] wanted :=
    ⟨rfl, List.Forall₂.nil, huids, rfl, rfl⟩
  obtain ⟨t, ranges, sofar, todo, hnext, hasked', hevents, hstep⟩ :=
    nextRange_spec hasc hsmall' hup hstart
  have hhanded : Handed index wanted (xoverTask asked messages attributes : Xover E D) := by
    intro call hcall
    cases hcall
  refine ⟨wanted, t, ranges, sofar, todo, hnext, inv_of_next hasked' rfl hhanded hstep, hevents,
    hsmall', hup, hrequested, ?_⟩
  cases hstep with
  | finished result all handed => exact Or.inl result
  | asks result response generic located less =>
      have hlen := @length_uidsOf asked (messages.mergeSort (· ≤ ·))
      rw [List.length_mergeSort, ← huids.length_eq] at hlen
      exact Or.inr ⟨result, response, Nat.lt_of_lt_of_le less hlen⟩

theorem lines_spec (hasc : Ascending index) (hsmall : ∀ n ∈ wanted, n < MSGNUM)
    (hup : wanted.Pairwise (· < ·)) {ranges : List Range} {sofar todo : List Nat}
    (h : Inv index wanted t ranges sofar todo) (lines : List Text) :
    ∃ t' ranges' sofar' todo',
      lines.foldlM (processGroup index newEnvelope genericBuildEnvelope date) t = some t' ∧
      Inv index wanted t' ranges' sofar' todo' := by
  induction lines generalizing t ranges sofar todo with
  | nil => exact ⟨t, ranges, sofar, todo, rfl, h⟩
  | cons msg lines ih =>
      obtain ⟨t', ranges', sofar', todo', -, hstep, hinv, -, -⟩ :=
        processGroup_spec newEnvelope genericBuildEnvelope date hasc hsmall hup h msg
      obtain ⟨t'', ranges'', sofar'', todo'', hrun, hinv'⟩ := ih hinv
      exact ⟨t'', ranges'', sofar'', todo'', by rw [List.foldlM_cons, hstep]; exact hrun, hinv'⟩

/-! ## A server that refuses nothing -/

def replyLines (reply : Text × List Text) : List Text := reply.1 :: (reply.2 ++ [str "."])

def Answers (reply : Text × List Text) : Prop :=
  reply.1.head? = some (byte '2') ∧ str "." ∉ reply.2

theorem lines_done (hdone : t.result.isSome = true) (lines : List Text) :
    lines.foldlM (processGroup index newEnvelope genericBuildEnvelope date) t = some t := by
  induction lines with
  | nil => rfl
  | cons msg lines ih =>
      rw [List.foldlM_cons, processGroup, if_pos hdone]
      exact ih

theorem lines_read (hresult : t.result = none) (hfunc : t.response_func = .processXover)
    (lines : List Text) (hdot : str "." ∉ lines) :
    ∃ events, lines.foldlM (processGroup index newEnvelope genericBuildEnvelope date) t =
      some { t with events } := by
  induction lines generalizing t with
  | nil => exact ⟨t.events, rfl⟩
  | cons msg lines ih =>
      obtain ⟨hmsg, hlines⟩ := not_or.1 (mt List.mem_cons.2 hdot)
      obtain ⟨events, hrun⟩ :=
        @ih { t with events := t.events ++ overview newEnvelope genericBuildEnvelope date t msg }
          hresult hfunc hlines
      have hstep : processGroup index newEnvelope genericBuildEnvelope date t msg =
          some { t with
            events := t.events ++ overview newEnvelope genericBuildEnvelope date t msg } := by
        have hread : processGroup index newEnvelope genericBuildEnvelope date t msg =
            processXover index newEnvelope genericBuildEnvelope date t msg := by
          rw [processGroup, if_neg (by simp [hresult]), hfunc]
        rw [hread, processXover, if_neg (Ne.symm hmsg)]
      exact ⟨events, by rw [List.foldlM_cons, hstep]; exact hrun⟩

theorem reply_spec (hasc : Ascending index) (hsmall : ∀ n ∈ wanted, n < MSGNUM)
    (hup : wanted.Pairwise (· < ·)) {ranges : List Range} {sofar todo : List Nat}
    (h : Inv index wanted t ranges sofar todo) (hresult : t.result = none)
    (hfunc : t.response_func = .processXoverStatus) {reply : Text × List Text}
    (hreply : Answers reply) :
    ∃ t' ranges' sofar' todo',
      (replyLines reply).foldlM (processGroup index newEnvelope genericBuildEnvelope date) t =
        some t' ∧
      Inv index wanted t' ranges' sofar' todo' ∧
      (t'.result = some true ∨ t'.result = none ∧ t'.response_func = .processXoverStatus ∧
        todo'.length < todo.length) := by
  obtain ⟨events, hlines⟩ :=
    @lines_read E D index { t with response_func := .processXover } newEnvelope
      genericBuildEnvelope date hresult rfl reply.2 hreply.2
  have hasked : Asked index wanted { t with response_func := .processXover, events } ranges sofar
      todo := ⟨h.asked.wanted, h.asked.before, h.asked.pending, h.asked.commands, h.asked.members⟩
  obtain ⟨t', ranges', sofar', todo', hnext, hasked', -, hstep⟩ :=
    nextRange_spec hasc hsmall hup hasked
  have hinv := inv_of_next (t := { t with response_func := .processXover, events }) hasked' hresult
    h.handed hstep
  refine ⟨t', ranges', sofar', todo', ?_, hinv, ?_⟩
  · have hstatus : processGroup index newEnvelope genericBuildEnvelope date t reply.1 =
        some { t with response_func := .processXover } := by
      rw [processGroup, if_neg (by simp [hresult]), hfunc]
      simp only [processXoverStatus, hreply.1, ne_eq, not_true_eq_false, if_false]
    have hlast : processGroup index newEnvelope genericBuildEnvelope date
        { t with response_func := .processXover, events } (str ".") = some t' := by
      rw [processGroup, if_neg (by simp [hresult])]
      simp only [processXover, if_true]
      exact hnext
    rw [replyLines, List.foldlM_cons, hstatus, Option.bind_eq_bind, Option.bind_some,
      List.foldlM_append, hlines, Option.bind_eq_bind, Option.bind_some, List.foldlM_cons, hlast]
    rfl
  · cases hstep with
    | finished result all handed => exact Or.inl result
    | asks result response generic located less =>
        exact Or.inr ⟨result.trans hresult, response, less⟩

theorem replies_spec (hasc : Ascending index) (hsmall : ∀ n ∈ wanted, n < MSGNUM)
    (hup : wanted.Pairwise (· < ·)) {ranges : List Range} {sofar todo : List Nat}
    (h : Inv index wanted t ranges sofar todo) (hresult : t.result = none)
    (hfunc : t.response_func = .processXoverStatus) (replies : List (Text × List Text))
    (hreplies : ∀ reply ∈ replies, Answers reply) (hmany : todo.length < replies.length) :
    ∃ t', (replies.flatMap replyLines).foldlM
        (processGroup index newEnvelope genericBuildEnvelope date) t = some t' ∧
      t'.result = some true := by
  induction replies generalizing t ranges sofar todo with
  | nil => exact absurd hmany (Nat.not_lt_zero _)
  | cons reply replies ih =>
      obtain ⟨t', ranges', sofar', todo', hreply, hinv, hend⟩ :=
        reply_spec newEnvelope genericBuildEnvelope date hasc hsmall hup h hresult hfunc
          (hreplies reply List.mem_cons_self)
      rw [List.flatMap_cons, List.foldlM_append, hreply, Option.bind_eq_bind, Option.bind_some]
      rcases hend with hend | ⟨hresult', hfunc', hless⟩
      · exact ⟨t', lines_done _ _ _ (by rw [hend]; rfl) _, hend⟩
      · rw [List.length_cons] at hmany
        exact ih hinv hresult' hfunc' (fun r mem => hreplies r (List.mem_cons_of_mem reply mem))
          (by omega)

/-- The calls are for messages that were asked for, at the positions of their article numbers; no
article is in two ranges, and none is left out unless a range was refused. -/
theorem xover_asks_each_once (index asked : Index) (hindex : Ascending index)
    (hasked : Ascending asked) (hsmall : ∀ n ∈ asked, n < MSGNUM) (messages : List Nat)
    (attributes : UInt8) (lines : List Text) :
    ∃ (t : Xover E D) (ranges : List Range),
      run index newEnvelope genericBuildEnvelope date asked messages attributes lines = some t ∧
      t.commands = ranges.map (fun r => command (decimal r.1) (decimal r.2)) ∧
      (ranges.flatMap members).Nodup ∧
      (∀ n ∈ ranges.flatMap members, n ∈ index ∧ Requested asked messages n) ∧
      (t.result = some true →
        ∀ n ∈ index, Requested asked messages n → n ∈ ranges.flatMap members) ∧
      (lines = [] → t.events = []) ∧
      (∀ msg, ∃ (t' : Xover E D) (new : List (Event E D)),
        run index newEnvelope genericBuildEnvelope date asked messages attributes
          (lines ++ [msg]) = some t' ∧
        t'.events = t.events ++ new ∧
        ∀ e ∈ new, ∃ n, articleNumber msg = some n ∧ index[e.msgNum]? = some n ∧
          Requested asked messages n) ∧
      (∀ call ∈ t.genericAttributes, ∀ m ∈ call.1,
        ∃ n, index[m]? = some n ∧ Requested asked messages n) ∧
      ∀ replies : List (Text × List Text), (∀ reply ∈ replies, Answers reply) →
        lines = replies.flatMap replyLines → messages.length ≤ replies.length →
        t.result = some true := by
  obtain ⟨wanted, t₀, ranges₀, sofar₀, todo₀, hstart, hinv₀, hnone, hsmall', hup, hmem, hwait⟩ :=
    @start_spec E D index hindex asked hasked hsmall messages attributes
  obtain ⟨t, ranges, sofar, todo, hrun, hinv⟩ :=
    lines_spec newEnvelope genericBuildEnvelope date hindex hsmall' hup hinv₀ lines
  have hall (lines : List Text) : run index newEnvelope genericBuildEnvelope date asked messages
      attributes lines =
        lines.foldlM (processGroup index newEnvelope genericBuildEnvelope date) t₀ := by
    rw [run, hstart, Option.bind_some]
  have hmembers := hinv.asked.members
  have hwanted := hinv.asked.wanted
  refine ⟨t, ranges, (hall lines).trans hrun, hinv.asked.commands, ?_, ?_, ?_, ?_, ?_, ?_, ?_⟩
  · rw [hmembers]
    have hnodup : wanted.Nodup := hup.imp Nat.ne_of_lt
    rw [hwanted] at hnodup
    exact (List.nodup_append.1 hnodup).1.filter _
  · intro n mem
    rw [hmembers] at mem
    obtain ⟨hn, hin⟩ := List.mem_filter.1 mem
    exact ⟨of_decide_eq_true hin, (hmem n).1 (hwanted ▸ List.mem_append_left todo hn)⟩
  · intro hdone n hn hreq
    rw [hmembers]
    have hw := (hmem n).2 hreq
    rw [hwanted, hinv.complete hdone, List.append_nil] at hw
    exact List.mem_filter.2 ⟨hw, decide_eq_true hn⟩
  · rintro rfl
    obtain rfl := Option.some.inj hrun
    exact hnone
  · intro msg
    obtain ⟨t', -, -, -, new, hstep, -, hevents, hnew⟩ :=
      processGroup_spec newEnvelope genericBuildEnvelope date hindex hsmall' hup hinv msg
    refine ⟨t', new, ?_, hevents, fun e he => ?_⟩
    · rw [hall, List.foldlM_append, hrun, Option.bind_eq_bind, Option.bind_some, List.foldlM_cons,
        hstep]
      rfl
    · obtain ⟨n, hw, hart, hpos⟩ := hnew e he
      exact ⟨n, hart, hpos, (hmem n).1 hw⟩
  · intro call hcall m hm
    obtain ⟨n, hw, hpos⟩ := hinv.handed call hcall m hm
    exact ⟨n, hpos, (hmem n).1 hw⟩
  · rintro replies hreplies rfl hmany
    rcases hwait with hdone | ⟨hresult, hfunc, hless⟩
    · have hsame := @lines_done E D index t₀ newEnvelope genericBuildEnvelope date
        (by rw [hdone]; rfl) (replies.flatMap replyLines)
      obtain rfl := Option.some.inj (hrun.symm.trans hsame)
      exact hdone
    · obtain ⟨t', hrun', hdone⟩ := replies_spec newEnvelope genericBuildEnvelope date hindex
        hsmall' hup hinv₀ hresult hfunc replies hreplies (Nat.lt_of_lt_of_le hless hmany)
      obtain rfl := Option.some.inj (hrun.symm.trans hrun')
      exact hdone

/-- Articles 4, 5 and 9 are asked for in any order, and the replies tell of others too. -/
theorem xover_asks_each_once_sample :
    ∃ (t : Xover Unit Unit) (ranges : List Range),
      run [4, 5, 6, 9] () (fun _ _ e => e) (fun _ => ()) [4, 5, 6, 9] [3, 1, 0, 1] MESSAGESIZE
        ((List.replicate 4 (str "224 ok", [str "5\ta", str "7", str "4"])).flatMap replyLines) =
          some t ∧
      (ranges.flatMap members).Nodup ∧ 9 ∈ ranges.flatMap members := by
  obtain ⟨t, ranges, hrun, -, hnodup, -, hasks, -, -, -, hdone⟩ :=
    xover_asks_each_once () (fun _ _ e => e) (fun _ => ()) [4, 5, 6, 9] [4, 5, 6, 9] (by decide)
      (by decide) (by decide) [3, 1, 0, 1] MESSAGESIZE
      ((List.replicate 4 (str "224 ok", [str "5\ta", str "7", str "4"])).flatMap replyLines)
  have hreplies : ∀ reply ∈ List.replicate 4 (str "224 ok", [str "5\ta", str "7", str "4"]),
      Answers reply := by
    intro reply mem
    rw [(List.mem_replicate.1 mem).2]
    exact ⟨by decide, by decide⟩
  exact ⟨t, ranges, hrun, hnodup, hasks (hdone _ hreplies rfl (by decide)) 9 (by decide)
    ⟨3, by decide, by decide⟩⟩

/-- Behind a range that is refused the others are not asked for. -/
theorem refused_range_ends_task :
    Requested [1, 3] [0, 1] 3 ∧ ∀ lines : List Text,
      (run [1, 3] () (fun _ _ e => e) (fun _ => ()) [1, 3] [0, 1] ENVELOPE
          (str "500 no" :: lines)).map (fun t => (t.commands, t.result)) =
        some ([str "XOVER 1-1\x0d\n"], some false) := by
  refine ⟨⟨1, by decide, by decide⟩, fun lines => ?_⟩
  have hsort : [0, 1].mergeSort (· ≤ ·) = [0, 1] := List.mergeSort_of_pairwise (by decide)
  have hstart : selectedGroup [1, 3] (xoverTask [1, 3] [0, 1] ENVELOPE : Xover Unit Unit) =
      some ⟨ENVELOPE, [(0, str "1")], [(1, str "3")], (0, str "1"), 1, 1, .processXoverStatus,
        [str "XOVER 1-1\x0d\n"], [], none, none⟩ := by
    rw [xoverTask, hsort]
    decide
  rw [run, hstart, Option.bind_some, List.foldlM_cons, processGroup, if_neg (by decide)]
  exact congrArg (Option.map _) (lines_done _ _ _ rfl lines)

end Runs
end Cone.NntpXover
