import Cone.Lib.Istream
import Cone.Lib.SequenceSet

/-! # Commands over a list of messages

`mail::imap::msgSetRange` and `mail::imap::messagecmd` of imap.C: the UIDs of some messages as
ranges, and the commands that name them. -/
set_option autoImplicit false
namespace Cone.ImapMessagecmd

open Cone.Ctype Cone.Lib.Istream Cone.Lib.SequenceSet

def SIZE : Nat := 2 ^ 64

section Ranges

/-- The uids in the index of `currentFolder`, if there is one. -/
abbrev Folder := Option (List Text)

def uidNum (currentFolder : Folder) (j : Nat) : Nat :=
  match currentFolder.bind (·[j]?) with
  | none => 0
  | some uid =>
    match uid.dropWhile (· ≠ byte '/') with
    | [] => 0
    | _ :: uid =>
      let uid := uid.takeWhile (· ≠ NUL)
      match readSize uid with
      | some (n, _) => n
      | none => failedSize uid

variable (currentFolder : Folder)

/-- The first loop of `getNextRange`: the first UID, and the messages behind it. -/
def nextUid : List Nat → Option (Nat × List Nat)
  | [] => none
  | m :: msglist =>
    if uidNum currentFolder m = 0 then nextUid msglist else some (uidNum currentFolder m, msglist)

/-- Its second loop. -/
def extend : Nat → List Nat → Nat × List Nat
  | last, [] => (last, [])
  | last, m :: msglist =>
    if (last + 1) % SIZE = uidNum currentFolder m then extend (uidNum currentFolder m) msglist
    else (last, m :: msglist)

def getNextRange (msglist : List Nat) : Option (Range × List Nat) :=
  match nextUid currentFolder msglist with
  | none => none
  | some (first, msglist) =>
    let (last, msglist) := extend currentFolder first msglist
    some ((first, last), msglist)

def ranges : Nat → List Nat → Option (List Range)
  | 0, _ => none
  | fuel + 1, msglist =>
    match getNextRange currentFolder msglist with
    | none => some []
    | some (r, msglist) => (ranges fuel msglist).map (r :: ·)

end Ranges

section Commands

/-- `mail::imapFetchHandler`; a command is its name and its text. -/
structure FetchHandler where
  name : Text
  commands : List (Text × Text)
  counter : Nat
  messageCntTotal : Nat
  deriving DecidableEq, Repr

inductive Outcome where
  | fail (errmsg : Text)
  | success (msg : Text)
  | installForegroundTask (cmd : FetchHandler)
  deriving DecidableEq, Repr

def Outcome.commands : Outcome → List (Text × Text)
  | .installForegroundTask cmd => cmd.commands
  | _ => []

variable (parameters operation name : Text)

def FetchHandler.push (cmd : FetchHandler) (s : Text) : FetchHandler :=
  { cmd with
    commands := cmd.commands ++ [(name, operation ++ str " " ++ s ++ parameters ++ [CR, NL])]
    counter := cmd.counter + 1 }

def FetchHandler.count (cmd : FetchHandler) (r : Range) : FetchHandler :=
  { cmd with messageCntTotal := (cmd.messageCntTotal + r.2 + 1 + SIZE - r.1) % SIZE }

def addRange (st : FetchHandler × Text) (r : Range) : FetchHandler × Text :=
  let (cmd, s) := st
  let cmd := cmd.count r
  if s.length > 0 then
    if s.length > 100 then (cmd.push parameters operation name s, rangeText r)
    else (cmd, s ++ COMMA :: rangeText r)
  else (cmd, rangeText r)

/-- `messagecmd` with the ranges of a `msgSet`. -/
def messagecmdRanges (socketConnected : Bool) (msgRange : List Range) : Outcome :=
  if !socketConnected then .fail (str "Account connection closed.")
  else
    let (cmd, s) := msgRange.foldl (addRange parameters operation name) (⟨name, [], 0, 0⟩, [])
    if s.length = 0 then .success (str "No messages to process.")
    else .installForegroundTask (cmd.push parameters operation name s)

/-- `messagecmd` with the numbers of messages, which `msgSetRange` sorts. -/
def messagecmd (socketConnected : Bool) (currentFolder : Folder) (messages : List Nat) :
    Option Outcome :=
  (ranges currentFolder (messages.length + 1) (messages.mergeSort (· ≤ ·))).map
    (messagecmdRanges parameters operation name socketConnected)

end Commands

section RangesSpec
variable {currentFolder : Folder} {msglist : List Nat}

theorem digits_lt {neg : Bool} {p rest : Text} {n : Nat} (h : digits neg p = some (n, rest)) :
    n < SIZE := by
  rw [digits] at h
  split at h
  · cases h
  · rename_i hsmall
    obtain ⟨-, hsmall⟩ := not_or.1 hsmall
    cases neg with
    | false =>
        obtain ⟨rfl, -⟩ := Prod.mk.inj (Option.some.inj h)
        exact Nat.lt_of_not_le hsmall
    | true =>
        obtain ⟨rfl, -⟩ := Prod.mk.inj (Option.some.inj h)
        exact Nat.mod_lt _ (Nat.two_pow_pos 64)

theorem readSize_lt {p rest : Text} {n : Nat} (h : readSize p = some (n, rest)) : n < SIZE := by
  rw [readSize] at h
  split at h
  · cases h
  · split at h
    · exact digits_lt h
    · split at h
      · exact digits_lt h
      · exact digits_lt h

theorem failedSize_lt (p : Text) : failedSize p < SIZE := by
  have hboth (c : Prop) [Decidable c] : (if c then 0 else 2 ^ 64 - 1) < SIZE := by
    split
    · exact Nat.two_pow_pos 64
    · exact Nat.sub_lt (Nat.two_pow_pos 64) Nat.one_pos
  exact hboth _

theorem uidNum_lt (currentFolder : Folder) (j : Nat) : uidNum currentFolder j < SIZE := by
  have hpos : 0 < SIZE := Nat.two_pow_pos 64
  rw [uidNum]
  split
  · exact hpos
  · split
    · exact hpos
    · dsimp only
      split
      · exact readSize_lt (by assumption)
      · exact failedSize_lt _

/-- No message without UID stands next behind one with the greatest number. -/
def NoWrap (currentFolder : Folder) (msglist : List Nat) : Prop :=
  ∀ a b, [a, b] <:+: msglist → uidNum currentFolder a = SIZE - 1 → uidNum currentFolder b ≠ 0

theorem NoWrap.tail {m : Nat} (h : NoWrap currentFolder (m :: msglist)) :
    NoWrap currentFolder msglist :=
  fun a b mem => h a b (mem.trans (List.suffix_cons m msglist).isInfix)

def uidsOf (currentFolder : Folder) (msglist : List Nat) : List Nat :=
  (msglist.map (uidNum currentFolder)).filter (· ≠ 0)

theorem nextUid_spec (hwrap : NoWrap currentFolder msglist) :
    match nextUid currentFolder msglist with
    | none => uidsOf currentFolder msglist = []
    | some (first, rest) =>
      uidsOf currentFolder msglist = first :: uidsOf currentFolder rest ∧ first ≠ 0 ∧
        rest.length < msglist.length ∧
        ∃ m, uidNum currentFolder m = first ∧ NoWrap currentFolder (m :: rest) := by
  induction msglist with
  | nil => rfl
  | cons m msglist ih =>
      rw [nextUid]
      by_cases h0 : uidNum currentFolder m = 0
      · have hskip : uidsOf currentFolder (m :: msglist) = uidsOf currentFolder msglist := by
          simp [uidsOf, h0]
        have hrest := ih hwrap.tail
        rw [if_pos h0, hskip]
        cases hnext : nextUid currentFolder msglist with
        | none =>
            rw [hnext] at hrest
            exact hrest
        | some found =>
            rw [hnext] at hrest
            obtain ⟨heq, hne, hlen, hm⟩ := hrest
            exact ⟨heq, hne, Nat.lt_succ_of_lt hlen, hm⟩
      · rw [if_neg h0]
        exact ⟨by simp [uidsOf, h0], h0, Nat.lt_succ_self _, m, rfl, hwrap⟩

theorem extend_spec {last m : Nat} (hm : uidNum currentFolder m = last) (hne : last ≠ 0)
    (hwrap : NoWrap currentFolder (m :: msglist)) :
    last ≤ (extend currentFolder last msglist).1 ∧
      (extend currentFolder last msglist).2.length ≤ msglist.length ∧
      NoWrap currentFolder (extend currentFolder last msglist).2 ∧
      last :: uidsOf currentFolder msglist =
        List.range' last ((extend currentFolder last msglist).1 + 1 - last) ++
          uidsOf currentFolder (extend currentFolder last msglist).2 := by
  induction msglist generalizing last m with
  | nil => simp [extend, NoWrap]
  | cons k msglist ih =>
      rw [extend]
      by_cases hnext : (last + 1) % SIZE = uidNum currentFolder k
      · have hpos : 0 < SIZE := Nat.two_pow_pos 64
        have hlt := uidNum_lt currentFolder m
        have hk : uidNum currentFolder k ≠ 0 ∧ last + 1 = uidNum currentFolder k := by
          by_cases hmax : last = SIZE - 1
          · have h0 : uidNum currentFolder k = 0 := by
              rw [← hnext, hmax]
              rfl
            exact absurd h0 (hwrap m k ⟨[], msglist, rfl⟩ (hm.trans hmax))
          · have hsmall : last + 1 < SIZE := by omega
            rw [Nat.mod_eq_of_lt hsmall] at hnext
            exact ⟨by omega, hnext⟩
        obtain ⟨hle, hlen, hchain, heq⟩ := ih rfl hk.1 hwrap.tail
        rw [if_pos hnext]
        refine ⟨by omega, Nat.le_succ_of_le hlen, hchain, ?_⟩
        have huids : uidsOf currentFolder (k :: msglist) =
            uidNum currentFolder k :: uidsOf currentFolder msglist := by
          simp [uidsOf, hk.1]
        have hrange : (extend currentFolder (uidNum currentFolder k) msglist).1 + 1 - last =
            (extend currentFolder (uidNum currentFolder k) msglist).1 + 1 -
              uidNum currentFolder k + 1 := by
          omega
        rw [huids, heq, hrange, List.range'_succ, hk.2, List.cons_append]
      · rw [if_neg hnext]
        refine ⟨Nat.le_refl last, Nat.le_refl _, hwrap.tail, ?_⟩
        simp

theorem ranges_spec (fuel : Nat) (hwrap : NoWrap currentFolder msglist)
    (hfuel : msglist.length < fuel) :
    ∃ rs, ranges currentFolder fuel msglist = some rs ∧
      rs.flatMap members = uidsOf currentFolder msglist := by
  induction fuel generalizing msglist with
  | zero => omega
  | succ fuel ih =>
      have hnext := nextUid_spec hwrap
      rw [ranges, getNextRange]
      cases hfirst : nextUid currentFolder msglist with
      | none =>
          rw [hfirst] at hnext
          exact ⟨[], rfl, hnext.symm⟩
      | some found =>
          obtain ⟨first, rest⟩ := found
          rw [hfirst] at hnext
          obtain ⟨heq, hne, hlen, m, hm, hchain⟩ := hnext
          obtain ⟨hle, hlen', hchain', hrange⟩ := extend_spec hm hne hchain
          obtain ⟨rs, hrs, hmembers⟩ := ih hchain' (by omega)
          refine ⟨(first, (extend currentFolder first rest).1) :: rs, ?_, ?_⟩
          · simp only [hrs, Option.map_some]
          · rw [List.flatMap_cons, hmembers, members, if_pos hle, heq, hrange]

end RangesSpec

section CommandsSpec
variable {parameters operation name : Text}

structure Queued (parameters operation name : Text) (st : FetchHandler × Text)
    (sets : List (List Range)) (last : List Range) : Prop where
  commands : st.1.commands =
    sets.map fun rs => (name, operation ++ str " " ++ setText rs ++ parameters ++ [CR, NL])
  counter : st.1.counter = st.1.commands.length
  nonempty : ∀ rs ∈ sets, rs ≠ []
  text : st.2 = setText last
  idle : last = [] → sets = []

theorem count_commands (cmd : FetchHandler) (r : Range) :
    (cmd.count r).commands = cmd.commands := by
  cases cmd
  rfl

theorem count_counter (cmd : FetchHandler) (r : Range) : (cmd.count r).counter = cmd.counter := by
  cases cmd
  rfl

theorem Queued.count {cmd : FetchHandler} {s : Text} {sets : List (List Range)}
    {last : List Range} (h : Queued parameters operation name (cmd, s) sets last) (r : Range) :
    Queued parameters operation name (cmd.count r, s) sets last where
  commands := (count_commands cmd r).trans h.commands
  counter := by
    rw [count_commands, count_counter]
    exact h.counter
  nonempty := h.nonempty
  text := h.text
  idle := h.idle

theorem Queued.push {st : FetchHandler × Text} {sets : List (List Range)} {last : List Range}
    (h : Queued parameters operation name st sets last) (hlast : last ≠ []) (s : Text)
    (next : List Range) (hs : s = setText next) (hnext : next ≠ []) :
    Queued parameters operation name (st.1.push parameters operation name st.2, s)
      (sets ++ [last]) next where
  commands := by
    rw [List.map_append, ← h.commands, h.text]
    rfl
  counter := by
    simp [FetchHandler.push, h.counter]
  nonempty := by
    intro rs mem
    rcases List.mem_append.1 mem with mem | mem
    · exact h.nonempty rs mem
    · exact List.mem_singleton.1 mem ▸ hlast
  text := hs
  idle := fun h => absurd h hnext

theorem Queued.addRange {st : FetchHandler × Text} {sets : List (List Range)} {last : List Range}
    (h : Queued parameters operation name st sets last) (r : Range) :
    ∃ sets' last', Queued parameters operation name (addRange parameters operation name st r)
        sets' last' ∧ sets'.flatten ++ last' = sets.flatten ++ last ++ [r] ∧ last' ≠ [] := by
  obtain ⟨cmd, s⟩ := st
  have hsingle : rangeText r = setText [r] := by simp [setText, List.intercalate]
  rw [ImapMessagecmd.addRange]
  by_cases hnil : last = []
  · have hs : s = [] := by
      rw [show s = setText last from h.text, hnil]
      rfl
    subst hs hnil
    refine ⟨sets, [r], { h.count r with text := hsingle, idle := by intro no; cases no }, ?_,
      List.cons_ne_nil r []⟩
    rw [List.append_nil]
  · have hs : s.length > 0 := by
      rw [show s = setText last from h.text]
      exact List.length_pos_iff.2 (setText_ne_nil hnil)
    simp only [if_pos hs]
    split
    · refine ⟨sets ++ [last], [r], (h.count r).push hnil _ _ hsingle (by simp), ?_, by simp⟩
      rw [List.flatten_append, List.flatten_singleton]
    · refine ⟨sets, last ++ [r], { h.count r with text := ?_, idle := by simp }, ?_, by simp⟩
      · rw [setText_concat hnil, ← h.text]
      · rw [List.append_assoc]

theorem Queued.foldl {st : FetchHandler × Text} {sets : List (List Range)} {last : List Range}
    (h : Queued parameters operation name st sets last) (rs : List Range) :
    ∃ sets' last', Queued parameters operation name
        (rs.foldl (ImapMessagecmd.addRange parameters operation name) st) sets' last' ∧
      sets'.flatten ++ last' = sets.flatten ++ last ++ rs := by
  induction rs generalizing st sets last with
  | nil => exact ⟨sets, last, h, (List.append_nil _).symm⟩
  | cons r rs ih =>
      obtain ⟨sets', last', hstep, hflat, -⟩ := h.addRange r
      obtain ⟨sets'', last'', hrest, hflat'⟩ := ih hstep
      exact ⟨sets'', last'', hrest, by rw [hflat', hflat, List.append_assoc]; rfl⟩

theorem messagecmdRanges_spec (parameters operation name : Text) (rs : List Range) :
    ∃ sets : List (List Range), (∀ set ∈ sets, set ≠ []) ∧ sets.flatten = rs ∧
      (messagecmdRanges parameters operation name true rs).commands = sets.map (fun set =>
        (name, operation ++ str " " ++ setText set ++ parameters ++ [CR, NL])) ∧
      (messagecmdRanges parameters operation name true rs =
          .success (str "No messages to process.") ∨
        ∃ cmd, messagecmdRanges parameters operation name true rs = .installForegroundTask cmd ∧
          cmd.counter = cmd.commands.length ∧ cmd.commands ≠ []) := by
  have hstart : Queued parameters operation name (⟨name, [], 0, 0⟩, []) [] [] :=
    ⟨rfl, rfl, nofun, rfl, fun _ => rfl⟩
  obtain ⟨sets, last, hall, hflat⟩ := hstart.foldl rs
  rw [messagecmdRanges]
  rcases hfold : rs.foldl (addRange parameters operation name) (⟨name, [], 0, 0⟩, []) with ⟨cmd, s⟩
  rw [hfold] at hall
  have hempty : s.length = 0 ↔ last = [] := by
    rw [show s = setText last from hall.text, List.length_eq_zero_iff]
    exact ⟨fun h => by_contra fun hne => setText_ne_nil hne h, fun h => h ▸ rfl⟩
  simp only [Bool.not_true, Bool.false_eq_true, if_false, hempty]
  by_cases hnil : last = []
  · obtain rfl := hall.idle hnil
    rw [if_pos hnil]
    exact ⟨[], nofun, by simpa [hnil] using hflat, rfl, Or.inl rfl⟩
  · rw [if_neg hnil]
    obtain ⟨hcommands, hcounter, hnonempty, htext, -⟩ := hall
    refine ⟨sets ++ [last], ?_, ?_, ?_, Or.inr ⟨_, rfl, ?_, ?_⟩⟩
    · intro set mem
      rcases List.mem_append.1 mem with mem | mem
      · exact hnonempty set mem
      · exact List.mem_singleton.1 mem ▸ hnil
    · rw [List.flatten_append, List.flatten_singleton]
      exact hflat
    · simp only at hcommands htext
      rw [List.map_append, ← hcommands, htext]
      rfl
    · simp only at hcounter
      simp [FetchHandler.push, hcounter]
    · simp [FetchHandler.push]

theorem uidsOf_nodup {currentFolder : Folder} {msglist : List Nat} (h : msglist.Nodup)
    (hdistinct : ∀ i j, uidNum currentFolder i ≠ 0 →
      uidNum currentFolder i = uidNum currentFolder j → i = j) :
    (uidsOf currentFolder msglist).Nodup := by
  rw [uidsOf, List.filter_map]
  refine List.Nodup.map_on ?_ (h.filter _)
  intro i hi j _ heq
  have hne := (List.mem_filter.1 hi).2
  exact hdistinct i j (of_decide_eq_true hne) heq

theorem messagecmd_sets (parameters operation name : Text) (currentFolder : Folder)
    (messages : List Nat) (hwrap : NoWrap currentFolder (messages.mergeSort (· ≤ ·))) :
    ∃ out, messagecmd parameters operation name true currentFolder messages = some out ∧
      (out = .success (str "No messages to process.") ∨
        ∃ cmd, out = .installForegroundTask cmd ∧ cmd.counter = cmd.commands.length ∧
          cmd.commands ≠ []) ∧
      ∃ sets : List (List Range), (∀ set ∈ sets, set ≠ []) ∧
        out.commands = sets.map (fun set =>
          (name, operation ++ str " " ++ setText set ++ parameters ++ [CR, NL])) ∧
        (sets.flatMap fun set => set.flatMap members) =
          uidsOf currentFolder (messages.mergeSort (· ≤ ·)) := by
  obtain ⟨rs, hranges, hmembers⟩ := ranges_spec (messages.length + 1) hwrap (by simp)
  obtain ⟨sets, hne, hflat, hcommands, hout⟩ :=
    messagecmdRanges_spec parameters operation name rs
  refine ⟨_, by rw [messagecmd, hranges, Option.map_some], hout, sets, hne, hcommands, ?_⟩
  rw [← hmembers, ← hflat, ← List.flatMap_id, List.flatMap_assoc]
  rfl

theorem mem_uidsOf {currentFolder : Folder} {messages : List Nat} {uid : Nat} :
    uid ∈ uidsOf currentFolder (messages.mergeSort (· ≤ ·)) ↔
      uid ≠ 0 ∧ ∃ m ∈ messages, uidNum currentFolder m = uid := by
  rw [uidsOf, List.mem_filter, List.mem_map]
  simp only [List.mem_mergeSort, decide_eq_true_eq]
  exact and_comm

/-- Where no message without UID stands behind one with the greatest number. -/
theorem messagecmd_uids (parameters operation name : Text) (currentFolder : Folder)
    (messages : List Nat) (hmessages : messages.Nodup)
    (hdistinct : ∀ i j, uidNum currentFolder i ≠ 0 →
      uidNum currentFolder i = uidNum currentFolder j → i = j)
    (hwrap : NoWrap currentFolder (messages.mergeSort (· ≤ ·))) :
    ∃ out, messagecmd parameters operation name true currentFolder messages = some out ∧
      (out = .success (str "No messages to process.") ∨
        ∃ cmd, out = .installForegroundTask cmd ∧ cmd.counter = cmd.commands.length ∧
          cmd.commands ≠ []) ∧
      ∃ sets : List (Text × List Range),
        out.commands = sets.map (fun set =>
          (name, operation ++ str " " ++ set.1 ++ parameters ++ [CR, NL])) ∧
        (∀ set ∈ sets, set.1 ≠ [] ∧ readSet set.1 = some set.2) ∧
        (sets.flatMap fun set => set.2.flatMap members).Nodup ∧
        ∀ uid, uid ∈ (sets.flatMap fun set => set.2.flatMap members) ↔
          uid ≠ 0 ∧ ∃ m ∈ messages, uidNum currentFolder m = uid := by
  obtain ⟨out, hmessagecmd, hout, sets, hne, hcommands, hmembers⟩ :=
    messagecmd_sets parameters operation name currentFolder messages hwrap
  have hall : ((sets.map fun set => (setText set, set)).flatMap fun set => set.2.flatMap members) =
      uidsOf currentFolder (messages.mergeSort (· ≤ ·)) := by
    rw [List.flatMap_map, hmembers]
  refine ⟨out, hmessagecmd, hout, sets.map fun set => (setText set, set), ?_, ?_, ?_, ?_⟩
  · rw [hcommands, List.map_map]
    rfl
  · intro set mem
    obtain ⟨rs, hrs, rfl⟩ := List.mem_map.1 mem
    exact ⟨setText_ne_nil (hne rs hrs), readSet_setText (hne rs hrs)⟩
  · rw [hall]
    exact uidsOf_nodup ((List.mergeSort_perm messages _).nodup_iff.2 hmessages) hdistinct
  · intro uid
    rw [hall]
    exact mem_uidsOf

/-- Three messages in the order of the index, of which two are asked for. -/
theorem messagecmd_uids_two :
    ∃ out, messagecmd (str " (FLAGS)") (str "UID FETCH") (str "FETCH") true
        (some [str "1/7", str "1/6", str "1/8"]) [2, 0] = some out ∧
      ∃ sets : List (Text × List Range),
        out.commands = sets.map (fun set =>
          (str "FETCH", str "UID FETCH" ++ str " " ++ set.1 ++ str " (FLAGS)" ++ [CR, NL])) ∧
        ∀ uid, uid ∈ (sets.flatMap fun set => set.2.flatMap members) ↔
          uid ≠ 0 ∧ ∃ m ∈ [2, 0],
            uidNum (some [str "1/7", str "1/6", str "1/8"]) m = uid := by
  have hnum : ∀ i, uidNum (some [str "1/7", str "1/6", str "1/8"]) i =
      match i with | 0 => 7 | 1 => 6 | 2 => 8 | _ => 0 := by
    intro i
    match i with
    | 0 => decide
    | 1 => decide
    | 2 => decide
    | i + 3 => rfl
  obtain ⟨out, hout, -, sets, hcommands, -, -, hall⟩ :=
    messagecmd_uids (str " (FLAGS)") (str "UID FETCH") (str "FETCH")
      (some [str "1/7", str "1/6", str "1/8"]) [2, 0] (by decide)
      (by
        intro i j hne heq
        rw [hnum] at hne
        rw [hnum, hnum] at heq
        split at heq <;> split at heq <;> simp_all)
      (by
        intro a b _ hmax
        rw [hnum] at hmax
        split at hmax <;> exact absurd hmax (by decide))
  exact ⟨out, hout, sets, hcommands, hall⟩

/-- The number behind the greatest is 0, as for a message without UID. -/
theorem greatest_uid_wraps :
    (∀ i j, uidNum (some [str "1/18446744073709551615", []]) i ≠ 0 →
        uidNum (some [str "1/18446744073709551615", []]) i =
          uidNum (some [str "1/18446744073709551615", []]) j → i = j) ∧
      ((messagecmd (str " (FLAGS)") (str "UID FETCH") (str "FETCH") true
          (some [str "1/18446744073709551615", []]) [0, 1]).map Outcome.commands =
        some [(str "FETCH", str "UID FETCH 18446744073709551615:0 (FLAGS)\x0d\n")]) ∧
      readSet (str "18446744073709551615:0") = some [(18446744073709551615, 0)] ∧
      5 ∈ members (18446744073709551615, 0) ∧
      ∀ m, uidNum (some [str "1/18446744073709551615", []]) m ≠ 5 := by
  have hnum : ∀ i, uidNum (some [str "1/18446744073709551615", []]) i =
      if i = 0 then 18446744073709551615 else 0 := by
    intro i
    match i with
    | 0 => decide
    | 1 => decide
    | i + 2 => rfl
  refine ⟨?_, ?_, by decide, ?_, ?_⟩
  · intro i j hne heq
    simp only [hnum] at hne heq
    split at heq <;> split at heq <;> simp_all
  · rw [messagecmd, List.mergeSort_of_pairwise (by decide)]
    decide
  · rw [members, if_neg (by decide), List.mem_range'_1]
    decide
  · intro m
    rw [hnum]
    split <;> decide

end CommandsSpec
end Cone.ImapMessagecmd
