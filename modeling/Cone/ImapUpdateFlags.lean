import Cone.ImapMessagecmd

/-! # Setting and flipping flags

`mail::imap::updateFolderIndexFlags` of imapfolder.C for an IMAP server: the STORE commands, what
they do to the mailbox, and how the caller's callback is completed. -/
set_option autoImplicit false
namespace Cone.ImapUpdateFlags

open Cone.Ctype Cone.ImapMessagecmd Cone.Lib.SequenceSet

section Flags

/-- The fields of `mail::messageInfo` that the table has. -/
inductive Flag where
  | draft
  | replied
  | marked
  | deleted
  | unread
  deriving DecidableEq, Repr

structure MessageInfo where
  draft : Bool
  replied : Bool
  marked : Bool
  deleted : Bool
  unread : Bool
  deriving DecidableEq, Repr

def messageInfo : MessageInfo := ⟨false, false, false, false, false⟩

def MessageInfo.get (i : MessageInfo) : Flag → Bool
  | .draft => i.draft
  | .replied => i.replied
  | .marked => i.marked
  | .deleted => i.deleted
  | .unread => i.unread

def MessageInfo.put (i : MessageInfo) (v : Bool) : Flag → MessageInfo
  | .draft => { i with draft := v }
  | .replied => { i with replied := v }
  | .marked => { i with marked := v }
  | .deleted => { i with deleted := v }
  | .unread => { i with unread := v }

structure Entry where
  field : Flag
  plusminus : UInt8 × UInt8
  name : Text
  deriving DecidableEq, Repr

def PLUS : UInt8 := byte '+'
def MINUS : UInt8 := byte '-'

def FLAG : UInt8 × UInt8 := (PLUS, MINUS)
def NOTFLAG : UInt8 × UInt8 := (MINUS, PLUS)

def LIBMAIL_MSGFLAGS : List Entry :=
  [⟨.draft, FLAG, str "\\DRAFT"⟩, ⟨.replied, FLAG, str "\\ANSWERED"⟩,
    ⟨.marked, FLAG, str "\\FLAGGED"⟩, ⟨.deleted, FLAG, str "\\DELETED"⟩,
    ⟨.unread, NOTFLAG, str "\\SEEN"⟩]

end Flags

section Commands

structure Indexed where
  uid : Text
  info : MessageInfo
  deriving DecidableEq, Repr

structure FolderInfo where
  index : List Indexed
  folderIndexSize : Nat
  deriving DecidableEq, Repr

variable (socketConnected : Bool) (f : FolderInfo)

def FolderInfo.uidNum (n : Nat) : Nat := ImapMessagecmd.uidNum (some (f.index.map (·.uid))) n

def given (flags : MessageInfo) : List Entry := LIBMAIL_MSGFLAGS.filter (flags.get ·.field)

def names (flags : MessageInfo) : Text := ((given flags).flatMap fun e => SP :: e.name).drop 1

/-- `updateFolderIndexFlags` with `enableDisable`; of the callback only how the call ends. -/
def storeFlags (messages : List Nat) (enableDisable : Bool) (flags : MessageInfo) :
    Option Outcome :=
  match (given flags).getLast? with
  | none => some (.success (str "Ok"))
  | some last =>
    if messages = [] then some (.success (str "Ok"))
    else
      let buf := if enableDisable then last.plusminus.1 else last.plusminus.2
      messagecmd (str " " ++ [buf] ++ str "FLAGS (" ++ names flags ++ str ")") (str "UID STORE")
        (str "STORE") socketConnected (some (f.index.map (·.uid))) messages

/-- A call of `updateFolderIndexFlags` with `enableDisable`. -/
structure Call where
  messages : List Nat
  enableDisable : Bool
  flags : MessageInfo
  deriving DecidableEq, Repr

def withFlag (messages : List Nat) (flags : MessageInfo) (field : Flag) (v : Bool) : List Nat :=
  messages.filter fun n =>
    n < f.folderIndexSize ∧ f.index[n]?.any fun m => flags.get field && m.info.get field == v

def doFlag (messages : List Nat) (flags : MessageInfo) (e : Entry) : List Call :=
  let oneFlag := messageInfo.put true e.field
  [⟨withFlag f messages flags e.field false, true, oneFlag⟩,
    ⟨withFlag f messages flags e.field true, false, oneFlag⟩]

def calls (messages : List Nat) (doFlip enableDisable : Bool) (flags : MessageInfo) : List Call :=
  if doFlip then LIBMAIL_MSGFLAGS.flatMap (doFlag f messages flags)
  else [⟨messages, enableDisable, flags⟩]

def updateFolderIndexFlags (messages : List Nat) (doFlip enableDisable : Bool)
    (flags : MessageInfo) : Option (List Outcome) :=
  (calls f messages doFlip enableDisable flags).mapM fun call =>
    storeFlags socketConnected f call.messages call.enableDisable call.flags

end Commands

section Server

structure SystemFlags where
  draft : Bool
  answered : Bool
  flagged : Bool
  deleted : Bool
  seen : Bool
  deriving DecidableEq, Repr

structure Stored where
  uid : Nat
  flags : SystemFlags
  deriving DecidableEq, Repr

def SystemFlags.store (plus : Bool) (f : SystemFlags) (name : Text) : SystemFlags :=
  if name = str "\\DRAFT" then { f with draft := plus }
  else if name = str "\\ANSWERED" then { f with answered := plus }
  else if name = str "\\FLAGGED" then { f with flagged := plus }
  else if name = str "\\DELETED" then { f with deleted := plus }
  else if name = str "\\SEEN" then { f with seen := plus }
  else f

def strip (front p : Text) : Option Text :=
  if front.isPrefixOf p then some (p.drop front.length) else none

def readStore (command : Text) : Option (List Range × Bool × List Text) :=
  (strip (str "UID STORE ") command).bind fun p =>
    (readSet (p.takeWhile (· ≠ SP))).bind fun set =>
      match (p.dropWhile (· ≠ SP)).drop 1 with
      | [] => none
      | sign :: p =>
        (strip (str "FLAGS (") p).bind fun p =>
          if sign ≠ PLUS ∧ sign ≠ MINUS then none
          else some (set, sign = PLUS, (p.takeWhile (· ≠ byte ')')).splitOn SP)

def execute (mailbox : List Stored) (command : Text) : List Stored :=
  match readStore command with
  | none => mailbox
  | some (set, plus, names) =>
    mailbox.map fun m =>
      if m.uid ∈ set.flatMap members then { m with flags := names.foldl (.store plus) m.flags }
      else m

def systemFlags (i : MessageInfo) : SystemFlags :=
  ⟨i.draft, i.replied, i.marked, i.deleted, !i.unread⟩

def mailboxOf (f : FolderInfo) (others : List Stored) (flags : Nat → SystemFlags) : List Stored :=
  ((List.range f.index.length).map fun n => ⟨f.uidNum n, flags n⟩) ++ others

end Server

section Callbacks

/-- `success` or `fail`, and the text. -/
abbrev Completion := Bool × Text

structure UpdateFlagsCallback where
  failFlag : Bool
  cnt : Nat
  deriving DecidableEq, Repr

/-- The caller's callback, behind an `imapUpdateFlagsCallback` if flags are flipped. -/
structure Callback where
  helper : Option UpdateFlagsCallback
  completed : List Completion
  deriving DecidableEq, Repr

def Callback.complete (cb : Callback) (c : Completion) : Callback :=
  match cb.helper with
  | none => { cb with completed := cb.completed ++ [c] }
  | some h =>
    let h : UpdateFlagsCallback := ⟨h.failFlag || !c.1, h.cnt - 1⟩
    ⟨some h, if h.cnt = 0 then cb.completed ++ [(!h.failFlag, c.2)] else cb.completed⟩

/-- A handler that waits for its replies. -/
structure Task where
  counter : Nat
  failmsg : Text
  deriving DecidableEq, Repr

abbrev Waiting := List Task × Callback

/-- The end of a call. -/
def ended (w : Waiting) (out : Outcome) : Waiting :=
  let cb :=
    match w.2.helper with
    | none => w.2
    | some h => { w.2 with helper := some { h with cnt := h.cnt + 1 } }
  match out with
  | .fail errmsg => (w.1, cb.complete (false, errmsg))
  | .success msg => (w.1, cb.complete (true, msg))
  | .installForegroundTask cmd => (w.1 ++ [⟨cmd.counter, []⟩], cb)

def called (doFlip : Bool) (outs : List Outcome) : Waiting :=
  if doFlip then
    let w := outs.foldl ended ([], ⟨some ⟨false, 1⟩, []⟩)
    (w.1, w.2.complete (true, str "Success"))
  else outs.foldl ended ([], ⟨none, []⟩)

structure TaggedReply where
  okfail : Bool
  errmsg : Text
  deriving DecidableEq, Repr

/-- `imapFetchHandler::taggedMessage` of the first handler. -/
def taggedMessage (w : Waiting) (reply : TaggedReply) : Waiting :=
  match w.1 with
  | [] => w
  | task :: tasks =>
    let failmsg := if !reply.okfail && task.failmsg = [] then reply.errmsg else task.failmsg
    let counter := task.counter - 1
    if counter = 0 then
      (tasks, w.2.complete (if failmsg ≠ [] then (false, failmsg) else (true, reply.errmsg)))
    else (⟨counter, failmsg⟩ :: tasks, w.2)

/-- The connection is lost. -/
def removeAllHandlers (errmsg : Text) (w : Waiting) : Waiting :=
  ([], w.1.foldl (fun cb _ => cb.complete (false, errmsg)) w.2)

end Callbacks

section Property

def changed (doFlip enableDisable : Bool) (flags info : MessageInfo) : MessageInfo :=
  let value := fun field =>
    if flags.get field then (if doFlip then !info.get field else enableDisable)
    else info.get field
  ⟨value .draft, value .replied, value .marked, value .deleted, value .unread⟩

def FolderInfo.info (f : FolderInfo) (n : Nat) : MessageInfo :=
  (f.index[n]?.map (·.info)).getD messageInfo

def StoresFlags (f : FolderInfo) (messages : List Nat) (doFlip enableDisable : Bool)
    (flags : MessageInfo) (others : List Stored) (outs : List Outcome) : Prop :=
  ((outs.flatMap Outcome.commands).map (·.2)).foldl execute
      (mailboxOf f others fun n => systemFlags (f.info n)) =
    mailboxOf f others fun n =>
      if n ∈ messages then systemFlags (changed doFlip enableDisable flags (f.info n))
      else systemFlags (f.info n)

def CommandFailed (outs : List Outcome) (replies : List TaggedReply) : Prop :=
  replies.length < (outs.flatMap Outcome.commands).length ∨
    ∃ reply ∈ replies, reply.okfail = false

def CompletesOnce (doFlip : Bool) (outs : List Outcome) (replies : List TaggedReply)
    (errmsg : Text) : Prop :=
  ∃ c, (removeAllHandlers errmsg (replies.foldl taggedMessage (called doFlip outs))).2.completed =
      [c] ∧ (c.1 = false ↔ CommandFailed outs replies)

structure Synchronized (f : FolderInfo) : Prop where
  size : f.folderIndexSize ≤ f.index.length
  uid : ∀ n < f.folderIndexSize, f.uidNum n ≠ 0
  small : ∀ n, f.uidNum n < 2 ^ 32
  distinct : ∀ m n, f.uidNum m ≠ 0 → f.uidNum m = f.uidNum n → m = n

end Property

section ServerSpec

def turned (enableDisable : Bool) (flags : MessageInfo) : Bool :=
  if flags.unread then !enableDisable else enableDisable

def sign (plus : Bool) : UInt8 := if plus then PLUS else MINUS

def storeAll (plus : Bool) (flags : MessageInfo) (x : SystemFlags) : SystemFlags :=
  ((given flags).map (·.name)).foldl (.store plus) x

theorem storeAll_eq (plus : Bool) (flags : MessageInfo) (x : SystemFlags) :
    storeAll plus flags x =
      ⟨if flags.draft then plus else x.draft, if flags.replied then plus else x.answered,
        if flags.marked then plus else x.flagged, if flags.deleted then plus else x.deleted,
        if flags.unread then plus else x.seen⟩ := by
  obtain ⟨_ | _, _ | _, _ | _, _ | _, _ | _⟩ := flags <;> rfl

theorem storeAll_twice (plus : Bool) (flags : MessageInfo) (x : SystemFlags) :
    storeAll plus flags (storeAll plus flags x) = storeAll plus flags x := by
  simp only [storeAll_eq, SystemFlags.mk.injEq]
  refine ⟨?_, ?_, ?_, ?_, ?_⟩ <;> split <;> rfl

theorem sign_of_last {flags : MessageInfo} {last : Entry} (h : (given flags).getLast? = some last)
    (enableDisable : Bool) :
    (if enableDisable then last.plusminus.1 else last.plusminus.2) =
      sign (turned enableDisable flags) := by
  obtain ⟨_ | _, _ | _, _ | _, _ | _, _ | _⟩ := flags <;> cases h <;> cases enableDisable <;> rfl

theorem names_spec (flags : MessageInfo) :
    byte ')' ∉ names flags ∧
      (given flags ≠ [] → (names flags).splitOn SP = (given flags).map (·.name)) := by
  obtain ⟨_ | _, _ | _, _ | _, _ | _, _ | _⟩ := flags <;> decide

theorem strip_append (front p : Text) : strip front (front ++ p) = some p := by
  rw [strip, if_pos (List.isPrefixOf_iff_prefix.2 (List.prefix_append front p)),
    List.drop_left]

theorem takeWhile_until {c : UInt8} {front : Text} (h : c ∉ front) (p : Text) :
    (front ++ c :: p).takeWhile (· ≠ c) = front ∧
      (front ++ c :: p).dropWhile (· ≠ c) = c :: p := by
  have hall : ∀ x ∈ front, decide (x ≠ c) = true := by
    intro x mem
    exact decide_eq_true fun heq => h (heq ▸ mem)
  rw [List.takeWhile_append_of_pos hall, List.dropWhile_append_of_pos hall]
  simp

variable {f : FolderInfo} {others : List Stored}

def command (rs : List Range) (plus : Bool) (flags : MessageInfo) : Text :=
  str "UID STORE" ++ str " " ++ setText rs ++
    (str " " ++ [sign plus] ++ str "FLAGS (" ++ names flags ++ str ")") ++ [CR, NL]

theorem readStore_command {rs : List Range} {flags : MessageInfo} (hrs : rs ≠ [])
    (hflags : given flags ≠ []) (plus : Bool) :
    readStore (command rs plus flags) = some (rs, plus, (given flags).map (·.name)) := by
  have htext : command rs plus flags = str "UID STORE " ++ (setText rs ++ SP :: sign plus ::
      (str "FLAGS (" ++ (names flags ++ byte ')' :: [CR, NL]))) := by
    simp only [command, List.append_assoc]
    rfl
  have hspace : SP ∉ setText rs := not_mem_setText (by decide) (by decide) (by decide) rs
  have hset := takeWhile_until hspace
    (sign plus :: (str "FLAGS (" ++ (names flags ++ byte ')' :: [CR, NL])))
  have hsign : ¬(sign plus ≠ PLUS ∧ sign plus ≠ MINUS) := by cases plus <;> decide
  have hplus : decide (sign plus = PLUS) = plus := by cases plus <;> decide
  obtain ⟨hparen, hsplit⟩ := names_spec flags
  rw [htext, readStore, strip_append, Option.bind_some, hset.1, hset.2, readSet_setText hrs,
    Option.bind_some]
  simp only [List.drop_succ_cons, List.drop_zero, strip_append, Option.bind_some, if_neg hsign,
    hplus, (takeWhile_until hparen _).1, hsplit hflags]

theorem execute_command {rs : List Range} {flags : MessageInfo} (hrs : rs ≠ [])
    (hflags : given flags ≠ []) (plus : Bool)
    (hothers : ∀ m ∈ others, m.uid ∉ rs.flatMap members) (x : Nat → SystemFlags) :
    execute (mailboxOf f others x) (command rs plus flags) =
      mailboxOf f others fun n =>
        if f.uidNum n ∈ rs.flatMap members then storeAll plus flags (x n) else x n := by
  rw [execute, readStore_command hrs hflags]
  simp only [mailboxOf, List.map_append, List.map_map]
  congr 1
  · refine List.map_congr_left fun n _ => ?_
    simp only [Function.comp_apply]
    split <;> rfl
  · refine (List.map_congr_left fun m mem => ?_).trans (List.map_id others)
    rw [if_neg (hothers m mem), id]

theorem execute_sets {sets : List (List Range)} {flags : MessageInfo}
    (hsets : ∀ rs ∈ sets, rs ≠ []) (hflags : given flags ≠ []) (plus : Bool)
    (hothers : ∀ m ∈ others, m.uid ∉ sets.flatMap fun rs => rs.flatMap members)
    (x : Nat → SystemFlags) :
    (sets.map fun rs => command rs plus flags).foldl execute (mailboxOf f others x) =
      mailboxOf f others fun n =>
        if f.uidNum n ∈ sets.flatMap (fun rs => rs.flatMap members) then storeAll plus flags (x n)
        else x n := by
  induction sets generalizing x with
  | nil => simp
  | cons rs sets ih =>
      simp only [List.flatMap_cons, List.mem_append, not_or] at hothers ⊢
      rw [List.map_cons, List.foldl_cons,
        execute_command (hsets rs (List.mem_cons_self ..)) hflags plus fun m mem =>
          (hothers m mem).1,
        ih (fun rs mem => hsets rs (List.mem_cons_of_mem _ mem)) fun m mem => (hothers m mem).2]
      congr 1
      funext n
      by_cases hfirst : f.uidNum n ∈ rs.flatMap members
      · rw [if_pos hfirst, if_pos (Or.inl hfirst), storeAll_twice, ite_self]
      · rw [if_neg hfirst]
        exact if_congr (or_iff_right hfirst).symm rfl rfl

theorem mailboxOf_congr {x y : Nat → SystemFlags} (h : ∀ n < f.index.length, x n = y n) :
    mailboxOf f others x = mailboxOf f others y := by
  rw [mailboxOf, mailboxOf]
  congr 1
  refine List.map_congr_left fun n mem => ?_
  rw [h n (List.mem_range.1 mem)]

theorem mailboxOf_inj {x y : Nat → SystemFlags}
    (h : mailboxOf f others x = mailboxOf f others y) (n : Nat) (hn : n < f.index.length) :
    x n = y n := by
  have hmap := List.map_inj_left.1 (List.append_cancel_right h) n (List.mem_range.2 hn)
  exact (Stored.mk.inj hmap).2

end ServerSpec

section CallsSpec
variable {f : FolderInfo} {others : List Stored} {messages : List Nat}

def Settled (f : FolderInfo) (messages : List Nat) : Prop :=
  ∀ n ∈ messages, n < f.folderIndexSize ∨ f.index.length ≤ n

def Ended (out : Outcome) : Prop :=
  (∃ msg, out = .success msg) ∨ ∃ cmd, out = .installForegroundTask cmd ∧
    cmd.counter = cmd.commands.length ∧ cmd.commands ≠ []

def effect (f : FolderInfo) (others : List Stored) (outs : List Outcome) (x : Nat → SystemFlags) :
    List Stored :=
  ((outs.flatMap Outcome.commands).map (·.2)).foldl execute (mailboxOf f others x)

theorem noWrap (hsync : Synchronized f) (messages : List Nat) :
    NoWrap (some (f.index.map (·.uid))) messages := by
  intro a b _ hmax
  have hsmall := hsync.small a
  rw [FolderInfo.uidNum, hmax] at hsmall
  exact absurd hsmall (by decide)

theorem storeFlags_spec (hsync : Synchronized f) (hsettled : Settled f messages)
    (hothers : ∀ m ∈ others, ∀ n, f.uidNum n ≠ m.uid) (enableDisable : Bool)
    (flags : MessageInfo) :
    ∃ out, storeFlags true f messages enableDisable flags = some out ∧ Ended out ∧
      ∀ x, effect f others [out] x = mailboxOf f others fun n =>
        if n ∈ messages then storeAll (turned enableDisable flags) flags (x n) else x n := by
  rw [storeFlags]
  cases hlast : (given flags).getLast? with
  | none =>
      have hnone : given flags = [] := List.getLast?_eq_none_iff.1 hlast
      refine ⟨_, rfl, Or.inl ⟨_, rfl⟩, fun x => ?_⟩
      simp [effect, Outcome.commands, storeAll, hnone]
  | some last =>
      have hflags : given flags ≠ [] := by
        intro h
        rw [h] at hlast
        cases hlast
      simp only [sign_of_last hlast]
      by_cases hmessages : messages = []
      · subst hmessages
        rw [if_pos rfl]
        refine ⟨_, rfl, Or.inl ⟨_, rfl⟩, fun x => ?_⟩
        simp [effect, Outcome.commands]
      · rw [if_neg hmessages]
        obtain ⟨out, hout, hended, sets, hsets, hcommands, hmembers⟩ :=
          messagecmd_sets (str " " ++ [sign (turned enableDisable flags)] ++ str "FLAGS (" ++
            names flags ++ str ")") (str "UID STORE") (str "STORE")
            (some (f.index.map (·.uid))) messages (noWrap hsync _)
        refine ⟨out, hout, hended.imp_left fun h => ⟨_, h⟩, fun x => ?_⟩
        have htexts : (List.flatMap Outcome.commands [out]).map (·.2) =
            sets.map fun rs => command rs (turned enableDisable flags) flags := by
          rw [List.flatMap_singleton, hcommands, List.map_map]
          rfl
        rw [effect, htexts, execute_sets hsets hflags]
        · refine mailboxOf_congr fun n hn => ?_
          have hmem : f.uidNum n ∈ (sets.flatMap fun rs => rs.flatMap members) ↔
              n ∈ messages := by
            rw [hmembers, mem_uidsOf]
            constructor
            · rintro ⟨hne, m, mem, heq⟩
              exact hsync.distinct n m hne heq.symm ▸ mem
            · intro mem
              have hsize := (hsettled n mem).resolve_right (Nat.not_le.2 hn)
              exact ⟨hsync.uid n hsize, n, mem, rfl⟩
          simp only [hmem]
        · intro m mem
          rw [hmembers, mem_uidsOf]
          rintro ⟨-, n, -, heq⟩
          exact hothers m mem n heq

theorem effect_append {outs : List Outcome} {x y : Nat → SystemFlags}
    (h : effect f others outs x = mailboxOf f others y) (outs' : List Outcome) :
    effect f others (outs ++ outs') x = effect f others outs' y := by
  rw [effect, effect, List.flatMap_append, List.map_append, List.foldl_append]
  rw [effect] at h
  rw [h]

theorem mem_withFlag (hsync : Synchronized f) {flags : MessageInfo} {field : Flag} {v : Bool}
    {n : Nat} :
    n ∈ withFlag f messages flags field v ↔ n ∈ messages ∧ n < f.folderIndexSize ∧
      flags.get field = true ∧ (f.info n).get field = v := by
  rw [withFlag, List.mem_filter]
  refine and_congr_right fun _ => ?_
  rw [decide_eq_true_eq]
  refine and_congr_right fun hsize => ?_
  have hn : n < f.index.length := Nat.lt_of_lt_of_le hsize hsync.size
  rw [FolderInfo.info, List.getElem?_eq_getElem hn]
  simp

def flipOne (flags info : MessageInfo) (x : SystemFlags) (e : Entry) : SystemFlags :=
  let oneFlag := messageInfo.put true e.field
  if flags.get e.field then storeAll (turned (!info.get e.field) oneFlag) oneFlag x else x

theorem doFlag_spec (hsync : Synchronized f) (hsettled : Settled f messages)
    (hothers : ∀ m ∈ others, ∀ n, f.uidNum n ≠ m.uid) (flags : MessageInfo) (e : Entry) :
    ∃ outs, (doFlag f messages flags e).mapM (fun call =>
        storeFlags true f call.messages call.enableDisable call.flags) = some outs ∧
      (∀ out ∈ outs, Ended out) ∧
      ∀ x, effect f others outs x = mailboxOf f others fun n =>
        if n ∈ messages then flipOne flags (f.info n) (x n) e else x n := by
  have hsub (v : Bool) : Settled f (withFlag f messages flags e.field v) := by
    intro n mem
    exact hsettled n (List.mem_of_mem_filter mem)
  obtain ⟨on, hon, honEnded, honEffect⟩ := storeFlags_spec hsync (hsub false) hothers true
    (messageInfo.put true e.field)
  obtain ⟨off, hoff, hoffEnded, hoffEffect⟩ := storeFlags_spec hsync (hsub true) hothers false
    (messageInfo.put true e.field)
  refine ⟨[on, off], ?_, ?_, fun x => ?_⟩
  · simp only [doFlag, List.mapM_cons, hon, hoff]
    rfl
  · intro out mem
    rcases List.mem_pair.1 mem with rfl | rfl
    · exact honEnded
    · exact hoffEnded
  · refine (effect_append (honEffect x) [off]).trans ((hoffEffect _).trans ?_)
    refine mailboxOf_congr fun n hn => ?_
    simp only [mem_withFlag hsync]
    by_cases hmem : n ∈ messages
    · have hsize := (hsettled n hmem).resolve_right (Nat.not_le.2 hn)
      simp only [hmem, hsize, true_and, if_true, flipOne]
      cases hget : flags.get e.field with
      | false => simp
      | true =>
          cases hinfo : (f.info n).get e.field with
          | false => simp
          | true => simp
    · simp only [hmem, false_and, if_false]

theorem doFlags_spec (hsync : Synchronized f) (hsettled : Settled f messages)
    (hothers : ∀ m ∈ others, ∀ n, f.uidNum n ≠ m.uid) (flags : MessageInfo) (es : List Entry) :
    ∃ outs, (es.flatMap (doFlag f messages flags)).mapM (fun call =>
        storeFlags true f call.messages call.enableDisable call.flags) = some outs ∧
      (∀ out ∈ outs, Ended out) ∧
      ∀ x, effect f others outs x = mailboxOf f others fun n =>
        if n ∈ messages then es.foldl (flipOne flags (f.info n)) (x n) else x n := by
  induction es with
  | nil => exact ⟨[], rfl, nofun, fun x => by simp [effect]⟩
  | cons e es ih =>
      obtain ⟨outs, houts, hended, heffect⟩ := doFlag_spec hsync hsettled hothers flags e
      obtain ⟨rest, hrest, hrestEnded, hrestEffect⟩ := ih
      refine ⟨outs ++ rest, ?_, ?_, fun x => ?_⟩
      · rw [List.flatMap_cons, List.mapM_append, houts, hrest]
        rfl
      · intro out mem
        exact (List.mem_append.1 mem).elim (hended out) (hrestEnded out)
      · rw [effect_append (heffect x), hrestEffect]
        congr 1
        funext n
        by_cases hmem : n ∈ messages
        · simp only [hmem, if_true, List.foldl_cons]
        · simp only [hmem, if_false]

theorem flipped (flags info : MessageInfo) (enableDisable : Bool) :
    LIBMAIL_MSGFLAGS.foldl (flipOne flags info) (systemFlags info) =
      systemFlags (changed true enableDisable flags info) := by
  simp only [LIBMAIL_MSGFLAGS, List.foldl_cons, List.foldl_nil, flipOne, storeAll_eq]
  obtain ⟨draft, replied, marked, deleted, unread⟩ := flags
  simp only [changed, systemFlags, MessageInfo.get, MessageInfo.put, messageInfo, turned]
  cases draft <;> cases replied <;> cases marked <;> cases deleted <;> cases unread <;>
    simp

theorem stored_iff (flags info : MessageInfo) (enableDisable : Bool) :
    storeAll (turned enableDisable flags) flags (systemFlags info) =
        systemFlags (changed false enableDisable flags info) ↔
      (flags.unread = true → ¬(flags.draft || flags.replied || flags.marked || flags.deleted)) := by
  obtain ⟨draft, replied, marked, deleted, unread⟩ := flags
  simp only [changed, systemFlags, MessageInfo.get, turned, storeAll_eq]
  cases draft <;> cases replied <;> cases marked <;> cases deleted <;> cases unread <;>
    simp

end CallsSpec
section CallbacksSpec
variable {failed : Bool} {left : Nat} {w : Waiting}

def tasksOf (outs : List Outcome) : List Task :=
  outs.filterMap fun
    | .installForegroundTask cmd => some ⟨cmd.counter, []⟩
    | _ => none

inductive Progress (failed : Bool) (left : Nat) : Waiting → Prop
  | done (cb : Callback) (text : Text) (hcb : cb.completed = [(!failed, text)]) (hleft : left = 0) :
      Progress failed left ([], cb)
  | set (task : Task) (hcounter : task.counter ≠ 0) (hleft : left = task.counter)
      (hfailed : failed = decide (task.failmsg ≠ [])) : Progress failed left ([task], ⟨none, []⟩)
  | flip (failFlag : Bool) (task : Task) (tasks : List Task) (hcounter : task.counter ≠ 0)
      (hcounters : ∀ t ∈ tasks, t.counter ≠ 0) (hfresh : ∀ t ∈ tasks, t.failmsg = [])
      (hleft : left = task.counter + (tasks.map (·.counter)).sum)
      (hfailed : failed = (failFlag || decide (task.failmsg ≠ []))) :
      Progress failed left (task :: tasks, ⟨some ⟨failFlag, tasks.length + 1⟩, []⟩)

def Task.failure (task : Task) (reply : TaggedReply) : Text :=
  if !reply.okfail && task.failmsg = [] then reply.errmsg else task.failmsg

def Task.completion (task : Task) (reply : TaggedReply) : Completion :=
  if task.failure reply ≠ [] then (false, task.failure reply) else (true, reply.errmsg)

theorem failure_spec (task : Task) (reply : TaggedReply) :
    decide (task.failure reply ≠ []) =
      (decide (task.failmsg ≠ []) || (!reply.okfail && decide (reply.errmsg ≠ []))) := by
  rw [Task.failure]
  cases reply.okfail <;> by_cases hnil : task.failmsg = [] <;> simp [hnil]

theorem completion_fst (task : Task) (reply : TaggedReply) :
    (task.completion reply).1 = !decide (task.failure reply ≠ []) := by
  rw [Task.completion]
  by_cases h : task.failure reply = [] <;> simp [h]

theorem taggedMessage_cons (task : Task) (tasks : List Task) (cb : Callback)
    (reply : TaggedReply) :
    taggedMessage (task :: tasks, cb) reply =
      if task.counter - 1 = 0 then (tasks, cb.complete (task.completion reply))
      else (⟨task.counter - 1, task.failure reply⟩ :: tasks, cb) := rfl

theorem Progress.complete {failFlag : Bool} {tasks : List Task}
    (hcounters : ∀ t ∈ tasks, t.counter ≠ 0) (hfresh : ∀ t ∈ tasks, t.failmsg = [])
    (hleft : left = (tasks.map (·.counter)).sum) (c : Completion)
    (hfailed : failed = (failFlag || !c.1)) :
    Progress failed left
      (tasks, Callback.complete ⟨some ⟨failFlag, tasks.length + 1⟩, []⟩ c) := by
  cases tasks with
  | nil => exact .done _ c.2 (by simp [Callback.complete, hfailed]) hleft
  | cons t tasks =>
      have hcomplete : Callback.complete ⟨some ⟨failFlag, (t :: tasks).length + 1⟩, []⟩ c =
          ⟨some ⟨failFlag || !c.1, tasks.length + 1⟩, []⟩ := by
        simp [Callback.complete]
      rw [hcomplete]
      refine .flip _ t tasks (hcounters t (List.mem_cons_self ..))
        (fun t mem => hcounters t (List.mem_cons_of_mem _ mem))
        (fun t mem => hfresh t (List.mem_cons_of_mem _ mem)) (by simpa using hleft) ?_
      simp [hfailed, hfresh t (List.mem_cons_self ..)]

theorem Progress.taggedMessage (h : Progress failed (left + 1) w) (reply : TaggedReply) :
    Progress (failed || (!reply.okfail && decide (reply.errmsg ≠ []))) left
      (ImapUpdateFlags.taggedMessage w reply) := by
  cases h with
  | done cb text hcb hleft => omega
  | set task hcounter hleft hfailed =>
      rw [hfailed, ← failure_spec, taggedMessage_cons]
      split
      · refine .done _ (task.completion reply).2 ?_ (by omega)
        rw [← completion_fst]
        rfl
      · exact .set _ (by assumption) (by simp only; omega) rfl
  | flip failFlag task tasks hcounter hcounters hfresh hleft hfailed =>
      rw [hfailed, Bool.or_assoc, ← failure_spec, taggedMessage_cons]
      split
      · refine Progress.complete hcounters hfresh (by omega) _ ?_
        rw [completion_fst, Bool.not_not]
      · exact .flip failFlag _ tasks (by assumption) hcounters hfresh (by simp only; omega) rfl

theorem Progress.replies (replies : List TaggedReply)
    (h : Progress failed (left + replies.length) w) :
    Progress (failed || replies.any fun reply => !reply.okfail && decide (reply.errmsg ≠ [])) left
      (replies.foldl ImapUpdateFlags.taggedMessage w) := by
  induction replies generalizing failed w with
  | nil => simpa using h
  | cons reply replies ih =>
      rw [List.foldl_cons, List.any_cons, ← Bool.or_assoc]
      exact ih (Progress.taggedMessage h reply)

theorem removed_flip (failFlag : Bool) (task : Task) (tasks : List Task) (errmsg : Text) :
    ((task :: tasks).foldl (fun cb _ => Callback.complete cb (false, errmsg))
      ⟨some ⟨failFlag, tasks.length + 1⟩, []⟩).completed = [(false, errmsg)] := by
  induction tasks generalizing failFlag task with
  | nil => simp [Callback.complete]
  | cons t tasks ih =>
      have hcomplete : Callback.complete ⟨some ⟨failFlag, (t :: tasks).length + 1⟩, []⟩
          (false, errmsg) = ⟨some ⟨true, tasks.length + 1⟩, []⟩ := by
        simp [Callback.complete]
      rw [List.foldl_cons, hcomplete]
      exact ih true t

theorem Progress.removeAllHandlers (h : Progress failed left w) (errmsg : Text) :
    ∃ text, (ImapUpdateFlags.removeAllHandlers errmsg w).2.completed =
      [(!(failed || decide (left ≠ 0)), text)] := by
  cases h with
  | done cb text hcb hleft =>
      exact ⟨text, by simpa [ImapUpdateFlags.removeAllHandlers, hleft] using hcb⟩
  | set task hcounter hleft hfailed =>
      refine ⟨errmsg, ?_⟩
      simp [ImapUpdateFlags.removeAllHandlers, Callback.complete, hleft, hcounter]
  | flip failFlag task tasks hcounter hcounters hfresh hleft hfailed =>
      have hleft' : left ≠ 0 := by omega
      refine ⟨errmsg, ?_⟩
      rw [ImapUpdateFlags.removeAllHandlers, removed_flip]
      simp [hleft']

theorem foldl_ended {outs : List Outcome} (hended : ∀ out ∈ outs, Ended out) (tasks : List Task)
    (k : Nat) :
    outs.foldl ended (tasks, ⟨some ⟨false, k + 1⟩, []⟩) =
      (tasks ++ tasksOf outs, ⟨some ⟨false, k + (tasksOf outs).length + 1⟩, []⟩) := by
  induction outs generalizing tasks k with
  | nil => simp [tasksOf]
  | cons out outs ih =>
      have hrest := ih fun o mem => hended o (List.mem_cons_of_mem _ mem)
      rw [List.foldl_cons]
      rcases hended out (List.mem_cons_self ..) with ⟨msg, rfl⟩ | ⟨cmd, rfl, -, -⟩
      · exact hrest tasks k
      · refine (hrest (tasks ++ [⟨cmd.counter, []⟩]) (k + 1)).trans ?_
        simp [tasksOf, Nat.add_assoc, Nat.add_comm 1]

theorem tasksOf_spec {outs : List Outcome} (hended : ∀ out ∈ outs, Ended out) :
    (outs.flatMap Outcome.commands).length = ((tasksOf outs).map (·.counter)).sum ∧
      (∀ t ∈ tasksOf outs, t.counter ≠ 0) ∧ ∀ t ∈ tasksOf outs, t.failmsg = [] := by
  induction outs with
  | nil => exact ⟨rfl, nofun, nofun⟩
  | cons out outs ih =>
      obtain ⟨hlength, hcounters, hfresh⟩ := ih fun o mem => hended o (List.mem_cons_of_mem _ mem)
      rw [List.flatMap_cons, List.length_append, hlength]
      rcases hended out (List.mem_cons_self ..) with ⟨msg, rfl⟩ | ⟨cmd, rfl, hcounter, hne⟩
      · exact ⟨by simp [Outcome.commands, tasksOf], hcounters, hfresh⟩
      · refine ⟨by simp [Outcome.commands, tasksOf, hcounter], ?_, ?_⟩
        · intro t mem
          rcases List.mem_cons.1 mem with rfl | mem
          · simpa [hcounter] using hne
          · exact hcounters t mem
        · intro t mem
          rcases List.mem_cons.1 mem with rfl | mem
          · rfl
          · exact hfresh t mem

theorem called_flip {outs : List Outcome} (hended : ∀ out ∈ outs, Ended out) :
    Progress false (outs.flatMap Outcome.commands).length (called true outs) := by
  obtain ⟨hlength, hcounters, hfresh⟩ := tasksOf_spec hended
  have hfold := foldl_ended hended [] 0
  rw [called, if_pos rfl, hfold]
  simp only [List.nil_append, Nat.zero_add]
  exact Progress.complete hcounters hfresh hlength _ rfl

theorem called_set {out : Outcome} (hended : Ended out) :
    Progress false ([out].flatMap Outcome.commands).length (called false [out]) := by
  rcases hended with ⟨msg, rfl⟩ | ⟨cmd, rfl, hcounter, hne⟩
  · exact .done _ msg rfl rfl
  · refine .set ⟨cmd.counter, []⟩ ?_ ?_ rfl
    · simpa [hcounter] using hne
    · simp [Outcome.commands, hcounter]

theorem completesOnce_iff {doFlip : Bool} {outs : List Outcome} {replies : List TaggedReply}
    (h : Progress false (outs.flatMap Outcome.commands).length (called doFlip outs))
    (hreplies : replies.length ≤ (outs.flatMap Outcome.commands).length) (errmsg : Text) :
    CompletesOnce doFlip outs replies errmsg ↔
      ((∃ reply ∈ replies, reply.okfail = false) →
        replies.length < (outs.flatMap Outcome.commands).length ∨
          ∃ reply ∈ replies, reply.okfail = false ∧ reply.errmsg ≠ []) := by
  obtain ⟨left, hleft⟩ := Nat.exists_eq_add_of_le' hreplies
  rw [hleft] at h
  obtain ⟨text, hcompleted⟩ := (h.replies replies).removeAllHandlers errmsg
  have hend : CompletesOnce doFlip outs replies errmsg ↔
      ((left ≠ 0 ∨ ∃ reply ∈ replies, reply.okfail = false ∧ reply.errmsg ≠ []) ↔
        CommandFailed outs replies) := by
    rw [CompletesOnce, hcompleted]
    simp only [List.cons.injEq, and_true, exists_eq_left', Bool.not_eq_false', Bool.false_or,
      Bool.or_eq_true, List.any_eq_true, Bool.and_eq_true, Bool.not_eq_true', decide_eq_true_eq,
      or_comm]
  have hless : replies.length < (outs.flatMap Outcome.commands).length ↔ left ≠ 0 := by omega
  rw [hend, CommandFailed, hless]
  constructor
  · intro heq hfail
    exact heq.2 (Or.inr hfail)
  · intro himp
    refine ⟨fun h => h.imp_right fun ⟨reply, mem, hfail, _⟩ => ⟨reply, mem, hfail⟩, ?_⟩
    rintro (hlost | hfail)
    · exact Or.inl hlost
    · exact himp hfail

end CallbacksSpec

section Main
variable {f : FolderInfo} {others : List Stored} {messages : List Nat}

theorem updateFolderIndexFlags_set_or_flips (hsync : Synchronized f) (hsettled : Settled f messages)
    (hothers : ∀ m ∈ others, ∀ n, f.uidNum n ≠ m.uid) (doFlip enableDisable : Bool)
    (flags : MessageInfo) :
    ∃ outs, updateFolderIndexFlags true f messages doFlip enableDisable flags = some outs ∧
      Progress false (outs.flatMap Outcome.commands).length (called doFlip outs) ∧
      (StoresFlags f messages doFlip enableDisable flags others outs ↔
        (doFlip = false → (∃ n ∈ messages, n < f.folderIndexSize) → flags.unread = true →
          ¬(flags.draft || flags.replied || flags.marked || flags.deleted))) := by
  cases doFlip with
  | true =>
      obtain ⟨outs, houts, hended, heffect⟩ :=
        doFlags_spec hsync hsettled hothers flags LIBMAIL_MSGFLAGS
      refine ⟨outs, houts, called_flip hended, ?_⟩
      refine iff_of_true ((heffect _).trans ?_) nofun
      simp only [flipped flags _ enableDisable]
  | false =>
      obtain ⟨out, hout, hended, heffect⟩ :=
        storeFlags_spec hsync hsettled hothers enableDisable flags
      refine ⟨[out], ?_, called_set hended, ?_⟩
      · rw [updateFolderIndexFlags, calls, if_neg Bool.false_ne_true, List.mapM_cons, hout]
        rfl
      · rw [StoresFlags, ← effect, heffect]
        constructor
        · rintro heq - ⟨n, mem, hsize⟩
          have hn := mailboxOf_inj heq n (Nat.lt_of_lt_of_le hsize hsync.size)
          simp only [if_pos mem] at hn
          exact (stored_iff flags _ enableDisable).1 hn
        · intro himp
          refine mailboxOf_congr fun n hn => ?_
          by_cases mem : n ∈ messages
          · have hsize := (hsettled n mem).resolve_right (Nat.not_le.2 hn)
            rw [if_pos mem, if_pos mem]
            exact (stored_iff flags _ enableDisable).2 (himp rfl ⟨n, mem, hsize⟩)
          · rw [if_neg mem, if_neg mem]

/-- One sign is kept for all the flags, and a failure without any text is forgotten. -/
theorem updateFolderIndexFlags_changes (f : FolderInfo) (others : List Stored) (messages : List Nat)
    (doFlip enableDisable : Bool) (flags : MessageInfo) (hsync : Synchronized f)
    (hsettled : Settled f messages) (hothers : ∀ m ∈ others, ∀ n, f.uidNum n ≠ m.uid) :
    ∃ outs, updateFolderIndexFlags true f messages doFlip enableDisable flags = some outs ∧
      ∀ (replies : List TaggedReply) (errmsg : Text),
        replies.length ≤ (outs.flatMap Outcome.commands).length →
        (StoresFlags f messages doFlip enableDisable flags others outs ∧
            CompletesOnce doFlip outs replies errmsg ↔
          (doFlip = false → (∃ n ∈ messages, n < f.folderIndexSize) → flags.unread = true →
              ¬(flags.draft || flags.replied || flags.marked || flags.deleted)) ∧
            ((∃ reply ∈ replies, reply.okfail = false) →
              replies.length < (outs.flatMap Outcome.commands).length ∨
                ∃ reply ∈ replies, reply.okfail = false ∧ reply.errmsg ≠ [])) := by
  obtain ⟨outs, houts, hprogress, hstores⟩ :=
    updateFolderIndexFlags_set_or_flips hsync hsettled hothers doFlip enableDisable flags
  refine ⟨outs, houts, fun replies errmsg hreplies => ?_⟩
  exact and_congr hstores (completesOnce_iff hprogress hreplies errmsg)

def sample : FolderInfo := ⟨[⟨str "1/5", messageInfo⟩], 1⟩

theorem sample_uidNum (n : Nat) : sample.uidNum n = if n = 0 then 5 else 0 := by
  cases n with
  | zero => decide
  | succ n => rfl

theorem sample_synchronized : Synchronized sample where
  size := Nat.le_refl 1
  uid := by
    intro n hn
    rw [sample_uidNum, if_pos (Nat.lt_one_iff.1 hn)]
    decide
  small := by
    intro n
    rw [sample_uidNum]
    split <;> decide
  distinct := by
    intro m n hne heq
    rw [sample_uidNum] at hne
    rw [sample_uidNum, sample_uidNum] at heq
    split at heq <;> split at heq <;> simp_all

/-- The only message gets a flag, and another is in the mailbox. -/
theorem updateFolderIndexFlags_changes_one :
    ∃ outs, updateFolderIndexFlags true sample [0] false true
        { messageInfo with deleted := true } = some outs ∧
      ∀ (replies : List TaggedReply) (errmsg : Text),
        replies.length ≤ (outs.flatMap Outcome.commands).length →
        (∀ reply ∈ replies, reply.okfail = true) →
        StoresFlags sample [0] false true { messageInfo with deleted := true }
            [⟨6, systemFlags messageInfo⟩] outs ∧
          CompletesOnce false outs replies errmsg := by
  have hothers : ∀ m ∈ [(⟨6, systemFlags messageInfo⟩ : Stored)], ∀ n,
      sample.uidNum n ≠ m.uid := by
    intro m mem n
    obtain rfl := List.mem_singleton.1 mem
    rw [sample_uidNum]
    split <;> decide
  obtain ⟨outs, houts, hiff⟩ := updateFolderIndexFlags_changes sample
    [⟨6, systemFlags messageInfo⟩] [0] false true { messageInfo with deleted := true }
    sample_synchronized (fun n mem => Or.inl (List.mem_singleton.1 mem ▸ Nat.one_pos)) hothers
  refine ⟨outs, houts, fun replies errmsg hreplies hok => ?_⟩
  refine (hiff replies errmsg hreplies).2 ⟨fun _ _ h => absurd h (by decide), ?_⟩
  rintro ⟨reply, mem, hfail⟩
  rw [hok reply mem] at hfail
  cases hfail

/-- To mark a message as deleted and unread takes the deleted flag away. -/
theorem deleted_and_unread :
    Synchronized sample ∧ Settled sample [0] ∧
      (storeFlags true sample [0] true { messageInfo with deleted := true, unread := true }).map
          Outcome.commands =
        some [(str "STORE", str "UID STORE 5 -FLAGS (\\DELETED \\SEEN)\x0d\n")] ∧
      ∀ outs, updateFolderIndexFlags true sample [0] false true
          { messageInfo with deleted := true, unread := true } = some outs →
        ¬StoresFlags sample [0] false true
          { messageInfo with deleted := true, unread := true } [] outs := by
  have hstore : storeFlags true sample [0] true
      { messageInfo with deleted := true, unread := true } =
        messagecmd (str " -FLAGS (\\DELETED \\SEEN)") (str "UID STORE") (str "STORE") true
          (some [str "1/5"]) [0] := rfl
  have hcommands : (storeFlags true sample [0] true
      { messageInfo with deleted := true, unread := true }).map Outcome.commands =
        some [(str "STORE", str "UID STORE 5 -FLAGS (\\DELETED \\SEEN)\x0d\n")] := by
    rw [hstore, messagecmd, List.mergeSort_singleton]
    decide
  refine ⟨sample_synchronized, fun n mem => Or.inl (List.mem_singleton.1 mem ▸ Nat.one_pos),
    hcommands, fun outs houts => ?_⟩
  obtain ⟨out, hout, hout'⟩ := Option.map_eq_some_iff.1 hcommands
  rw [updateFolderIndexFlags, calls, if_neg Bool.false_ne_true, List.mapM_cons, hout] at houts
  obtain rfl : [out] = outs := Option.some.inj houts
  rw [StoresFlags, List.flatMap_singleton, hout']
  decide

end Main
end Cone.ImapUpdateFlags
