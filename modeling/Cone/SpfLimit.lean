import Cone.Spf

/-! # The limit of twenty lookups

The counter is what the lookups spend, and 21 is the last.  Nothing but `lookup` touches it; the
21st lookup answers `SPF_UNKNOWN`, and every `include` and `redirect` above hands that on. -/
set_option autoImplicit false
namespace Cone.Spf

open Cone.Ctype Cone.Lib.Budget

def State.begun (s : State) : List Nat :=
  s.trace.filterMap fun e => match e with
    | .begun number => some number
    | .reported _ _ => none

structure Counted (s : State) : Prop where
  begun : s.begun = List.range' 1 s.lookupCnt
  unknown : ∀ result, Event.reported 21 result ∈ s.trace → result = SPF_UNKNOWN
  reported : s.lookupCnt = 21 → Event.reported 21 SPF_UNKNOWN ∈ s.trace

def lookups : Allowance State where
  spent s := s.lookupCnt
  limit := 21
  Keeps := Counted

@[simp] theorem lookups_spent (s : State) : lookups.spent s = s.lookupCnt := rfl

@[simp] theorem lookups_limit : lookups.limit = 21 := rfl

section Queries
variable (w : World)

theorem free_of_frame {R : Type} {m : Run State R}
    (h : ∀ s, ∃ r t, m s = some (r, t) ∧ t.lookupCnt = s.lookupCnt ∧ t.trace = s.trace) :
    Free lookups m := by
  intro s
  obtain ⟨r, t, hrun, hcnt, htrace⟩ := h s
  have hkeeps : Counted s → Counted t := by
    intro hs
    constructor
    · rw [State.begun, htrace, hcnt]
      exact hs.begun
    · rw [htrace]
      exact hs.unknown
    · rw [htrace, hcnt]
      exact hs.reported
  exact ⟨r, t, hrun, hcnt, hkeeps⟩

theorem free_ask {α : Type} (question : Nat → α) : Free lookups (ask question) :=
  free_of_frame fun _ => ⟨_, _, rfl, rfl, rfl⟩

theorem setErrMsg_run (errmsgBufSize : Nat) (errmsg : List UInt8) (s : State) :
    ∃ u t, setErrMsg errmsgBufSize errmsg s = some (u, t) ∧
      t.lookupCnt = s.lookupCnt ∧ t.trace = s.trace := by
  unfold setErrMsg
  by_cases hsize : errmsgBufSize = 0
  · rw [if_pos hsize]
    exact ⟨_, _, rfl, rfl, rfl⟩
  · rw [if_neg hsize]
    exact ⟨_, _, rfl, rfl, rfl⟩

theorem free_setErrMsg (errmsgBufSize : Nat) (errmsg : List UInt8) :
    Free lookups (setErrMsg errmsgBufSize errmsg) :=
  free_of_frame (setErrMsg_run errmsgBufSize errmsg)

/-- A message and then a result. -/
theorem free_fail {R : Type} (errmsgBufSize : Nat) (errmsg : List UInt8) (r : R) :
    Free lookups (setErrMsg errmsgBufSize errmsg >>= fun _ => pure r) :=
  (free_setErrMsg errmsgBufSize errmsg).bind fun _ => Free.pure _ r

theorem free_expand (s : List UInt8) (info : Info) : Free lookups (expand w s info) := by
  apply (free_ask w.malloc).bind
  intro allocated
  apply Free.ite
  · exact Free.pure _ _
  · exact free_fail _ _ _

theorem free_getDomainPfix (info : Info) (start : List UInt8) :
    Free lookups (getDomainPfix w info start) := by
  apply (free_ask w.malloc).bind
  intro allocated
  apply Free.ite
  · exact free_fail _ _ _
  apply Free.ite
  · exact Free.pure _ _
  · exact Free.pure _ _

theorem free_checkPtr (name : List UInt8) (addr : Addr) (p : List UInt8) (pinfo : PtrInfo) :
    Free lookups (checkPtr w name addr p pinfo) := by
  apply Free.ite
  · exact Free.pure _ _
  apply (free_ask (w.a · p)).bind
  intro (rc, addrs)
  apply Free.ite
  · exact Free.pure _ _
  apply Free.ite
  · exact Free.pure _ _
  apply Free.ite
  · exact Free.pure _ _
  · exact Free.pure _ _

theorem free_checkPtrs (name : List UInt8) (addr : Addr) (ptrs : List (List UInt8))
    (pinfo : PtrInfo) : Free lookups (checkPtrs w name addr ptrs pinfo) := by
  induction ptrs generalizing pinfo with
  | nil => exact Free.pure _ _
  | cons p ptrs ih =>
      apply (free_checkPtr w name addr p pinfo).bind
      intro pinfo
      exact ih pinfo

theorem free_doPtr (name : List UInt8) (info : Info) : Free lookups (doPtr w name info) := by
  unfold doPtr
  cases w.aton info.tcpremoteip with
  | none => exact free_fail _ _ _
  | some addr =>
      apply (free_ask (w.ptr · addr)).bind
      intro answer
      cases answer with
      | enoent => exact Free.pure _ _
      | again => exact Free.pure _ _
      | names ptrs =>
          apply (free_checkPtrs w _ addr ptrs _).bind
          intro pinfo
          apply Free.ite
          · exact Free.pure _ _
          apply Free.ite
          · exact free_fail _ _ _
          · exact Free.pure _ _

theorem free_doIpcheck (name : List UInt8) (info : Info) (pfixAdd : Int) :
    Free lookups (doIpcheck w name info pfixAdd) := by
  unfold doIpcheck
  cases w.aton info.tcpremoteip with
  | none => exact free_fail _ _ _
  | some addr =>
      apply (free_ask w.malloc).bind
      intro allocated
      apply Free.ite
      · dsimp only
        split
        · exact Free.pure _ _
        · exact Free.pure _ _
      · exact free_fail _ _ _

theorem free_addresses {α : Type} (question : Nat → List UInt8 → Int × List α) (info : Info)
    (start : List UInt8) (errmsg : List UInt8) (failure : UInt8)
    (found : Addr → Int → List α → UInt8) :
    Free lookups (getDomainPfix w info start >>= fun x =>
      match x.1, w.aton info.tcpremoteip with
      | none, _ => pure SPF_ERROR
      | some _, none => invalidTcpremoteip info
      | some domain, some addr => ask (question · domain) >>= fun y =>
        if y.1 ≠ 0 then setErrMsg info.errmsgBufSize errmsg >>= fun _ => pure failure
        else pure (found addr x.2 y.2)) := by
  apply (free_getDomainPfix w info start).bind
  intro x
  split
  · exact Free.pure _ _
  · exact free_fail _ _ _
  · apply (free_ask _).bind
    intro y
    apply Free.ite
    · exact free_fail _ _ _
    · exact Free.pure _ _

theorem free_mechanismA (start : List UInt8) (info : Info) :
    Free lookups (mechanismA w start info) :=
  free_addresses w w.a info start _ _ fun addr pfix iaptr =>
    if iaptr.any (ipCompare addr · pfix) then SPF_PASS else SPF_FAIL

theorem free_mechanismMx (start : List UInt8) (info : Info) :
    Free lookups (mechanismMx w start info) :=
  free_addresses w w.mxlist info start _ _ fun addr pfix mxlist =>
    if (mxlist.filterMap id).any (ipCompare addr · pfix) then SPF_PASS else SPF_FAIL

theorem free_mechanismExists (domainSpec : List UInt8) (info : Info) :
    Free lookups (mechanismExists w domainSpec info) := by
  apply (free_expand w domainSpec info).bind
  intro expanded
  cases expanded with
  | none => exact Free.pure _ _
  | some domain =>
      apply (free_ask (w.a · domain)).bind
      intro y
      exact Free.pure _ _

theorem free_setexp (exp : List UInt8) (info : Info) : Free lookups (setexp w exp info) := by
  apply (free_ask _).bind
  intro answer
  cases answer with
  | none => exact free_setErrMsg _ _
  | some txtbuf =>
      apply (free_expand w txtbuf info).bind
      intro text
      exact free_setErrMsg _ _

end Queries

section Evaluation
variable (w : World) {depth : Nat} {lookup' : Info → Run State UInt8}

def Unknown (result : UInt8) : Prop := result = SPF_UNKNOWN

theorem within_mechanismInclude (hlookup : ∀ info, Within lookups depth Unknown (lookup' info))
    (domainSpec : List UInt8) (info : Info) :
    Within lookups depth Unknown (mechanismInclude w lookup' domainSpec info) := by
  apply (free_expand w domainSpec info).bind_within
  intro expanded
  cases expanded with
  | none => exact (Free.pure _ _).within
  | some newDomain =>
      apply (hlookup _).bind
      · intro rc
        exact (Free.pure _ _).within
      · intro rc hrc
        apply And.intro (Free.pure _ _)
        apply Answers.pure
        rw [show rc = SPF_UNKNOWN from hrc]
        rfl

theorem within_mechanism (hlookup : ∀ info, Within lookups depth Unknown (lookup' info))
    (name : List UInt8) (info : Info) :
    Within lookups depth Unknown (mechanism w lookup' name info) := by
  apply Within.ite (Free.pure _ _).within
  apply Within.ite (within_mechanismInclude w hlookup _ info)
  apply Within.ite (free_mechanismA w _ info).within
  apply Within.ite (free_mechanismMx w _ info).within
  apply Within.ite
  · exact Within.ite (Free.pure _ _).within (free_doIpcheck w name info _).within
  apply Within.ite (free_doIpcheck w name info _).within
  apply Within.ite (free_doPtr w _ info).within
  exact Within.ite (free_mechanismExists w _ info).within (Free.pure _ _).within

theorem free_explain (exp : Option (List UInt8)) (info : Info) (result : UInt8) :
    Free lookups (explain w exp info >>= fun _ => pure result) := by
  cases exp with
  | none => exact Free.bind (Free.pure _ _) fun _ => Free.pure _ _
  | some exp => exact (free_setexp w exp info).bind fun _ => Free.pure _ _

theorem within_noMatch (hlookup : ∀ info, Within lookups depth Unknown (lookup' info))
    (info : Info) (exp redirect : Option (List UInt8)) :
    Within lookups depth Unknown (noMatch w lookup' info exp redirect) := by
  cases redirect with
  | none => exact (free_explain w exp info SPF_NEUTRAL).within
  | some domainSpec =>
      apply (free_expand w domainSpec info).bind_within
      intro expanded
      cases expanded with
      | none => exact (Free.pure _ _).within
      | some newDomain => exact hlookup _

theorem within_spfComputeLoop (hlookup : ∀ info, Within lookups depth Unknown (lookup' info))
    (info : Info) (exp redirect : Option (List UInt8)) (words : List (List UInt8)) :
    Within lookups depth Unknown (spfComputeLoop w lookup' info exp redirect words) := by
  induction words generalizing redirect with
  | nil => exact within_noMatch w hlookup info exp redirect
  | cons word words ih =>
      apply Within.ite
      · exact ih _
      -- a mechanism that used up the last lookup has thrown `SPF_UNKNOWN`, which is no match
      apply (within_mechanism w hlookup _ info).bind
      · intro rc
        apply Within.ite
        · exact (free_explain w _ info _).within
        · exact Within.ite (ih _) (Free.pure _ _).within
      · intro rc hrc
        rw [show rc = SPF_UNKNOWN from hrc]
        exact ⟨Free.pure _ _, Answers.pure rfl⟩

theorem within_rfc1035SpfCompute (hlookup : ∀ info, Within lookups depth Unknown (lookup' info))
    (record : List UInt8) (info : Info) :
    Within lookups depth Unknown (rfc1035SpfCompute w lookup' record info) := by
  apply (free_ask w.malloc).bind_within
  intro allocated
  apply Within.ite
  · exact within_spfComputeLoop w hlookup info _ _ _
  · exact (free_fail _ _ _).within

theorem free_report {number : Nat} (hnumber : number < 21) (result : UInt8) :
    Free lookups (report number result) := by
  intro s
  refine ⟨result, _, rfl, rfl, ?_⟩
  intro hs
  constructor
  · simpa [State.begun] using hs.begun
  · intro r hr
    rcases List.mem_append.mp hr with hr | hr
    · exact hs.unknown r hr
    · obtain ⟨hsame, -⟩ : 21 = number ∧ r = result := by simpa using hr
      omega
  · intro hcnt
    exact List.mem_append_left _ (hs.reported hcnt)

theorem within_evaluate (hlookup : ∀ info, Within lookups depth Unknown (lookup' info))
    {number : Nat} (hnumber : number < 21) (c : UInt8) (record : List UInt8) (info : Info) :
    Within lookups depth Unknown
      (if c ≠ SPF_PASS then report number c
        else rfc1035SpfCompute w lookup' record info >>= fun rc => report number rc) := by
  apply Within.ite
  · exact (free_report hnumber c).within
  apply (within_rfc1035SpfCompute w hlookup record info).bind
  · intro rc
    exact (free_report hnumber rc).within
  · intro rc hrc
    apply And.intro (free_report hnumber rc)
    intro s r t hrun
    obtain ⟨rfl, -⟩ := Prod.mk.inj (Option.some.inj hrun)
    exact hrc

end Evaluation

section Lookup
variable (w : World) {s : State}

def State.next (s : State) : State :=
  { s with lookupCnt := s.lookupCnt + 1, trace := s.trace ++ [.begun (s.lookupCnt + 1)] }

theorem State.next_begun (hs : Counted s) : s.next.begun = List.range' 1 (s.lookupCnt + 1) := by
  have hone : s.next.begun = s.begun ++ [s.lookupCnt + 1] := by
    simp [State.begun, State.next]
  rw [hone, hs.begun, List.range'_1_concat, Nat.add_comm 1]

theorem Counted.next (hs : Counted s) (hlt : s.lookupCnt < 20) : Counted s.next := by
  constructor
  · exact State.next_begun hs
  · intro r hr
    apply hs.unknown r
    simpa [State.next] using hr
  · intro hcnt
    have : s.lookupCnt + 1 = 21 := hcnt
    omega

theorem lookup_last (depth : Nat) (info : Info) (hs : Counted s) (hcnt : s.lookupCnt = 20) :
    ∃ t, lookup w (depth + 1) info s = some (SPF_UNKNOWN, t) ∧ Counted t ∧ t.lookupCnt = 21 := by
  obtain ⟨_, u, hmsg, hu, htrace⟩ := setErrMsg_run info.errmsgBufSize
    (str "Maximum of 20 nested SPF queries exceeded.") s.next
  have hnumber : s.lookupCnt + 1 = 21 := by omega
  have hover : s.lookupCnt + 1 > 20 := by omega
  have hcnt' : u.lookupCnt = 21 := by rw [hu, ← hnumber, State.next]
  have hrun : lookup w (depth + 1) info s = report (s.lookupCnt + 1) SPF_UNKNOWN u := by
    rw [lookup, bind_of_eq (show begin s = some (s.lookupCnt + 1, s.next) from rfl), if_pos hover,
      bind_of_eq hmsg]
  rw [hnumber] at hrun
  refine ⟨_, hrun, ?_, hcnt'⟩
  have hbegun : u.begun = s.next.begun := by rw [State.begun, htrace, State.begun]
  constructor
  · rw [hcnt', ← hnumber, ← State.next_begun hs, ← hbegun]
    simp [State.begun]
  · intro r hr
    rcases List.mem_append.mp hr with hr | hr
    · apply hs.unknown r
      rw [htrace] at hr
      simpa [State.next] using hr
    · simpa using hr
  · intro _
    apply List.mem_append_right
    exact List.mem_singleton.mpr rfl

theorem within_lookup_step (depth : Nat)
    (hcalls : ∀ info, Within lookups depth Unknown (lookup w depth info)) (info : Info) :
    Within lookups (depth + 1) Unknown (lookup w (depth + 1) info) := by
  intro s hs hlt hdepth
  simp only [lookups_spent, lookups_limit] at hlt hdepth ⊢
  by_cases hlast : s.lookupCnt = 20
  · obtain ⟨t, hrun, ht, hcnt⟩ := lookup_last w depth info hs hlast
    exact ⟨SPF_UNKNOWN, t, hrun, ht, by omega, by omega, fun _ => rfl⟩
  · have hnumber : s.lookupCnt + 1 < 21 := by omega
    have hnext : s.next.lookupCnt = s.lookupCnt + 1 := rfl
    rcases hanswer : w.gettxt info.currentDomain with ⟨c, record⟩
    have hrun : lookup w (depth + 1) info s =
        (if c ≠ SPF_PASS then report (s.lookupCnt + 1) c
          else rfc1035SpfCompute w (lookup w depth) record info >>= fun rc =>
            report (s.lookupCnt + 1) rc) s.next := by
      rw [lookup, bind_of_eq (show begin s = some (s.lookupCnt + 1, s.next) from rfl),
        if_neg (by omega), hanswer]
    obtain ⟨r, t, hrest, ht, hle, hlimit, hstop⟩ :=
      within_evaluate w hcalls hnumber c record info s.next (hs.next (by omega))
        (by rw [lookups_spent, lookups_limit, hnext]; omega)
        (by rw [lookups_spent, lookups_limit, hnext]; omega)
    simp only [lookups_spent, lookups_limit] at hle hlimit hstop
    exact ⟨r, t, hrun.trans hrest, ht, by omega, hlimit, hstop⟩

theorem within_lookup (depth : Nat) (info : Info) :
    Within lookups depth Unknown (lookup w depth info) :=
  within_of_step (within_lookup_step w) depth info

end Lookup

section Depth
variable (w : World) {lookup' lookup'' : Info → Run State UInt8}

theorem extends_mechanism (hlookup : ∀ info, Extends (lookup' info) (lookup'' info))
    (name : List UInt8) (info : Info) :
    Extends (mechanism w lookup' name info) (mechanism w lookup'' name info) := by
  apply Extends.ite (Extends.refl _)
  apply Extends.ite
  · apply (Extends.refl _).bind
    intro expanded
    cases expanded with
    | none => exact Extends.refl _
    | some newDomain => exact (hlookup _).bind fun _ => Extends.refl _
  · exact Extends.refl _

theorem extends_spfComputeLoop (hlookup : ∀ info, Extends (lookup' info) (lookup'' info))
    (info : Info) (exp redirect : Option (List UInt8)) (words : List (List UInt8)) :
    Extends (spfComputeLoop w lookup' info exp redirect words)
      (spfComputeLoop w lookup'' info exp redirect words) := by
  induction words generalizing redirect with
  | nil =>
      cases redirect with
      | none => exact Extends.refl _
      | some domainSpec =>
          apply (Extends.refl _).bind
          intro expanded
          cases expanded with
          | none => exact Extends.refl _
          | some newDomain => exact hlookup _
  | cons word words ih =>
      apply Extends.ite (ih _)
      apply (extends_mechanism w hlookup _ info).bind
      intro rc
      apply Extends.ite (Extends.refl _)
      exact Extends.ite (ih _) (Extends.refl _)

theorem lookup_extends {depth depth' : Nat} (hle : depth ≤ depth') (info : Info) :
    Extends (lookup w depth info) (lookup w depth' info) := by
  apply extends_of_step (fun _ _ => rfl) _ hle
  intro n n' hcalls info
  apply (Extends.refl _).bind
  intro number
  apply Extends.ite (Extends.refl _)
  apply Extends.ite (Extends.refl _)
  apply Extends.bind
  · apply (Extends.refl _).bind
    intro allocated
    apply Extends.ite _ (Extends.refl _)
    exact extends_spfComputeLoop w hcalls info _ _ _
  · intro rc
    exact Extends.refl _

end Depth

section Result
variable (w : World)

/-- Before a call: the caller's buffer, and no lookup yet. -/
def State.start (errmsg : List UInt8) : State := ⟨0, errmsg, 0, []⟩

theorem counted_of_start {s : State} (hcnt : s.lookupCnt = 0) (htrace : s.trace = []) :
    Counted s := by
  constructor
  · rw [State.begun, htrace, hcnt]
    rfl
  · rw [htrace]
    nofun
  · omega

theorem lookup_result (info : Info) {s : State} (hcnt : s.lookupCnt = 0) (htrace : s.trace = []) :
    ∃ result t, (∀ depth, 21 ≤ depth → lookup w depth info s = some (result, t)) ∧
      Counted t ∧ t.lookupCnt ≤ 21 ∧ (t.lookupCnt = 21 → result = SPF_UNKNOWN) := by
  obtain ⟨result, t, hrun, ht, -, hlimit, hstop⟩ :=
    within_lookup w 21 info s (counted_of_start hcnt htrace)
      (by rw [lookups_spent, lookups_limit, hcnt]; omega) (by rw [lookups_limit]; omega)
  refine ⟨result, t, ?_, ht, hlimit, hstop⟩
  intro depth hdepth
  exact lookup_extends w hdepth info s _ hrun

theorem free_fillErrMsg (errmsgBufSize : Nat) (result : UInt8) :
    Free lookups (fillErrMsg w errmsgBufSize result) := by
  intro s
  unfold fillErrMsg
  by_cases hempty : s.errmsg = []
  · rw [if_pos hempty]
    exact ((free_ask w.malloc).bind fun _ => free_setErrMsg _ _) s
  · rw [if_neg hempty]
    exact ⟨_, _, rfl, rfl, id⟩

theorem rfc1035SpfLookup_result {mailfrom : List UInt8} (hat : mailfrom.contains (byte '@') = true)
    (tcpremoteip tcpremotehost helodomain mydomain : Option (List UInt8)) (errmsgBufSize : Nat)
    {s : State} (htrace : s.trace = []) :
    ∃ result t,
      (∀ depth, 21 ≤ depth → rfc1035SpfLookup w depth mailfrom tcpremoteip tcpremotehost helodomain
        mydomain errmsgBufSize s = some (result, t)) ∧
      Counted t ∧ t.lookupCnt ≤ 21 ∧ (t.lookupCnt = 21 → result = SPF_UNKNOWN) := by
  let s' : State :=
    { s with lookupCnt := 0, errmsg := if errmsgBufSize = 0 then s.errmsg else [] }
  let info : Info := ⟨mailfrom, afterLast (byte '@') mailfrom, tcpremoteip.getD [],
    tcpremotehost.getD [], helodomain.getD [], mydomain.getD [], errmsgBufSize⟩
  obtain ⟨result, t, hlookup, ht, hlimit, hstop⟩ := lookup_result w info (s := s') rfl htrace
  obtain ⟨⟨⟩, u, hfill, hspent, hkeeps⟩ := free_fillErrMsg w errmsgBufSize result t
  simp only [lookups_spent] at hspent
  refine ⟨result, u, ?_, hkeeps ht, by omega, fun hcnt => hstop (by omega)⟩
  intro depth hdepth
  have hstart : (modify fun s : State =>
      { s with lookupCnt := 0, errmsg := if errmsgBufSize = 0 then s.errmsg else [] } :
        Run State Unit) s = some ((), s') := rfl
  rw [rfc1035SpfLookup, bind_of_eq hstart]
  dsimp only
  rw [dif_pos hat, bind_of_eq (hlookup depth hdepth), bind_of_eq hfill]
  rfl

/-- The same for a sender without a domain, who is the postmaster. -/
theorem rfc1035SpfLookup_counted (mailfrom : List UInt8)
    (tcpremoteip tcpremotehost helodomain mydomain : Option (List UInt8)) (errmsgBufSize : Nat)
    {s : State} (htrace : s.trace = []) :
    ∃ result t,
      (∀ depth, 21 ≤ depth → rfc1035SpfLookup w depth mailfrom tcpremoteip tcpremotehost helodomain
        mydomain errmsgBufSize s = some (result, t)) ∧
      Counted t ∧ t.lookupCnt ≤ 21 ∧ (t.lookupCnt = 21 → result = SPF_UNKNOWN) := by
  by_cases hat : mailfrom.contains (byte '@') = true
  · exact rfc1035SpfLookup_result w hat _ _ _ _ _ htrace
  let s' : State :=
    { s with lookupCnt := 0, errmsg := if errmsgBufSize = 0 then s.errmsg else [] }
  have hstart : (modify fun s : State =>
      { s with lookupCnt := 0, errmsg := if errmsgBufSize = 0 then s.errmsg else [] } :
        Run State Unit) s = some ((), s') := rfl
  let s'' : State := { s' with asked := s'.asked + 1 }
  have hmalloc : ask w.malloc s' = some (w.malloc s'.asked, s'') := rfl
  by_cases hallocated : w.malloc s'.asked = true
  · obtain ⟨result, t, hrun, hcounted⟩ := rfc1035SpfLookup_result w (contains_postmaster mailfrom)
      (tcpremoteip.getD []) (tcpremotehost.getD []) (helodomain.getD []) (mydomain.getD [])
      errmsgBufSize (s := s'') htrace
    refine ⟨result, t, ?_, hcounted⟩
    intro depth hdepth
    rw [rfc1035SpfLookup, bind_of_eq hstart]
    dsimp only
    rw [dif_neg hat, bind_of_eq hmalloc, if_pos hallocated]
    exact hrun depth hdepth
  · obtain ⟨⟨⟩, t, hfail, hcnt, htrace'⟩ := setErrMsg_run errmsgBufSize w.strerror s''
    have hzero : t.lookupCnt = 0 := hcnt
    refine ⟨SPF_ERROR, t, ?_, counted_of_start hzero (htrace'.trans htrace), by omega, by omega⟩
    intro depth hdepth
    rw [rfc1035SpfLookup, bind_of_eq hstart]
    dsimp only
    rw [dif_neg hat, bind_of_eq hmalloc, if_neg hallocated, bind_of_eq hfail]
    rfl

/-- A call with any arguments, for any name server: it ends, the lookups it begins are numbered
from 1 and at most 21, and the 21st reports `SPF_UNKNOWN` and makes that the result. -/
theorem rfc1035SpfLookup_limited (mailfrom : List UInt8)
    (tcpremoteip tcpremotehost helodomain mydomain : Option (List UInt8)) (errmsgBufSize : Nat)
    (errmsg : List UInt8) :
    ∃ result t,
      (∀ depth, 21 ≤ depth → rfc1035SpfLookup w depth mailfrom tcpremoteip tcpremotehost helodomain
        mydomain errmsgBufSize (State.start errmsg) = some (result, t)) ∧
      t.begun = List.range' 1 t.lookupCnt ∧ t.lookupCnt ≤ 21 ∧
      (∀ r, Event.reported 21 r ∈ t.trace → r = SPF_UNKNOWN) ∧
      (21 ∈ t.begun → Event.reported 21 SPF_UNKNOWN ∈ t.trace ∧ result = SPF_UNKNOWN) := by
  obtain ⟨result, t, hrun, hcounted, hlimit, hstop⟩ := rfc1035SpfLookup_counted w mailfrom
    tcpremoteip tcpremotehost helodomain mydomain errmsgBufSize (s := State.start errmsg) rfl
  refine ⟨result, t, hrun, hcounted.begun, hlimit, hcounted.unknown, ?_⟩
  intro hlast
  rw [hcounted.begun, List.mem_range'_1] at hlast
  have hcnt : t.lookupCnt = 21 := by omega
  exact ⟨hcounted.reported hcnt, hstop hcnt⟩

def selfRedirect : World where
  gettxt _ := (SPF_PASS, str "v=spf1 redirect=%\x7bd\x7d")
  aton _ := none
  malloc _ := true
  strerror := []
  a _ _ := (0, [])
  mxlist _ _ := (0, [])
  ptr _ _ := .enoent
  txt _ _ := none

example : (rfc1035SpfLookup selfRedirect 21 (str "a@b") none none none none 99
    (State.start [])).map (fun p => (p.1, p.2.lookupCnt)) = some (SPF_UNKNOWN, 21) := by
  decide +kernel

end Result
end Cone.Spf
