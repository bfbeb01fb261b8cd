import Cone.Lib.Invariants
import Cone.Lib.SiblingForest
import Cone.MaildirkeywordsLinks
import Cone.Rfc2045ReplyAddresses

/-! # The tree of a mailbox (`rfc822/imaprefs.c`)

`rfc822_threadmsg` for each message, `rfc822_threadprune` and `rfc822_threadgetroot`, which are the
steps (1) to (3) of the threading.  Memory is never short. -/
set_option autoImplicit false
namespace Cone.Imaprefs

open Cone.Lib.Invariants Cone.Lib.SiblingForest Cone.Maildirkeywords Cone.Rfc2045ReplyAddresses
open Cone.Ctype (str)
open Function (update)

abbrev Text := List UInt8

structure Refmsg where
  msgid : Text
  isdummy : Bool
  seqnum : Nat

/-- The messages in the order in which they were made.  A message that is still to be made has no
pointers, as `memset` leaves it. -/
structure Table where
  msgs : List Refmsg
  links : Links Nat
  hashtable : Nat → List Nat

section Model

def threadalloc : Table :=
  ⟨[], ⟨fun _ => none, fun _ => none, fun _ => none, fun _ => none, fun _ => none⟩, fun _ => []⟩

def Table.msgid (mt : Table) (m : Nat) : Text := (mt.msgs[m]?.map Refmsg.msgid).getD []

def Table.isdummy (mt : Table) (m : Nat) : Bool := (mt.msgs[m]?.map Refmsg.isdummy).getD false

def Table.modify (mt : Table) (m : Nat) (f : Refmsg → Refmsg) : Table :=
  { mt with msgs := mt.msgs.modify m f }

def Table.linkparent (mt : Table) (msg lastmsg : Nat) : Table :=
  { mt with links := mt.links.append msg lastmsg }

def Table.breakparent (mt : Table) (m : Nat) : Table := { mt with links := mt.links.remove m }

def hashmsgid (msgid : Text) : Nat :=
  (msgid.foldl (fun (hashno : UInt64) c =>
    let n := hashno <<< 1
    (if hashno &&& 512 ≠ 0 then n ^^^ 1 else n) ^^^ c.toUInt64) 0).toNat % 512

/-- The message is put behind those of its bucket that are not greater. -/
def Table.threadallocmsg (mt : Table) (msgid : Text) : Nat × Table :=
  let chain := mt.hashtable (hashmsgid msgid)
  let front := chain.takeWhile fun m => strcmp (mt.msgid m) msgid ≤ 0
  (mt.msgs.length,
    { mt with
      msgs := mt.msgs ++ [⟨msgid, false, 0⟩]
      hashtable := update mt.hashtable (hashmsgid msgid)
        (front ++ mt.msgs.length :: chain.drop front.length) })

def Table.threadsearchmsg (mt : Table) (msgid : Text) : Option Nat :=
  ((mt.hashtable (hashmsgid msgid)).find? fun m => strcmp (mt.msgid m) msgid ≥ 0).filter
    fun m => strcmp (mt.msgid m) msgid = 0

/-- `for (m=lastmsg; m; m=m->parent)` with a `break` at this id: whether there is a `break`. -/
def Table.loops (mt : Table) (msgid : Text) : Nat → Option Nat → Option Bool
  | _, none => some false
  | 0, some _ => none
  | fuel + 1, some m =>
    if strcmp (mt.msgid m) msgid = 0 then some true
    else mt.loops msgid fuel (mt.links.parent m)

/-- The message of a reference. -/
def Table.referred (mt : Table) (msgid : Option Text) : Nat × Table :=
  match msgid.bind mt.threadsearchmsg with
  | some msg => (msg, mt)
  | none =>
    let (msg, mt) := mt.threadallocmsg (msgid.getD [])
    (msg, mt.modify msg fun r => { r with isdummy := true })

/-- `linkparent(msg, lastmsg)`, unless it would introduce a loop. -/
def Table.link (mt : Table) (msg : Nat) (fuel : Nat) : Option Nat → Option Table
  | none => some mt
  | some lastmsg => do
    let m ← mt.loops (mt.msgid msg) fuel (some lastmsg)
    if m then some mt else some (mt.linkparent msg lastmsg)

/-- One round over the references: the table and `lastmsg`. -/
def reference (fuel : Nat) (s : Table × Option Nat) (msgid : Option Text) :
    Option (Table × Option Nat) := do
  let (msg, mt) := s.1.referred msgid
  if (mt.links.parent msg).isSome then some (mt, some msg)
  else
    let mt ← mt.link msg fuel s.2
    some (mt, some msg)

/-- `while ((m=msg->firstchild) != 0)` -/
def whileChild (msg : Nat) (body : Table → Nat → Table) : Nat → Table → Option Table
  | 0, _ => none
  | fuel + 1, mt =>
    match mt.links.firstchild msg with
    | none => some mt
    | some m => whileChild msg body fuel (body mt m)

/-- The message itself, which has no parent yet. -/
def Table.received (mt : Table) (fuel : Nat) (newmsgid : Text) : Option (Nat × Table) :=
  match (if newmsgid ≠ [] then mt.threadsearchmsg newmsgid else none) with
  | none => some (mt.threadallocmsg newmsgid)
  | some msg =>
    if mt.isdummy msg then
      some (msg, (mt.modify msg fun r => { r with isdummy := false }).breakparent msg)
    else do
      let mt ← whileChild msg Table.breakparent fuel mt
      some ((mt.breakparent msg).threadallocmsg [])

/-- `a`: the ids of the references, and none for an address without tokens. -/
def dorefcreate (fuel : Nat) (mt : Table) (newmsgid : Text) (a : List (Option Text)) :
    Option (Nat × Table) := do
  let (mt, lastmsg) ← a.foldlM (reference fuel) (mt, none)
  let (msg, mt) ← mt.received fuel newmsgid
  let mt ← mt.link msg fuel lastmsg
  some (msg, mt)

/-- What `rfc822_threadmsg` is given; the subject and the date are not used here. -/
structure Message where
  msgidhdr : Text
  refhdr : Text
  seqnum : Nat

def references (refhdr : Text) : List (Option Text) :=
  (addresses refhdr).map fun a => if a.tokens ≠ [] then some (getaddr a) else none

def threadmsg (fuel : Nat) (mt : Table) (m : Message) : Option Table := do
  let msgid := ((addresses m.msgidhdr).head?.map getaddr).getD []
  let (msg, mt) ← dorefcreate fuel mt msgid (references m.refhdr)
  some (mt.modify msg fun r => { r with seqnum := m.seqnum })

/-- One round of `rfc822_threadprune`. -/
def prune (fuel : Nat) (mt : Table) (msg : Nat) : Option Table :=
  match mt.links.parent msg with
  | none => some mt
  | some saveparent =>
    if !mt.isdummy msg then some mt
    else
      match mt.links.firstchild msg with
      | none => some (mt.breakparent msg)
      | some m =>
        if (mt.links.nextsib m).isSome ∧ (mt.links.parent saveparent).isSome then some mt
        else
          whileChild msg (fun mt m => (mt.breakparent m).linkparent m saveparent) fuel
            (mt.breakparent msg)

def threadprune (fuel : Nat) (mt : Table) : Option Table :=
  (List.range mt.msgs.length).foldlM (prune fuel) mt

def setParent (h : Links Nat) (m : Nat) (p : Option Nat) : Links Nat :=
  { h with parent := update h.parent m p }

/-- One round of `rfc822_threadgetroot`. -/
def gather (root : Nat) (mt : Table) (m : Nat) : Table :=
  if (mt.links.parent m).isSome then mt
  else if mt.isdummy m ∧ mt.links.firstchild m = none then mt
  else mt.linkparent m root

/-- The root, which is its own parent for now. -/
def Table.allocroot (mt : Table) : Nat × Table :=
  let (root, mt) := mt.threadallocmsg (str "(root)")
  let mt := { mt with links := setParent mt.links root (some root) }
  (root, mt.modify root fun r => { r with isdummy := true })

def threadgetroot (mt : Table) : Nat × Table :=
  let (root, mt) := mt.allocroot
  let mt := (List.range mt.msgs.length).foldl (gather root) mt
  (root, { mt with links := setParent mt.links root none })

def thread (fuel : Nat) (messages : List Message) : Option (Nat × Table) := do
  let mt ← messages.foldlM (threadmsg fuel) threadalloc
  let mt ← threadprune fuel mt
  some (threadgetroot mt)

end Model

/-! ## The pointers -/

section Pointers
variable {mt : Table} {m p msg : Nat}

/-- The pointers are those of a forest of the messages that there are. -/
structure Good (mt : Table) : Prop where
  linked : ∃ kids, Linked mt.links kids
  grounded : WellFounded mt.links.Up
  known : ∀ m p, mt.links.parent m = some p → m < mt.msgs.length ∧ p < mt.msgs.length
  hashed : ∀ n, ∀ m ∈ mt.hashtable n, m < mt.msgs.length

theorem Good.modify (h : Good mt) (m : Nat) (f : Refmsg → Refmsg) : Good (mt.modify m f) := by
  have hlen : (mt.modify m f).msgs.length = mt.msgs.length := List.length_modify f mt.msgs m
  exact ⟨h.linked, h.grounded, by rw [hlen]; exact h.known, by rw [hlen]; exact h.hashed⟩

theorem linked_remove (h : ∃ kids, Linked mt.links kids) (m : Nat) :
    ∃ kids, Linked (mt.links.remove m) kids := by
  obtain ⟨kids, h⟩ := h
  cases hm : mt.links.parent m with
  | none => exact ⟨kids, by rwa [Links.remove, hm]⟩
  | some p => exact ⟨_, h.remove hm⟩

theorem parent_of_remove (h : (mt.links.remove msg).parent m = some p) :
    mt.links.parent m = some p := by
  rw [parent_remove] at h
  by_cases hm : m = msg
  · rw [hm, Function.update_self] at h
    cases h
  · rwa [Function.update_of_ne hm] at h

theorem Good.breakparent (h : Good mt) (m : Nat) : Good (mt.breakparent m) :=
  ⟨linked_remove h.linked m, wellFounded_remove h.grounded m,
    fun x q hx => h.known x q (parent_of_remove hx), h.hashed⟩

theorem Good.linkparent (h : Good mt) (hm : mt.links.parent m = none) (hlt : m < mt.msgs.length)
    (hp : p < mt.msgs.length) (hup : ¬ Relation.ReflTransGen mt.links.Up m p) :
    Good (mt.linkparent m p) := by
  obtain ⟨kids, hlinked⟩ := h.linked
  refine ⟨⟨_, hlinked.append hm⟩, wellFounded_append h.grounded hup, fun x q hx => ?_, h.hashed⟩
  simp only [Table.linkparent, parent_append] at hx
  by_cases heq : x = m
  · rw [heq, Function.update_self] at hx
    cases hx
    exact ⟨heq ▸ hlt, hp⟩
  · rw [Function.update_of_ne heq] at hx
    exact h.known x q hx

theorem Good.fresh (h : Good mt) : mt.links.parent mt.msgs.length = none := by
  cases hp : mt.links.parent mt.msgs.length with
  | none => rfl
  | some p => exact absurd (h.known _ p hp).1 (Nat.lt_irrefl _)

theorem Good.threadallocmsg (h : Good mt) (msgid : Text) : Good (mt.threadallocmsg msgid).2 := by
  have hlen : (mt.threadallocmsg msgid).2.msgs.length = mt.msgs.length + 1 := by
    simp [Table.threadallocmsg]
  refine ⟨h.linked, h.grounded, fun x q hx => ?_, fun n x hx => ?_⟩
  · obtain ⟨hx, hq⟩ := h.known x q hx
    omega
  · rw [hlen]
    simp only [Table.threadallocmsg] at hx
    by_cases hn : n = hashmsgid msgid
    · rw [hn, Function.update_self, List.mem_append, List.mem_cons] at hx
      rcases hx with hx | rfl | hx
      · exact Nat.lt_succ_of_lt (h.hashed _ x (List.takeWhile_subset _ hx))
      · exact Nat.lt_succ_self _
      · exact Nat.lt_succ_of_lt (h.hashed _ x (List.mem_of_mem_drop hx))
    · rw [Function.update_of_ne hn] at hx
      exact Nat.lt_succ_of_lt (h.hashed n x hx)

theorem Good.threadsearchmsg (h : Good mt) {msgid : Text}
    (hm : mt.threadsearchmsg msgid = some m) : m < mt.msgs.length := by
  rw [Table.threadsearchmsg, Option.filter_eq_some_iff] at hm
  exact h.hashed _ m (List.mem_of_find?_eq_some hm.1)

/-! ## The loops end -/

theorem loops_ends (hwf : WellFounded mt.links.Up) (msgid : Text) (m : Nat) :
    Ends (fun fuel => mt.loops msgid fuel (some m)) fun b =>
      b = false → ∀ x, Relation.ReflTransGen mt.links.Up x m → strcmp (mt.msgid x) msgid ≠ 0 := by
  induction m using hwf.induction with
  | _ m ih =>
      apply Ends.succ
      simp only [Table.loops]
      by_cases same : strcmp (mt.msgid m) msgid = 0
      · simp only [same, if_true]
        exact Ends.pure fun h => absurd h (by decide)
      · simp only [same, if_false]
        cases hp : mt.links.parent m with
        | none =>
            simp only [Table.loops]
            refine Ends.pure fun _ x hx => ?_
            rcases hx.cases_tail with rfl | ⟨y, -, hy⟩
            · exact same
            · exact absurd (hp.symm.trans hy) (by simp)
        | some p =>
            refine (ih p hp).mono fun b hb hfalse x hx => ?_
            rcases hx.cases_tail with rfl | ⟨y, hxy, hy⟩
            · exact same
            · obtain rfl : p = y := Option.some.inj (hp.symm.trans hy)
              exact hb hfalse x hxy

/-- What the pointers become, the messages stay as they are. -/
def Keeps (mt mt' : Table) : Prop := Good mt' ∧ mt'.msgs = mt.msgs

theorem link_ends (h : Good mt) (hlt : msg < mt.msgs.length) (hm : mt.links.parent msg = none)
    (last : Option Nat) (hlast : ∀ l ∈ last, l < mt.msgs.length) :
    Ends (mt.link msg · last) (Keeps mt) := by
  cases last with
  | none => exact Ends.pure ⟨h, rfl⟩
  | some l =>
      refine (loops_ends h.grounded (mt.msgid msg) l).bind fun b hb => ?_
      cases b with
      | true => exact Ends.pure ⟨h, rfl⟩
      | false =>
          refine Ends.pure ⟨h.linkparent hm hlt (hlast l rfl) fun hup => ?_, rfl⟩
          exact hb rfl msg hup (strcmp_self _)

/-- A round takes the first child away, and so there is one child less in every round. -/
theorem whileChild_ends {body : Table → Nat → Table} {I : Table → Prop}
    (hround : ∀ mt m kids, I mt → Linked mt.links kids → mt.links.parent m = some msg →
      I (body mt m) ∧ ∃ kids', Linked (body mt m).links kids' ∧ kids' msg = (kids msg).erase m)
    {kids : Nat → List Nat} (hI : I mt) (hlinked : Linked mt.links kids) :
    Ends (whileChild msg body · mt) I := by
  induction hk : (kids msg).length generalizing mt kids with
  | zero =>
      apply Ends.succ
      have hnone : mt.links.firstchild msg = none := by
        rw [hlinked.first, List.length_eq_zero_iff.1 hk, List.head?_nil]
      simp only [whileChild, hnone]
      exact Ends.pure hI
  | succ k ih =>
      apply Ends.succ
      cases hfirst : mt.links.firstchild msg with
      | none =>
          simp only [whileChild, hfirst]
          exact Ends.pure hI
      | some m =>
          simp only [whileChild, hfirst]
          rw [hlinked.first] at hfirst
          have hmem := List.mem_of_mem_head? hfirst
          obtain ⟨hI', kids', hlinked', herase⟩ :=
            hround mt m kids hI hlinked ((hlinked.parent m msg).1 hmem)
          refine ih hI' hlinked' ?_
          rw [herase, List.length_erase_of_mem hmem, hk, Nat.add_sub_cancel]

theorem orphan_ends (h : Good mt) (msg : Nat) :
    Ends (whileChild msg Table.breakparent · mt) (Keeps mt) := by
  obtain ⟨kids, hlinked⟩ := h.linked
  refine whileChild_ends (fun mt' m kids hmt' hlinked hm => ?_) ⟨h, rfl⟩ hlinked
  exact ⟨⟨hmt'.1.breakparent m, hmt'.2⟩, _, hlinked.remove hm, Function.update_self ..⟩

/-- The messages that are not dummies. -/
def Table.reals (mt : Table) : List Nat := (mt.msgs.filter (!·.isdummy)).map Refmsg.seqnum

theorem reals_congr {mt' : Table} (h : mt'.msgs = mt.msgs) : mt'.reals = mt.reals := by
  rw [Table.reals, h, Table.reals]

theorem modify_append {A : Type} (l : List A) (a : A) (f : A → A) :
    (l ++ [a]).modify l.length f = l ++ [f a] := by
  induction l with
  | nil => rfl
  | cons b l ih => exact congrArg (b :: ·) ih

/-- A message in the table after some references. -/
structure Referred (mt : Table) (r : Nat × Table) : Prop where
  good : Good r.2
  lt : r.1 < r.2.msgs.length
  le : mt.msgs.length ≤ r.2.msgs.length
  reals : r.2.reals = mt.reals

theorem referred_referred (h : Good mt) (msgid : Option Text) :
    Referred mt (mt.referred msgid) := by
  rw [Table.referred]
  cases hm : msgid.bind mt.threadsearchmsg with
  | some m =>
      obtain ⟨id, -, hsearch⟩ := Option.bind_eq_some_iff.1 hm
      exact ⟨h, h.threadsearchmsg hsearch, le_rfl, rfl⟩
  | none =>
      refine ⟨(h.threadallocmsg _).modify _ _, ?_, ?_, ?_⟩
      · simp [Table.threadallocmsg, Table.modify]
      · simp [Table.threadallocmsg, Table.modify]
      · simp [Table.threadallocmsg, Table.modify, Table.reals, modify_append]

/-- The table and `lastmsg` after some references. -/
def Referring (mt : Table) (s : Table × Option Nat) : Prop :=
  Good s.1 ∧ (∀ l ∈ s.2, l < s.1.msgs.length) ∧ s.1.reals = mt.reals

theorem reference_ends {s : Table × Option Nat} (h : Referring mt s) (msgid : Option Text) :
    Ends (reference · s msgid) (Referring mt) := by
  obtain ⟨hgood, hlast, hreals⟩ := h
  have hreferred := referred_referred hgood msgid
  simp only [reference]
  generalize s.1.referred msgid = r at *
  by_cases hparent : (r.2.links.parent r.1).isSome
  · simp only [hparent, if_true]
    exact Ends.pure ⟨hreferred.good, fun l hl => Option.some.inj hl ▸ hreferred.lt,
      hreferred.reals.trans hreals⟩
  · simp only [hparent]
    refine (link_ends hreferred.good hreferred.lt (by simpa using hparent) s.2
      fun l hl => (hlast l hl).trans_le hreferred.le).bind fun mt' hmt' => ?_
    refine Ends.pure ⟨hmt'.1, fun l hl => ?_, ?_⟩
    · rw [hmt'.2]
      exact Option.some.inj hl ▸ hreferred.lt
    · rw [reals_congr hmt'.2, hreferred.reals, hreals]

/-! ## One message more -/

/-- A message of the table that is no dummy any more. -/
theorem perm_modify {l : List Refmsg} {r : Refmsg} (hr : l[m]? = some r) (hdummy : r.isdummy = true)
    (f : Refmsg → Refmsg) (hf : (f r).isdummy = false) :
    (((l.modify m f).filter (!·.isdummy)).map Refmsg.seqnum).Perm
      ((f r).seqnum :: (l.filter (!·.isdummy)).map Refmsg.seqnum) := by
  induction l generalizing m with
  | nil => cases hr
  | cons a l ih =>
      cases m with
      | zero =>
          obtain rfl : a = r := Option.some.inj hr
          simp [hdummy, hf]
      | succ m =>
          rw [List.getElem?_cons_succ] at hr
          rw [List.modify_succ_cons]
          cases ha : a.isdummy with
          | true => simpa [ha] using ih hr
          | false => simpa [ha] using ((ih hr).cons a.seqnum).trans (.swap _ _ _)

/-- A message that is no dummy, and whose place is still to be found. -/
structure Received (mt : Table) (seqnum : Nat) (r : Nat × Table) : Prop where
  good : Good r.2
  lt : r.1 < r.2.msgs.length
  le : mt.msgs.length ≤ r.2.msgs.length
  parent : r.2.links.parent r.1 = none
  perm : ((r.2.modify r.1 fun m => { m with seqnum := seqnum }).reals).Perm (seqnum :: mt.reals)

theorem received_alloc {mt' : Table} (h : Keeps mt mt') (msgid : Text) (seqnum : Nat) :
    Received mt seqnum (mt'.threadallocmsg msgid) := by
  refine ⟨h.1.threadallocmsg msgid, ?_, ?_, h.1.fresh, ?_⟩
  · simp [Table.threadallocmsg]
  · simp [Table.threadallocmsg, h.2]
  · rw [← reals_congr h.2]
    simp [Table.threadallocmsg, Table.modify, Table.reals, modify_append]

theorem received_ends (h : Good mt) (newmsgid : Text) (seqnum : Nat) :
    Ends (mt.received · newmsgid) (Received mt seqnum) := by
  simp only [Table.received]
  cases hfound : (if newmsgid ≠ [] then mt.threadsearchmsg newmsgid else none) with
  | none => exact Ends.pure (received_alloc ⟨h, rfl⟩ newmsgid seqnum)
  | some msg =>
      have hlt : msg < mt.msgs.length := by
        split at hfound
        · exact h.threadsearchmsg hfound
        · cases hfound
      by_cases hdummy : mt.isdummy msg = true
      · simp only [hdummy, if_true]
        have hr := List.getElem?_eq_getElem hlt
        have hisdummy : (mt.msgs[msg]).isdummy = true := by
          simpa [Table.isdummy, hr] using hdummy
        have hperm := perm_modify hr hisdummy
          (fun r => { r with isdummy := false, seqnum := seqnum }) rfl
        refine Ends.pure ⟨(h.modify _ _).breakparent _, ?_, ?_, ?_, ?_⟩
        · simpa [Table.modify, Table.breakparent] using hlt
        · simp [Table.modify, Table.breakparent]
        · simp [Table.breakparent]
        · simpa [Table.reals, Table.modify, Table.breakparent, List.modify_modify_eq,
            Function.comp_def] using hperm
      · simp only [hdummy]
        refine (orphan_ends h msg).bind fun mt' hmt' => ?_
        exact Ends.pure (received_alloc ⟨hmt'.1.breakparent msg, hmt'.2⟩ [] seqnum)

theorem threadmsg_ends (h : Good mt) (m : Message) :
    Ends (threadmsg · mt m) fun mt' => Good mt' ∧ mt'.reals.Perm (m.seqnum :: mt.reals) := by
  have hrefs : Ends (fun fuel => (references m.refhdr).foldlM (reference fuel) (mt, none))
      (Referring mt) :=
    Ends.foldlM (I := fun _ => Referring mt) (fun _ msgid _ hs => reference_ends hs msgid)
      ⟨h, by simp, rfl⟩ _
  simp only [threadmsg, dorefcreate, Option.bind_eq_bind, Option.bind_assoc]
  refine hrefs.bind fun s hs => ?_
  obtain ⟨hgood, hlast, hreals⟩ := hs
  refine (received_ends hgood _ m.seqnum).bind fun r hr => ?_
  refine (link_ends hr.good hr.lt hr.parent s.2 fun l hl => (hlast l hl).trans_le hr.le).bind
    fun mt' hmt' => ?_
  refine Ends.pure ⟨hmt'.1.modify _ _, ?_⟩
  rw [← hreals]
  simpa only [Table.reals, Table.modify, hmt'.2] using hr.perm

/-! ## Pruning -/

theorem promote_ends (h : Good mt) {saveparent : Nat} (hsave : mt.links.Up saveparent msg) :
    Ends (whileChild msg (fun mt m => (mt.breakparent m).linkparent m saveparent) ·
      (mt.breakparent msg)) (Keeps mt) := by
  have hne : msg ≠ saveparent := by
    rintro rfl
    exact h.grounded.irrefl.irrefl _ hsave
  obtain ⟨kids, hlinked⟩ := (h.breakparent msg).linked
  -- whoever is a parent was above the same child before
  let I (mt' : Table) : Prop := (∃ kids, Linked mt'.links kids) ∧ mt'.msgs = mt.msgs ∧
    mt'.hashtable = mt.hashtable ∧ ∀ p x, mt'.links.Up p x →
      x < mt.msgs.length ∧ p < mt.msgs.length ∧ Relation.TransGen mt.links.Up p x
  have hstart : I (mt.breakparent msg) := by
    refine ⟨⟨kids, hlinked⟩, rfl, rfl, fun p x hx => ?_⟩
    have hup := parent_of_remove hx
    exact ⟨(h.known x p hup).1, (h.known x p hup).2, .single hup⟩
  refine (whileChild_ends (I := I) (fun mt' m kids hI hlinked hm => ?_) hstart hlinked).mono ?_
  · obtain ⟨-, hmsgs, hhash, hup⟩ := hI
    have hgone : (mt'.links.remove m).parent m = none := by simp
    have hlinked' := (hlinked.remove hm).append (p := saveparent) hgone
    refine ⟨⟨⟨_, hlinked'⟩, hmsgs, hhash, fun p x hx => ?_⟩, _, hlinked', ?_⟩
    · rw [Links.Up, Table.linkparent, parent_append] at hx
      by_cases heq : x = m
      · rw [heq, Function.update_self] at hx
        obtain rfl : saveparent = p := Option.some.inj hx
        subst heq
        exact ⟨(hup msg x hm).1, (h.known msg _ hsave).2, .head hsave (hup msg x hm).2.2⟩
      · rw [Function.update_of_ne heq] at hx
        exact hup p x (parent_of_remove hx)
    · rw [Function.update_of_ne hne, Function.update_self]
  · rintro mt' ⟨hlinked', hmsgs, hhash, hup⟩
    refine ⟨⟨hlinked', Subrelation.wf (fun hx => (hup _ _ hx).2.2) h.grounded.transGen, ?_, ?_⟩,
      hmsgs⟩
    · rw [hmsgs]
      exact fun x p hx => ⟨(hup p x hx).1, (hup p x hx).2.1⟩
    · rw [hmsgs, hhash]
      exact h.hashed

theorem prune_ends (h : Good mt) (msg : Nat) :
    Ends (prune · mt msg) (Keeps mt) := by
  simp only [prune]
  cases hparent : mt.links.parent msg with
  | none => exact Ends.pure ⟨h, rfl⟩
  | some saveparent =>
      by_cases hdummy : mt.isdummy msg = true
      · simp only [hdummy, Bool.not_true, Bool.false_eq_true, if_false]
        cases hfirst : mt.links.firstchild msg with
        | none => exact Ends.pure ⟨h.breakparent msg, rfl⟩
        | some m =>
            dsimp only
            split
            · exact Ends.pure ⟨h, rfl⟩
            · exact promote_ends h hparent
      · simp only [hdummy]
        exact Ends.pure ⟨h, rfl⟩

theorem threadprune_ends (h : Good mt) :
    Ends (threadprune · mt) (Keeps mt) :=
  Ends.foldlM (I := fun _ => Keeps mt)
    (fun _ msg _ hmt' => (prune_ends hmt'.1 msg).mono fun _ hnext =>
      ⟨hnext.1, hnext.2.trans hmt'.2⟩)
    ⟨h, rfl⟩ _

/-! ## The root -/

theorem append_setParent (h : Links Nat) {root : Nat} (hm : m ≠ root) (v : Option Nat) :
    (setParent h root v).append m root = setParent (h.append m root) root v := by
  simp only [Links.append, setParent, Function.update_self]
  cases h.lastchild root with
  | none => simp only [Function.update_comm hm]
  | some q => simp only [Function.update_comm hm]

/-- What is put below the root. -/
def Wanted (old : Links Nat) (root : Nat) (isdummy : Nat → Bool) (m : Nat) : Prop :=
  m ≠ root ∧ old.parent m = none ∧ ¬ (isdummy m = true ∧ old.firstchild m = none)

/-- The pointers, with no parent of the root yet. -/
structure Gathered (old : Links Nat) (root : Nat) (taken : Nat → Prop) (h : Links Nat) : Prop where
  linked : ∃ kids, Linked h kids
  grounded : WellFounded h.Up
  firstchild : ∀ m, m ≠ root → h.firstchild m = old.firstchild m
  below : ∀ m, taken m → h.parent m = some root
  left : ∀ m, ¬ taken m → h.parent m = old.parent m

theorem Gathered.append {old h : Links Nat} {root : Nat} {taken : Nat → Prop}
    (hg : Gathered old root taken h) (hroot : h.parent root = none) (hm : h.parent m = none)
    (hne : m ≠ root) : Gathered old root (fun x => taken x ∨ x = m) (h.append m root) := by
  obtain ⟨kids, hlinked⟩ := hg.linked
  have apart : ¬ Relation.ReflTransGen h.Up m root := by
    intro hup
    rcases hup.cases_tail with heq | ⟨y, -, hy⟩
    · exact hne heq.symm
    · exact absurd (hroot.symm.trans hy) (by simp)
  refine ⟨⟨_, hlinked.append hm⟩, wellFounded_append hg.grounded apart, fun x hx => ?_,
    fun x hx => ?_, fun x hx => ?_⟩
  · rw [firstchild_append_of_ne h m hx, hg.firstchild x hx]
  · rw [parent_append]
    by_cases heq : x = m
    · rw [heq, Function.update_self]
    · rw [Function.update_of_ne heq, hg.below x (hx.resolve_right heq)]
  · rw [not_or] at hx
    rw [parent_append, Function.update_of_ne hx.2, hg.left x hx.1]

theorem parent_setParent_of_ne (h : Links Nat) {root : Nat} (hm : m ≠ root) (v : Option Nat) :
    (setParent h root v).parent m = h.parent m := Function.update_of_ne hm _ _

section Gather
variable {old h : Links Nat} {root : Nat} {taken : Nat → Prop}

theorem gather_wanted (hg : Gathered old root taken h)
    (hlinks : mt.links = setParent h root (some root)) (hm : ¬ taken m)
    (hwanted : Wanted old root mt.isdummy m) : gather root mt m = mt.linkparent m root := by
  obtain ⟨hne, hnone, hkept⟩ := hwanted
  have hparent : mt.links.parent m = none := by
    rw [hlinks, parent_setParent_of_ne h hne, hg.left m hm, hnone]
  have hfirst : mt.links.firstchild m = old.firstchild m := by
    rw [hlinks]
    exact hg.firstchild m hne
  rw [gather, hparent, hfirst, if_neg (by simp), if_neg hkept]

theorem gather_left (hg : Gathered old root taken h)
    (hlinks : mt.links = setParent h root (some root))
    (hm : Wanted old root mt.isdummy m → taken m) : gather root mt m = mt := by
  rw [gather]
  split
  · rfl
  · rename_i hnone
    have hne : m ≠ root := by
      rintro rfl
      simp [hlinks, setParent] at hnone
    rw [hlinks, parent_setParent_of_ne h hne, Option.not_isSome_iff_eq_none] at hnone
    have htaken : ¬ taken m := by
      intro htaken
      rw [hg.below m htaken] at hnone
      cases hnone
    rw [hg.left m htaken] at hnone
    have hfirst : mt.links.firstchild m = old.firstchild m := by
      rw [hlinks]
      exact hg.firstchild m hne
    have hdummy : mt.isdummy m = true ∧ old.firstchild m = none :=
      not_not.1 fun hkept => htaken (hm ⟨hne, hnone, hkept⟩)
    rw [hfirst, if_pos hdummy]

theorem gather_fold (hlinked : ∃ kids, Linked old kids) (hwf : WellFounded old.Up)
    (hroot : old.parent root = none) (hlinks : mt.links = setParent old root (some root))
    (l : List Nat) :
    (l.foldl (gather root) mt).msgs = mt.msgs ∧
      ∃ h, (l.foldl (gather root) mt).links = setParent h root (some root) ∧
        Gathered old root (fun m => m ∈ l ∧ Wanted old root mt.isdummy m) h := by
  induction l using List.reverseRecOn with
  | nil =>
      exact ⟨rfl, old, hlinks, hlinked, hwf, fun _ _ => rfl, fun m hm => absurd hm.1 (by simp),
        fun _ _ => rfl⟩
  | append_singleton l m ih =>
      obtain ⟨hmsgs, h, hh, hg⟩ := ih
      rw [List.foldl_append, List.foldl_cons, List.foldl_nil]
      generalize l.foldl (gather root) mt = mt' at *
      have hdummy : mt'.isdummy = mt.isdummy := by
        funext x
        rw [Table.isdummy, hmsgs, Table.isdummy]
      by_cases hnew : m ∉ l ∧ Wanted old root mt.isdummy m
      · obtain ⟨hmem, hwanted⟩ := hnew
        have hm : ¬ (m ∈ l ∧ Wanted old root mt.isdummy m) := fun htaken => hmem htaken.1
        have hroot' : h.parent root = none := by
          rw [hg.left root fun htaken => htaken.2.1 rfl, hroot]
        rw [gather_wanted hg hh hm (hdummy ▸ hwanted)]
        refine ⟨hmsgs, _, by rw [Table.linkparent, hh, append_setParent h hwanted.1], ?_⟩
        convert hg.append hroot' ((hg.left m hm).trans hwanted.2.1) hwanted.1 using 2 with x
        simp only [List.mem_append, List.mem_singleton, or_and_right]
        exact or_congr_right ⟨And.left, fun heq => ⟨heq, heq ▸ hwanted⟩⟩
      · have htaken : Wanted old root mt.isdummy m → m ∈ l ∧ Wanted old root mt.isdummy m :=
          fun hwanted => ⟨not_not.1 fun hmem => hnew ⟨hmem, hwanted⟩, hwanted⟩
        rw [gather_left hg hh (hdummy ▸ htaken)]
        refine ⟨hmsgs, h, hh, ?_⟩
        convert hg using 2 with x
        simp only [List.mem_append, List.mem_singleton, or_and_right]
        refine or_iff_left_of_imp ?_
        rintro ⟨rfl, hwanted⟩
        exact htaken hwanted

/-- Whoever is kept is below the root. -/
theorem Gathered.reaches {isdummy : Nat → Bool} {l : List Nat} (hgood : Good mt)
    (hg : Gathered mt.links mt.msgs.length
      (fun m => m ∈ l ∧ Wanted mt.links mt.msgs.length isdummy m) h)
    (hl : ∀ m < mt.msgs.length, m ∈ l) (hlt : m < mt.msgs.length)
    (hkept : ¬ (isdummy m = true ∧ mt.links.firstchild m = none)) :
    Relation.TransGen h.Up mt.msgs.length m := by
  -- from the first messages of the threads down
  induction m using hgood.grounded.induction with
  | _ m ih =>
      cases hparent : mt.links.parent m with
      | none => exact .single (hg.below m ⟨hl m hlt, hlt.ne, hparent, hkept⟩)
      | some p =>
          obtain ⟨kids, hlinked⟩ := hgood.linked
          have hchild : mt.links.firstchild p ≠ none := by
            rw [hlinked.first]
            intro hnil
            have hmem := (hlinked.parent m p).2 hparent
            simp [List.head?_eq_none_iff.1 hnil] at hmem
          refine (ih p hparent (hgood.known m p hparent).2 fun hp => hchild hp.2).tail ?_
          have hleft := hg.left m fun htaken => by
            rw [htaken.2.2.1] at hparent
            cases hparent
          exact hleft.trans hparent

end Gather

/-- The tree below the root: the pointers are those of a forest, every message that is no dummy is
below the root, and these are the messages given, once each. -/
structure Threaded (messages : List Message) (root : Nat) (mt : Table) : Prop where
  linked : ∃ kids, Linked mt.links kids
  grounded : WellFounded mt.links.Up
  below : ∀ m, m < mt.msgs.length → mt.isdummy m = false → Relation.TransGen mt.links.Up root m
  complete : mt.reals.Perm (messages.map Message.seqnum)

theorem msgs_allocroot (mt : Table) :
    mt.allocroot.2.msgs = mt.msgs ++ [⟨str "(root)", true, 0⟩] := modify_append _ _ _

theorem threadgetroot_threaded (h : Good mt) {messages : List Message}
    (hperm : mt.reals.Perm (messages.map Message.seqnum)) :
    Threaded messages (threadgetroot mt).1 (threadgetroot mt).2 := by
  have hstart : mt.allocroot.2.links = setParent mt.links mt.msgs.length (some mt.msgs.length) :=
    rfl
  obtain ⟨hmsgs, g, hg, hgathered⟩ := gather_fold h.linked h.grounded h.fresh hstart
    (List.range mt.allocroot.2.msgs.length)
  have hroot : g.parent mt.msgs.length = none := by
    rw [hgathered.left _ fun htaken => htaken.2.1 rfl, h.fresh]
  have hlinks : (threadgetroot mt).2.links = g := by
    refine (congrArg (setParent · mt.msgs.length none) hg).trans ?_
    simp only [setParent, Function.update_idem]
    rw [← hroot, Function.update_eq_self]
  have hall : (threadgetroot mt).2.msgs = mt.msgs ++ [⟨str "(root)", true, 0⟩] :=
    hmsgs.trans (msgs_allocroot mt)
  have hrange : ∀ m < mt.msgs.length, m ∈ List.range mt.allocroot.2.msgs.length := by
    intro m hm
    rw [msgs_allocroot, List.mem_range, List.length_append]
    exact Nat.lt_add_right _ hm
  refine ⟨hlinks ▸ hgathered.linked, hlinks ▸ hgathered.grounded, fun m hm hreal => ?_, ?_⟩
  · have hdummy : mt.allocroot.2.isdummy m = false := by
      rw [← hreal, Table.isdummy, Table.isdummy, msgs_allocroot, hall]
    rw [hall, List.length_append] at hm
    have hlt : m < mt.msgs.length := by
      refine lt_of_le_of_ne (Nat.le_of_lt_succ hm) fun heq => ?_
      rw [heq, Table.isdummy, msgs_allocroot] at hdummy
      simp at hdummy
    exact hlinks ▸ hgathered.reaches h hrange hlt fun hkept => by simp [hdummy] at hkept
  · rw [Table.reals, hall]
    simpa [Table.reals] using hperm

/-- However the messages refer to each other: every loop ends, no message is lost, and none is in
two places or above itself. -/
theorem thread_keeps (messages : List Message) :
    Ends (thread · messages) fun r => Threaded messages r.1 r.2 := by
  have hstart : Good threadalloc := by
    have hlinked : Linked threadalloc.links fun _ => [] :=
      ⟨by simp, by simp [threadalloc], fun _ => rfl, fun _ => rfl, fun _ => trivial⟩
    refine ⟨⟨_, hlinked⟩, ⟨fun m => ⟨m, fun p hp => ?_⟩⟩, fun m p hp => ?_, fun n m hm => ?_⟩
    · cases hp
    · cases hp
    · cases hm
  have hmessages : Ends (fun fuel => messages.foldlM (threadmsg fuel) threadalloc) fun mt =>
      Good mt ∧ mt.reals.Perm (messages.map Message.seqnum) :=
    Ends.foldlM (I := fun l mt => Good mt ∧ mt.reals.Perm (l.map Message.seqnum))
      (fun l m mt hmt => (threadmsg_ends hmt.1 m).mono fun _ hnext => ⟨hnext.1, by
        rw [List.map_append]
        exact hnext.2.trans ((hmt.2.cons _).trans (List.perm_append_singleton _ _).symm)⟩)
      ⟨hstart, .refl _⟩ messages
  refine hmessages.bind fun mt hmt => (threadprune_ends hmt.1).bind fun mt' hmt' => ?_
  exact Ends.pure (threadgetroot_threaded hmt'.1 (reals_congr hmt'.2 ▸ hmt.2))

end Pointers

end Cone.Imaprefs
