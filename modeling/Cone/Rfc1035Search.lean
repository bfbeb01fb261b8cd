import Cone.Rfc1035Names

/-! # Searching replies and following CNAMEs (`rfc1035/rfc1035search.c`)

A search stops at a record of the type that is asked for or at a CNAME.  The arrays of a reply are
lists, so an index beyond the answers is a fault where `anptr` takes it. -/
set_option autoImplicit false
namespace Cone.Rfc1035Search

open Cone.Ctype Cone.Rfc1035Reply
open Cone.Rfc1035Query (hostnamecmp completed)

/-- A reply, and what `rfc1035_replyhostname` reads at a pointer into it. -/
structure Answer where
  reply : Reply
  hostname : Ptr → Option (List UInt8)

abbrev RFC1035_RCODE_NOERROR : Nat := 0

section Search
variable (defaultdomain : Option (List UInt8)) (r : Answer)

def found (h : List UInt8) (qclass qtype : Nat) (rrp : RR) : Bool :=
  if (rrp.rrtype ≠ qtype ∧ rrp.rrtype ≠ RFC1035_TYPE_CNAME) ∨ rrp.rrclass ≠ qclass then false
  else
    match r.hostname rrp.rrname with
    | none => false
    | some namebuf => hostnamecmp namebuf h = 0

def searchLoop (p : RR → Bool) : Nat → List RR → Option Nat
  | _, [] => none
  | pos, rr :: rrs => if p rr then some pos else searchLoop p (pos + 1) rrs

def replysearch (rrs : List RR) (h : List UInt8) (qtype qclass pos : Nat) : Option Nat :=
  searchLoop (found r (completed defaultdomain h) qclass qtype) pos (rrs.drop pos)

def replysearchAn (h : List UInt8) (qtype qclass pos : Nat) : Option Nat :=
  replysearch defaultdomain r r.reply.anptr h qtype qclass pos

def replysearchAll (h : List UInt8) (qtype qclass pos : Nat) : Option Nat :=
  replysearch defaultdomain r r.reply.allrrs h qtype qclass pos

/-- `rfc1035_replyhostname` of `rr.domainname`. -/
def target (rr : RR) : Option (List UInt8) :=
  match rr.rr with
  | .domainname p => r.hostname p
  | _ => none

end Search

structure Search where
  reply : Answer
  n : Nat
  namebuf : List UInt8
  calls : Nat
  steps : Nat

inductive Result where
  | index (n : Nat)
  | failed
  | recursive
  deriving DecidableEq, Repr

structure Return where
  result : Result
  namebuf : List UInt8
  reply : Option Answer
  steps : Nat

section ResolveCname
variable (defaultdomain : Option (List UInt8)) (resolve : Nat → List UInt8 → Option Answer)
variable (qtype qclass : Nat)

/-- `rfc1035_resolve`, and a search of the answers. -/
def ask (namebuf : List UInt8) (calls steps : Nat) (shuffle : Answer → Answer) : Search ⊕ Return :=
  match resolve calls namebuf with
  | none => .inr ⟨.failed, namebuf, none, steps⟩
  | some reply =>
    let reply := if reply.reply.rcode = RFC1035_RCODE_NOERROR then shuffle reply else reply
    if reply.reply.rcode = RFC1035_RCODE_NOERROR then
      match replysearchAn defaultdomain reply namebuf qtype qclass 0 with
      | some n => .inl ⟨reply, n, namebuf, calls + 1, steps⟩
      | none => .inr ⟨.failed, namebuf, some reply, steps⟩
    else .inr ⟨.failed, namebuf, some reply, steps⟩

def follow (s : Search) (rr : RR) : Search ⊕ Return :=
  match target s.reply rr with
  | none => .inr ⟨.failed, str "error", none, s.steps⟩
  | some namebuf =>
    match replysearchAll defaultdomain s.reply namebuf qtype qclass 0 with
    | some n => .inl ⟨s.reply, n, namebuf, s.calls, s.steps + 1⟩
    | none => ask defaultdomain resolve qtype qclass namebuf s.calls (s.steps + 1) id

/-- The loop, from a search on: each search is followed by the same look at `anptr[n]`.  The first
argument is how often `recursion_count` can still be counted down. -/
def cnameLoop : Nat → Search → Except Fault Return
  | count, s =>
    match s.reply.reply.anptr[s.n]? with
    | none => .error .outside
    | some rr =>
      if rr.rrtype = qtype then .ok ⟨.index s.n, s.namebuf, some s.reply, s.steps⟩
      else
        match count with
        | 0 => .ok ⟨.recursive, s.namebuf, none, s.steps⟩
        | count + 1 =>
          match follow defaultdomain resolve qtype qclass s rr with
          | .inr ret => .ok ret
          | .inl s => cnameLoop count s

/-- `rfc1035_resolve_cname`; `shuffle` is what `x_flags` asks for. -/
def resolveCname (shuffle : Answer → Answer) (namebuf : List UInt8) : Except Fault Return :=
  match ask defaultdomain resolve qtype qclass namebuf 0 0 shuffle with
  | .inr ret => .ok ret
  | .inl s => cnameLoop defaultdomain resolve qtype qclass 10 s

end ResolveCname

/-! ## What is promised -/

section Promise
variable (defaultdomain : Option (List UInt8)) (resolve : Nat → List UInt8 → Option Answer)
variable (qtype qclass : Nat) (shuffle : Answer → Answer)

def Received (a : Answer) : Prop :=
  ∃ i h reply, resolve i h = some reply ∧ (a = reply ∨ a = shuffle reply)

inductive Chain : Nat → List UInt8 → List UInt8 → Prop
  | here (h : List UInt8) : Chain 0 h h
  | step {k : Nat} {start h owner next : List UInt8} (a : Answer) (rr : RR)
      (before : Chain k start h) (received : Received resolve shuffle a)
      (answer : rr ∈ a.reply.anptr) (cname : rr.rrtype = RFC1035_TYPE_CNAME)
      (sameClass : rr.rrclass = qclass) (named : a.hostname rr.rrname = some owner)
      (same : hostnamecmp owner (completed defaultdomain h) = 0)
      (points : target a rr = some next) : Chain (k + 1) start next

structure Right (start : List UInt8) (ret : Return) (n : Nat) : Prop where
  record : ∃ a rr owner, ret.reply = some a ∧ a.reply.anptr[n]? = some rr ∧ rr.rrtype = qtype ∧
    rr.rrclass = qclass ∧ a.hostname rr.rrname = some owner ∧ hostnamecmp owner ret.namebuf = 0
  chain : Chain defaultdomain resolve qclass shuffle ret.steps start ret.namebuf

def Resolves (start : List UInt8) (run : Except Fault Return) : Prop :=
  ∃ ret, run = .ok ret ∧ ret.steps ≤ 10 ∧
    ∀ n, ret.result = .index n → Right defaultdomain resolve qtype qclass shuffle start ret n

def Sound (s : Search) : Prop :=
  s.n < s.reply.reply.anptr.length ∧
    ∀ rr, s.reply.reply.anptr[s.n]? = some rr → rr.rrtype = qtype →
      hostnamecmp (completed defaultdomain s.namebuf) s.namebuf = 0

def Next (s s' : Search) : Prop :=
  ∃ rr, s.reply.reply.anptr[s.n]? = some rr ∧ rr.rrtype ≠ qtype ∧
    follow defaultdomain resolve qtype qclass s rr = .inl s'

inductive Later : Nat → Search → Search → Prop
  | now (s : Search) : Later 0 s s
  | next {k : Nat} {s s' t : Search} (one : Next defaultdomain resolve qtype qclass s s')
      (rest : Later k s' t) : Later (k + 1) s t

end Promise

/-! ## Searches -/

section Found
variable {defaultdomain : Option (List UInt8)} {r : Answer}

theorem found_iff (h : List UInt8) (qclass qtype : Nat) (rrp : RR) :
    found r h qclass qtype rrp = true ↔
      (rrp.rrtype = qtype ∨ rrp.rrtype = RFC1035_TYPE_CNAME) ∧ rrp.rrclass = qclass ∧
        ∃ owner, r.hostname rrp.rrname = some owner ∧ hostnamecmp owner h = 0 := by
  rw [found]
  by_cases other : (rrp.rrtype ≠ qtype ∧ rrp.rrtype ≠ RFC1035_TYPE_CNAME) ∨ rrp.rrclass ≠ qclass
  · rw [if_pos other]
    refine iff_of_false Bool.false_ne_true ?_
    rintro ⟨type, sameClass, -⟩
    rcases other with ⟨notType, notCname⟩ | notClass
    · exact type.elim notType notCname
    · exact notClass sameClass
  · rw [if_neg other]
    obtain ⟨type, sameClass⟩ := not_or.mp other
    have type' : rrp.rrtype = qtype ∨ rrp.rrtype = RFC1035_TYPE_CNAME := by
      by_cases h : rrp.rrtype = qtype
      · exact Or.inl h
      · exact Or.inr (not_not.mp fun h' => type ⟨h, h'⟩)
    rw [and_iff_right type', and_iff_right (not_not.mp sameClass)]
    cases r.hostname rrp.rrname with
    | none => exact iff_of_false Bool.false_ne_true nofun
    | some namebuf => simp

theorem searchLoop_eq_some {p : RR → Bool} {rrs : List RR} {pos n : Nat}
    (h : searchLoop p pos rrs = some n) :
    ∃ rr, rrs[n - pos]? = some rr ∧ p rr = true ∧ pos ≤ n := by
  induction rrs generalizing pos with
  | nil => cases h
  | cons rr rrs ih =>
      rw [searchLoop] at h
      by_cases here : p rr = true
      · rw [if_pos here] at h
        obtain rfl := Option.some.inj h
        exact ⟨rr, by rw [Nat.sub_self]; rfl, here, Nat.le_refl _⟩
      · rw [if_neg here] at h
        obtain ⟨rr', at', hit, le⟩ := ih h
        refine ⟨rr', ?_, hit, Nat.le_of_succ_le le⟩
        rw [show n - pos = (n - (pos + 1)) + 1 by omega, List.getElem?_cons_succ, at']

theorem replysearch_eq_some {rrs : List RR} {h : List UInt8} {qtype qclass n : Nat}
    (hit : replysearch defaultdomain r rrs h qtype qclass 0 = some n) :
    ∃ rr, rrs[n]? = some rr ∧ found r (completed defaultdomain h) qclass qtype rr = true := by
  obtain ⟨rr, at', hit', -⟩ := searchLoop_eq_some hit
  exact ⟨rr, by simpa using at', hit'⟩

theorem hostnamecmp_trans {p q s : List UInt8} (h : hostnamecmp p q = 0) (h' : hostnamecmp p s = 0) :
    hostnamecmp q s = 0 := by
  rw [Rfc1035Query.hostnamecmp_eq_zero_iff] at h h' ⊢
  exact h.symm.trans h'

end Found

/-! ## The chain -/

section Runs
variable {defaultdomain : Option (List UInt8)} {resolve : Nat → List UInt8 → Option Answer}
variable {qtype qclass : Nat} {shuffle : Answer → Answer} {start : List UInt8}

structure Arrived (defaultdomain : Option (List UInt8)) (resolve : Nat → List UInt8 → Option Answer)
    (qtype qclass : Nat) (shuffle : Answer → Answer) (start : List UInt8) (s : Search) : Prop where
  chain : Chain defaultdomain resolve qclass shuffle s.steps start s.namebuf
  received : Received resolve shuffle s.reply
  hit : ∃ rr, s.reply.reply.allrrs[s.n]? = some rr ∧
    found s.reply (completed defaultdomain s.namebuf) qclass qtype rr = true

/-- An index of an answer is its index among all records. -/
theorem allrrs_of_anptr {r : Reply} {n : Nat} {rr : RR} (h : r.anptr[n]? = some rr) :
    r.allrrs[n]? = some rr := by
  have lt := (List.getElem?_eq_some_iff.mp h).1
  rw [Reply.allrrs, List.append_assoc, List.getElem?_append_left lt, h]

theorem Arrived.record {s : Search}
    (h : Arrived defaultdomain resolve qtype qclass shuffle start s) {rr : RR}
    (at' : s.reply.reply.anptr[s.n]? = some rr) :
    found s.reply (completed defaultdomain s.namebuf) qclass qtype rr = true := by
  obtain ⟨rr', all, hit⟩ := h.hit
  obtain rfl := Option.some.inj ((allrrs_of_anptr at').symm.trans all)
  exact hit

theorem ask_found {namebuf : List UInt8} {calls steps : Nat} {shuffle' : Answer → Answer}
    (either : ∀ a, shuffle' a = a ∨ shuffle' a = shuffle a) {s : Search}
    (h : ask defaultdomain resolve qtype qclass namebuf calls steps shuffle' = .inl s) :
    s.namebuf = namebuf ∧ s.steps = steps ∧ Received resolve shuffle s.reply ∧
      ∃ rr, s.reply.reply.allrrs[s.n]? = some rr ∧
        found s.reply (completed defaultdomain s.namebuf) qclass qtype rr = true := by
  rw [ask] at h
  cases asked : resolve calls namebuf with
  | none => rw [asked] at h; cases h
  | some reply =>
      have received : Received resolve shuffle
          (if reply.reply.rcode = RFC1035_RCODE_NOERROR then shuffle' reply else reply) := by
        refine ⟨calls, namebuf, reply, asked, ?_⟩
        split
        · exact either reply
        · exact Or.inl rfl
      simp only [asked] at h
      generalize (if reply.reply.rcode = RFC1035_RCODE_NOERROR then shuffle' reply else reply) = a
        at received h
      by_cases rcode : a.reply.rcode = RFC1035_RCODE_NOERROR
      · rw [if_pos rcode] at h
        cases search : replysearchAn defaultdomain a namebuf qtype qclass 0 with
        | none => rw [search] at h; cases h
        | some n =>
            rw [search] at h
            cases h
            obtain ⟨rr, at', hit⟩ := replysearch_eq_some search
            exact ⟨rfl, rfl, received, rr, allrrs_of_anptr at', hit⟩
      · rw [if_neg rcode] at h
        cases h

theorem ask_failed {namebuf : List UInt8} {calls steps : Nat} {shuffle' : Answer → Answer}
    {ret : Return}
    (h : ask defaultdomain resolve qtype qclass namebuf calls steps shuffle' = .inr ret) :
    ret.result = .failed ∧ ret.steps = steps := by
  rw [ask] at h
  cases asked : resolve calls namebuf with
  | none =>
      rw [asked] at h
      cases h
      exact ⟨rfl, rfl⟩
  | some reply =>
      simp only [asked] at h
      generalize (if reply.reply.rcode = RFC1035_RCODE_NOERROR then shuffle' reply else reply) = a at h
      by_cases rcode : a.reply.rcode = RFC1035_RCODE_NOERROR
      · rw [if_pos rcode] at h
        cases search : replysearchAn defaultdomain a namebuf qtype qclass 0 with
        | none =>
            rw [search] at h
            cases h
            exact ⟨rfl, rfl⟩
        | some n => rw [search] at h; cases h
      · rw [if_neg rcode] at h
        cases h
        exact ⟨rfl, rfl⟩

theorem Arrived.follow {s s' : Search}
    (h : Arrived defaultdomain resolve qtype qclass shuffle start s)
    (next : Next defaultdomain resolve qtype qclass s s') :
    Arrived defaultdomain resolve qtype qclass shuffle start s' ∧ s'.steps = s.steps + 1 := by
  obtain ⟨rr, at', other, next⟩ := next
  obtain ⟨type, sameClass, owner, named, same⟩ := (found_iff _ _ _ _).mp (h.record at')
  rw [Rfc1035Search.follow] at next
  cases points : target s.reply rr with
  | none => rw [points] at next; cases next
  | some namebuf =>
      rw [points] at next
      have chain := Chain.step s.reply rr h.chain h.received (List.mem_of_getElem? at')
        (type.resolve_left other) sameClass named same points
      cases search : replysearchAll defaultdomain s.reply namebuf qtype qclass 0 with
      | some n =>
          simp only [search] at next
          obtain rfl := Sum.inl.inj next
          exact ⟨⟨chain, h.received, replysearch_eq_some search⟩, rfl⟩
      | none =>
          simp only [search] at next
          obtain ⟨rfl, steps, received, hit⟩ := ask_found (fun a => Or.inl rfl) next
          exact ⟨⟨steps ▸ chain, received, hit⟩, steps⟩

theorem follow_failed {s : Search} {rr : RR} {ret : Return}
    (h : follow defaultdomain resolve qtype qclass s rr = .inr ret) :
    ret.result = .failed ∧ ret.steps ≤ s.steps + 1 := by
  rw [follow] at h
  split at h
  · cases h
    exact ⟨rfl, Nat.le_succ _⟩
  · split at h
    · cases h
    · obtain ⟨result, steps⟩ := ask_failed h
      exact ⟨result, Nat.le_of_eq steps⟩

theorem resolves_of_other {ret : Return} (steps : ret.steps ≤ 10) (other : ∀ n, ret.result ≠ .index n) :
    Resolves defaultdomain resolve qtype qclass shuffle start (.ok ret) :=
  ⟨ret, rfl, steps, fun n h => absurd h (other n)⟩

theorem resolves_index_iff {s : Search}
    (h : Arrived defaultdomain resolve qtype qclass shuffle start s) (steps : s.steps ≤ 10) {rr : RR}
    (at' : s.reply.reply.anptr[s.n]? = some rr) (type : rr.rrtype = qtype) :
    Resolves defaultdomain resolve qtype qclass shuffle start
      (.ok ⟨.index s.n, s.namebuf, some s.reply, s.steps⟩) ↔ Sound defaultdomain qtype s := by
  obtain ⟨-, sameClass, owner, named, same⟩ := (found_iff _ _ _ _).mp (h.record at')
  constructor
  · rintro ⟨ret, same', -, right⟩
    obtain rfl := Except.ok.inj same'
    obtain ⟨⟨a, rr', owner', reply, at'', -, -, named', same'⟩, -⟩ := right s.n rfl
    obtain rfl := Option.some.inj reply
    obtain rfl := Option.some.inj (at'.symm.trans at'')
    obtain rfl := Option.some.inj (named.symm.trans named')
    exact ⟨(List.getElem?_eq_some_iff.mp at').1, fun _ _ _ => hostnamecmp_trans same same'⟩
  · rintro ⟨-, noDefault⟩
    refine ⟨_, rfl, steps, fun n index => ?_⟩
    cases index
    refine ⟨⟨s.reply, rr, owner, rfl, at', type, sameClass, named, ?_⟩, h.chain⟩
    have swap := noDefault rr at' type
    rw [Rfc1035Query.hostnamecmp_eq_zero_iff] at same swap ⊢
    exact same.trans swap

theorem Next.unique {s t t' : Search} (h : Next defaultdomain resolve qtype qclass s t)
    (h' : Next defaultdomain resolve qtype qclass s t') : t = t' := by
  obtain ⟨rr, at', -, next⟩ := h
  obtain ⟨rr', at'', -, next'⟩ := h'
  obtain rfl := Option.some.inj (at'.symm.trans at'')
  exact Sum.inl.inj (next.symm.trans next')

theorem later_sound_last {s : Search} {count : Nat}
    (last : ∀ t, ¬ Next defaultdomain resolve qtype qclass s t) :
    (∀ k ≤ count, ∀ t, Later defaultdomain resolve qtype qclass k s t → Sound defaultdomain qtype t) ↔
      Sound defaultdomain qtype s := by
  constructor
  · exact fun h => h 0 (Nat.zero_le _) s (.now s)
  · intro sound k _ t later
    cases later with
    | now => exact sound
    | next one => exact absurd one (last _)

theorem later_sound_next {s s' : Search} {count : Nat} (sound : Sound defaultdomain qtype s)
    (next : Next defaultdomain resolve qtype qclass s s') :
    (∀ k ≤ count + 1, ∀ t, Later defaultdomain resolve qtype qclass k s t →
      Sound defaultdomain qtype t) ↔
      ∀ k ≤ count, ∀ t, Later defaultdomain resolve qtype qclass k s' t →
        Sound defaultdomain qtype t := by
  constructor
  · exact fun h k le t later => h (k + 1) (Nat.succ_le_succ le) t (.next next later)
  · intro h k le t later
    cases later with
    | now => exact sound
    | next one rest =>
        obtain rfl := next.unique one
        exact h _ (Nat.le_of_succ_le_succ le) t rest

theorem no_next {s : Search} {rr : RR} (at' : s.reply.reply.anptr[s.n]? = some rr)
    (type : rr.rrtype = qtype) : ∀ t, ¬ Next defaultdomain resolve qtype qclass s t := by
  rintro t ⟨rr', at'', other, -⟩
  obtain rfl := Option.some.inj (at'.symm.trans at'')
  exact other type

theorem sound_of_other {s : Search} {rr : RR} (at' : s.reply.reply.anptr[s.n]? = some rr)
    (other : rr.rrtype ≠ qtype) : Sound defaultdomain qtype s := by
  refine ⟨(List.getElem?_eq_some_iff.mp at').1, fun rr' at'' type => ?_⟩
  obtain rfl := Option.some.inj (at'.symm.trans at'')
  exact absurd type other

theorem outside_iff {s : Search} {count : Nat} (outside : s.reply.reply.anptr[s.n]? = none) :
    Resolves defaultdomain resolve qtype qclass shuffle start (.error .outside) ↔
      ∀ k ≤ count, ∀ t, Later defaultdomain resolve qtype qclass k s t →
        Sound defaultdomain qtype t := by
  refine iff_of_false ?_ fun h => ?_
  · rintro ⟨ret, impossible, -⟩
    cases impossible
  · have inside := (h 0 (Nat.zero_le _) s (.now s)).1
    exact absurd inside (Nat.not_lt.mpr (List.getElem?_eq_none_iff.mp outside))

theorem cnameLoop_iff {count : Nat} {s : Search}
    (h : Arrived defaultdomain resolve qtype qclass shuffle start s) (steps : s.steps + count ≤ 10) :
    Resolves defaultdomain resolve qtype qclass shuffle start
        (cnameLoop defaultdomain resolve qtype qclass count s) ↔
      ∀ k ≤ count, ∀ t, Later defaultdomain resolve qtype qclass k s t →
        Sound defaultdomain qtype t := by
  induction count generalizing s with
  | zero =>
      rw [cnameLoop]
      cases at' : s.reply.reply.anptr[s.n]? with
      | none => exact outside_iff at'
      | some rr =>
          simp only []
          by_cases type : rr.rrtype = qtype
          · rw [if_pos type, resolves_index_iff h (by omega) at' type,
              later_sound_last (no_next at' type)]
          · rw [if_neg type]
            refine iff_of_true (resolves_of_other (by simpa using steps) nofun) ?_
            intro k le t later
            obtain rfl := Nat.le_zero.mp le
            cases later
            exact sound_of_other at' type
  | succ count ih =>
      rw [cnameLoop]
      cases at' : s.reply.reply.anptr[s.n]? with
      | none => exact outside_iff at'
      | some rr =>
          simp only []
          by_cases type : rr.rrtype = qtype
          · rw [if_pos type, resolves_index_iff h (by omega) at' type,
              later_sound_last (no_next at' type)]
          · rw [if_neg type]
            cases next : follow defaultdomain resolve qtype qclass s rr with
            | inr ret =>
                obtain ⟨result, le⟩ := follow_failed next
                have last : ∀ t, ¬ Next defaultdomain resolve qtype qclass s t := by
                  rintro t ⟨rr', at'', -, next'⟩
                  obtain rfl := Option.some.inj (at'.symm.trans at'')
                  cases next.symm.trans next'
                rw [later_sound_last last]
                refine iff_of_true (resolves_of_other (by omega) fun n h => ?_)
                  (sound_of_other at' type)
                rw [result] at h
                cases h
            | inl s' =>
                have next' : Next defaultdomain resolve qtype qclass s s' := ⟨rr, at', type, next⟩
                obtain ⟨h', steps'⟩ := h.follow next'
                rw [later_sound_next (sound_of_other at' type) next']
                exact ih h' (by omega)

/-- The promise is kept if and only if every search of the run has stopped in the answer section,
and the one that found the record was not for a name that the default domain changes. -/
theorem resolveCname_iff (defaultdomain : Option (List UInt8))
    (resolve : Nat → List UInt8 → Option Answer) (qtype qclass : Nat) (shuffle : Answer → Answer)
    (start : List UInt8) :
    Resolves defaultdomain resolve qtype qclass shuffle start
        (resolveCname defaultdomain resolve qtype qclass shuffle start) ↔
      ∀ s, ask defaultdomain resolve qtype qclass start 0 0 shuffle = .inl s →
        ∀ k ≤ 10, ∀ t, Later defaultdomain resolve qtype qclass k s t →
          Sound defaultdomain qtype t := by
  rw [resolveCname]
  cases asked : ask defaultdomain resolve qtype qclass start 0 0 shuffle with
  | inr ret =>
      obtain ⟨result, steps⟩ := ask_failed asked
      refine iff_of_true (resolves_of_other (by omega) fun n h => ?_) nofun
      rw [result] at h
      cases h
  | inl s =>
      obtain ⟨name, steps, received, hit⟩ := ask_found (fun a => Or.inr rfl) asked
      have arrived : Arrived defaultdomain resolve qtype qclass shuffle start s :=
        ⟨steps ▸ name ▸ Chain.here _, received, hit⟩
      rw [cnameLoop_iff arrived (by omega)]
      constructor
      · rintro h t ⟨⟩
        exact h
      · exact fun h => h s rfl

end Runs

def aliasReply : Reply where
  rd := 1
  tc := 0
  aa := 0
  opcode := 0
  qr := 1
  ra := 1
  rcode := 0
  qdcount := 0
  ancount := 1
  nscount := 0
  arcount := 1
  qdptr := []
  anptr := [⟨⟨.reply, 12⟩, RFC1035_TYPE_CNAME, RFC1035_CLASS_IN, 0, 3, ⟨.reply, 25⟩,
    .domainname ⟨.reply, 25⟩⟩]
  nsptr := []
  arptr := [⟨⟨.reply, 25⟩, RFC1035_TYPE_A, RFC1035_CLASS_IN, 0, 4, ⟨.reply, 41⟩,
    .inaddr [127, 0, 0, 1]⟩]

def aliasAnswer : Answer where
  reply := aliasReply
  hostname p := if p.off = 12 then some (str "a") else some (str "b")

theorem additional_outside :
    resolveCname none (fun _ _ => some aliasAnswer) RFC1035_TYPE_A RFC1035_CLASS_IN id (str "a") =
      .error .outside ∧
    ¬ Resolves none (fun _ _ => some aliasAnswer) RFC1035_TYPE_A RFC1035_CLASS_IN id (str "a")
      (resolveCname none (fun _ _ => some aliasAnswer) RFC1035_TYPE_A RFC1035_CLASS_IN id (str "a")) := by
  have same : ∀ s, hostnamecmp s s = 0 := fun s =>
    (Rfc1035Query.hostnamecmp_eq_zero_iff s s).mpr rfl
  have other : hostnamecmp (str "a") (str "b") = 1 := by
    rw [show str "a" = [0x61] from rfl, show str "b" = [0x62] from rfl, hostnamecmp]
    decide
  have run : resolveCname none (fun _ _ => some aliasAnswer) RFC1035_TYPE_A RFC1035_CLASS_IN id
      (str "a") = .error .outside := by
    simp [resolveCname, ask, replysearchAn, replysearch, searchLoop, found, aliasAnswer, aliasReply,
      same, other, completed, cnameLoop, follow, target, replysearchAll, Reply.allrrs]
  refine ⟨run, ?_⟩
  rw [run]
  rintro ⟨ret, impossible, -⟩
  cases impossible

end Cone.Rfc1035Search
