import Cone.MaildirkeywordsClear
import Cone.MaildirkeywordsFind

/-! # The keyword table over whole runs (`maildir/maildirkeywords.c`) -/
set_option autoImplicit false
namespace Cone.Maildirkeywords

open Cone.Ctype Cone.Lib.LinkedList

/-! ## Runs -/

inductive Reachable (g : Settings) : State → Prop
  | init : Reachable g kwhInit
  | create {s : State} : Reachable g s → Reachable g (kwmCreate s).2
  | setName {s : State} (km : Nat) (n : List UInt8) : Reachable g s → (s.messages km).isSome = true →
      0 ∉ n → Reachable g (kwmSetName g s km n).2
  | set {s : State} (km n : Nat) : Reachable g s → (s.messages km).isSome = true →
      (s.keywords (.entry n)).isSome = true → Reachable g (kwmSet s km (.entry n)).2
  | clearName {s : State} (km : Nat) (n : List UInt8) : Reachable g s →
      (s.messages km).isSome = true → 0 ∉ n → Reachable g (kwmClearName s km n).2
  | clearEntry {s : State} (e : Nat) : Reachable g s → (s.entries e).isSome = true →
      Reachable g (kwmClearEntry s e)
  | destroy {s : State} (km : Nat) : Reachable g s → (s.messages km).isSome = true →
      Reachable g (kwmDestroy s km)

def AllCarried (s : State) : Prop :=
  ∀ k name, nameOf s k = some name → (∃ n, k = .entry n) → ∃ e, keywordOf s e = some k

theorem messageEnds_isSome (s : State) (km : Nat) :
    (messageEnds s km).isSome = (s.messages km).isSome := Option.isSome_map

theorem laid_kwhInit (g : Settings) : Laid g kwhInit ⟨fun _ => [], fun _ => [], fun _ => []⟩ := by
  constructor
  case messages =>
    exact ⟨fun _ => trivial, (by rintro _ _ ⟨⟩),
      fun _ _ => iff_of_false List.not_mem_nil (by intro no; cases no),
      fun _ => List.nodup_nil, fun _ h => absurd rfl h⟩
  case keywords =>
    refine ⟨fun _ => trivial, fun k r hr => ?_,
      fun _ _ => iff_of_false List.not_mem_nil (by intro no; cases no),
      fun _ => List.nodup_nil, fun _ h => absurd rfl h⟩
    cases k with
    | head i => exact (Option.some.inj hr).symm
    | tail i => exact (Option.some.inj hr).symm
    | entry n => cases hr
  case chains =>
    refine ⟨fun i => ⟨rfl, rfl, trivial⟩, fun i r hr => (Option.some.inj hr).symm, fun i k => ?_,
      fun i => ?_, fun i _ => rfl⟩
    · cases k with
      | head j => simp [bucketOf, eq_comm]
      | tail j => simp [bucketOf, eq_comm]
      | entry n => simp [bucketOf, nameOf, kwhInit]
    · simp
  case sorted => exact fun _ => .nil
  case bucketSorted => exact fun _ => .nil
  case names => rintro _ _ ⟨⟩
  case real => rintro _ _ ⟨⟩
  case entryBound => rintro _ ⟨⟩
  case keywordBound => rintro _ ⟨⟩
  case messageBound => rintro _ ⟨⟩

namespace Laid
variable {g : Settings} {s : State} {L : Layout}

theorem kwmCreate (h : Laid g s L) : Laid g (kwmCreate s).2 L := by
  have hfree : messageEnds s s.messageBreak = none := by
    by_contra hne
    exact absurd (h.messageBound _ (Option.isSome_iff_ne_none.mpr hne)) (Nat.lt_irrefl _)
  have hends : messageEnds (Maildirkeywords.kwmCreate s).2 =
      store (messageEnds s) s.messageBreak (none, none) := map_store _ _ _ _
  have hmessages := h.messages.newOwner hfree
  rw [← hends] at hmessages
  refine { h with messages := hmessages, messageBound := fun q hq => ?_ }
  rw [hends] at hq
  by_cases hqk : q = s.messageBreak
  · rw [hqk]
    exact Nat.lt_succ_self _
  · rw [store_ne _ hqk] at hq
    exact Nat.lt_succ_of_lt (h.messageBound q hq)

theorem kwmSet_keywordOf (h : Laid g s L) {km n : Nat} {name : List UInt8}
    (hkm : (messageEnds s km).isSome = true) (hn : nameOf s (.entry n) = some name) :
    ∃ L', Laid g (kwmSet s km (.entry n)).2 L' ∧ nameOf (kwmSet s km (.entry n)).2 = nameOf s ∧
      (∀ q, (messageEnds (kwmSet s km (.entry n)).2 q).isSome = (messageEnds s q).isSome) ∧
      ∀ q k, (∃ e, pair (kwmSet s km (.entry n)).2 e = some (q, k)) ↔
        (∃ e, pair s e = some (q, k)) ∨ (q = km ∧ k = .entry n) := by
  obtain ⟨⟨e, he, hkey⟩, hset⟩ | ⟨-, a, b, hab, hset, hlaid⟩ := h.kwmSet_cases hkm hn
  · rw [hset]
    refine ⟨L, h, rfl, fun q => rfl, fun q k => ⟨.inl, ?_⟩⟩
    rintro (hqk | ⟨rfl, rfl⟩)
    · exact hqk
    · obtain ⟨j, hj⟩ := messageOf_eq_some.mp ((h.messages.mem q e).mp he)
      obtain ⟨q', hq'⟩ := keywordOf_eq_some.mp hkey
      rw [hj] at hq'
      obtain ⟨-, rfl⟩ := Prod.mk.inj (Option.some.inj hq')
      exact ⟨e, hj⟩
  · rw [hset]
    have hpair := @linkNew_pair s km (.entry n) b.head?
    have hends : ∀ q, (messageEnds (linkNew s km (.entry n) b.head?) q).isSome = (messageEnds s q).isSome :=
      fun q => by
        have hlast : b.head? ≠ some s.entryBreak := fun heq =>
          h.ne_entryBreak (hab ▸ List.mem_append_right a (List.mem_of_mem_head? heq)) rfl
        rw [linkNew_messageEnds hlast, modify_isSome]
    refine ⟨_, hlaid, linkNew_frame.2.1, hends, fun q k => ?_⟩
    rw [hpair]
    constructor
    · rintro ⟨e, he⟩
      by_cases heq : e = s.entryBreak
      · rw [heq, store_self] at he
        obtain ⟨rfl, rfl⟩ := Prod.mk.inj (Option.some.inj he)
        exact .inr ⟨rfl, rfl⟩
      · rw [store_ne _ heq] at he
        exact .inl ⟨e, he⟩
    · rintro (⟨e, he⟩ | ⟨rfl, rfl⟩)
      · have hne : e ≠ s.entryBreak := fun heq => by
          rw [heq, h.entryBreak_free] at he
          exact nomatch he
        exact ⟨e, by rw [store_ne _ hne, he]⟩
      · exact ⟨s.entryBreak, store_self _ _ _⟩

theorem cmp_name (h : Laid g s L) {km e : Nat} (he : e ∈ L.onMessage km) {n : List UInt8}
    (hn : 0 ∉ n) : strcmp (keywordName s (entry s e).keywordEntry) n = 0 ↔ entryName s e = n := by
  obtain ⟨j, c, hpair, hj⟩ := h.pair_of_mem he
  have hc : entryName s e = c := by
    rw [entryName, keywordOf, hpair, Option.map_some, Option.bind_some, hj]
    rfl
  rw [entryName_eq (by rw [hpair]; rfl), hc, strcmp_eq_zero (h.names j c hj) hn]

theorem kwmClearName_cases (h : Laid g s L) {km : Nat} (hkm : (messageEnds s km).isSome = true)
    {n : List UInt8} (hn : 0 ∉ n) :
    (∃ e ∈ L.onMessage km, entryName s e = n ∧
      kwmClearName s km n = (0, Maildirkeywords.kwmClearEntry s e)) ∨
    ((∀ e ∈ L.onMessage km, entryName s e ≠ n) ∧ kwmClearName s km n = (1, s)) := by
  rw [kwmClearName, h.walk_onMessage hkm]
  cases hfind : (L.onMessage km).find?
      fun e => decide (strcmp (keywordName s (entry s e).keywordEntry) n = 0) with
  | some e =>
      have he := List.mem_of_find?_eq_some hfind
      have hp := List.find?_some hfind
      exact .inl ⟨e, he, (h.cmp_name he hn).mp (of_decide_eq_true hp), rfl⟩
  | none =>
      refine .inr ⟨fun e he heq => ?_, rfl⟩
      have hp := List.find?_eq_none.mp hfind e he
      rw [decide_eq_true_eq, h.cmp_name he hn] at hp
      exact hp heq

end Laid

/-! ## The invariant over runs -/

def Kept (g : Settings) (s : State) : Prop := (∃ L, Laid g s L) ∧ AllCarried s

section Kept
variable {g : Settings} {s t : State}

theorem AllCarried.clears {gone : Nat → Prop} (h : AllCarried s) (hclears : Clears s t gone) :
    AllCarried t := fun k name hname hk => by
  obtain ⟨hname', ht | hs⟩ := (hclears.name_iff k name).mp hname
  · exact ht
  · obtain ⟨e, he⟩ := h k name hname' hk
    exact absurd he (hs e)

namespace Kept

theorem kwmSet (h : Kept g s) {km n : Nat} (hkm : (s.messages km).isSome = true)
    (hn : (s.keywords (.entry n)).isSome = true) : Kept g (kwmSet s km (.entry n)).2 := by
  obtain ⟨⟨L, hlaid⟩, hcarried⟩ := h
  rw [← messageEnds_isSome] at hkm
  obtain ⟨c, hc⟩ := Option.isSome_iff_exists.mp hn
  have hname : nameOf s (.entry n) = some c.name := congrArg (Option.map _) hc
  obtain ⟨L', hlaid', hnames, -, hpairs⟩ := hlaid.kwmSet_keywordOf hkm hname
  refine ⟨⟨L', hlaid'⟩, fun k a hk hentry => ?_⟩
  rw [hnames] at hk
  obtain ⟨e, he⟩ := hcarried k a hk hentry
  obtain ⟨q, hq⟩ := keywordOf_eq_some.mp he
  obtain ⟨e', he'⟩ := (hpairs q k).mpr (.inl ⟨e, hq⟩)
  exact ⟨e', keywordOf_eq_some.mpr ⟨q, he'⟩⟩

theorem kwmSetName (h : Kept g s) {km : Nat} {n : List UInt8} (hkm : (s.messages km).isSome = true)
    (hn : 0 ∉ n) : Kept g (kwmSetName g s km n).2 := by
  obtain ⟨⟨L, hlaid⟩, hcarried⟩ := h
  obtain ⟨k, a, hk, -, hfind⟩ | ⟨-, -, hnew⟩ := hlaid.kweFind_cases hn true
  · rw [Maildirkeywords.kwmSetName, hfind]
    refine Kept.kwmSet ⟨⟨L, hlaid⟩, hcarried⟩ hkm ?_
    rw [← Option.isSome_map (f := fun c : KeywordEntry => c.name)]
    exact Option.isSome_iff_exists.mpr ⟨a, hk⟩
  · obtain ⟨t, L', hfind, hlaid', hpair, hends, hnames⟩ := hnew rfl
    rw [Maildirkeywords.kwmSetName, hfind]
    rw [← messageEnds_isSome, ← hends] at hkm
    have hkey : nameOf t (.entry s.keywordBreak) = some (fixName g n) := by rw [hnames, store_self]
    obtain ⟨L'', hlaid'', hnames', -, hpairs⟩ := hlaid'.kwmSet_keywordOf hkm hkey
    refine ⟨⟨L'', hlaid''⟩, fun k c hc hentry => ?_⟩
    rw [hnames', hnames] at hc
    by_cases hkn : k = .entry s.keywordBreak
    · obtain ⟨e, he⟩ := (hpairs km k).mpr (.inr ⟨rfl, hkn⟩)
      exact ⟨e, keywordOf_eq_some.mpr ⟨km, he⟩⟩
    · rw [store_ne _ hkn] at hc
      obtain ⟨e, he⟩ := hcarried k c hc hentry
      obtain ⟨q, hq⟩ := keywordOf_eq_some.mp he
      obtain ⟨e', he'⟩ := (hpairs q k).mpr (.inl ⟨e, hpair ▸ hq⟩)
      exact ⟨e', keywordOf_eq_some.mpr ⟨q, he'⟩⟩

theorem kwmClearEntry (h : Kept g s) {e : Nat} (he : (s.entries e).isSome = true) :
    Kept g (kwmClearEntry s e) := by
  obtain ⟨⟨L, hlaid⟩, hcarried⟩ := h
  obtain ⟨c, hc⟩ := Option.isSome_iff_exists.mp he
  have hpair : pair s e = some (c.message, c.keywordEntry) := congrArg (Option.map _) hc
  obtain ⟨L', hlaid', hclears⟩ := hlaid.kwmClearEntry hpair
  exact ⟨⟨L', hlaid'⟩, hcarried.clears hclears⟩

theorem kwmDestroy (h : Kept g s) {km : Nat} (hkm : (s.messages km).isSome = true) :
    Kept g (kwmDestroy s km) := by
  obtain ⟨⟨L, hlaid⟩, hcarried⟩ := h
  rw [← messageEnds_isSome] at hkm
  obtain ⟨L', u, hlaid', hclears, hpair, hnames, -⟩ := hlaid.kwmDestroy hkm
  refine ⟨⟨L', hlaid'⟩, fun k name hk hentry => ?_⟩
  rw [hnames] at hk
  obtain ⟨e, he⟩ := hcarried.clears hclears k name hk hentry
  refine ⟨e, ?_⟩
  rw [keywordOf, hpair]
  exact he

theorem of_reachable (h : Reachable g s) : Kept g s := by
  induction h with
  | init =>
      refine ⟨⟨_, laid_kwhInit g⟩, fun k name hname hk => ?_⟩
      obtain ⟨n, rfl⟩ := hk
      exact nomatch hname
  | create _ ih =>
      obtain ⟨⟨L, hlaid⟩, hcarried⟩ := ih
      exact ⟨⟨L, hlaid.kwmCreate⟩, hcarried⟩
  | setName km n _ hkm hn ih => exact ih.kwmSetName hkm hn
  | set km n _ hkm hn ih => exact ih.kwmSet hkm hn
  | clearName km n _ hkm hn ih =>
      obtain ⟨⟨L, hlaid⟩, hcarried⟩ := ih
      rw [← messageEnds_isSome] at hkm
      obtain ⟨e, he, -, hclear⟩ | ⟨-, hsame⟩ := hlaid.kwmClearName_cases hkm hn
      · rw [hclear]
        refine Kept.kwmClearEntry ⟨⟨L, hlaid⟩, hcarried⟩ ?_
        obtain ⟨_, _, hpair, -⟩ := hlaid.pair_of_mem he
        rw [← Option.isSome_map (f := fun c : MessageEntry => (c.message, c.keywordEntry))]
        exact Option.isSome_iff_exists.mpr ⟨_, hpair⟩
      · rw [hsame]
        exact ⟨⟨L, hlaid⟩, hcarried⟩
  | clearEntry e _ he ih => exact ih.kwmClearEntry he
  | destroy km _ hkm ih => exact ih.kwmDestroy hkm

end Kept

end Kept

/-! ## Comparing messages, and the empty table -/

section Compare
variable {g : Settings} {s : State} {L : Layout}

theorem cmpLoop_eq_zero {before before' : Option Nat} {l m : List Nat}
    (hl : Seg (messageLinks s) before none l) (hm : Seg (messageLinks s) before' none m)
    (hcmp : ∀ d ∈ l, ∀ e ∈ m, strcmp (keywordName s (entry s d).keywordEntry)
      (keywordName s (entry s e).keywordEntry) = 0 ↔ entryName s d = entryName s e)
    {fuel : Nat} (hfuel : l.length < fuel) :
    cmpLoop s fuel l.head? m.head? = 0 ↔ l.map (entryName s) = m.map (entryName s) := by
  induction l generalizing before before' m fuel with
  | nil =>
      cases fuel with
      | zero => exact absurd hfuel (Nat.not_lt_zero _)
      | succ fuel =>
          cases m with
          | nil => exact iff_of_true rfl rfl
          | cons e m => exact iff_of_false (show (-1 : Int) ≠ 0 by decide) nofun
  | cons d l ih =>
      cases fuel with
      | zero => exact absurd hfuel (Nat.not_lt_zero _)
      | succ fuel =>
          cases m with
          | nil => exact iff_of_false (show (-1 : Int) ≠ 0 by decide) nofun
          | cons e m =>
              have hd : (entry s d).next = l.head? := by
                rw [(entry_of_messageLinks hl.1).1, Option.or_none]
              have he : (entry s e).next = m.head? := by
                rw [(entry_of_messageLinks hm.1).1, Option.or_none]
              rw [List.head?_cons, List.head?_cons, cmpLoop, List.map_cons, List.map_cons,
                List.cons.injEq, ← hcmp d List.mem_cons_self e List.mem_cons_self]
              by_cases hzero : strcmp (keywordName s (entry s d).keywordEntry)
                  (keywordName s (entry s e).keywordEntry) = 0
              · rw [if_neg (not_not.mpr hzero), hd, he, ih hl.2 hm.2 (fun x hx y hy =>
                  hcmp x (List.mem_cons_of_mem d hx) y (List.mem_cons_of_mem e hy))
                  (Nat.lt_of_succ_lt_succ hfuel)]
                exact ⟨fun heq => ⟨hzero, heq⟩, And.right⟩
              · rw [if_pos hzero]
                exact iff_of_false (by decide) fun heq => hzero heq.1

theorem sorted_eq_iff {l m : List (List UInt8)} (hl : l.Pairwise fun a b => strcmp a b < 0)
    (hm : m.Pairwise fun a b => strcmp a b < 0) : l = m ↔ ∀ a, a ∈ l ↔ a ∈ m := by
  refine ⟨fun h a => h ▸ Iff.rfl, fun h => ?_⟩
  have hnodup : ∀ l : List (List UInt8), l.Pairwise (fun a b => strcmp a b < 0) → l.Nodup :=
    fun l hl => hl.imp fun {a b} hab heq => by
      rw [heq, strcmp_self] at hab
      exact absurd hab (Int.lt_irrefl 0)
  have hperm := (List.perm_ext_iff_of_nodup (hnodup l hl) (hnodup m hm)).mpr h
  refine hperm.eq_of_pairwise (fun a b _ _ hab hba => ?_) hl hm
  have habs := strcmp_trans hab hba
  rw [strcmp_self] at habs
  exact absurd habs (Int.lt_irrefl 0)

namespace Laid

theorem kwmCmp_eq_zero (h : Laid g s L) {km km' : Nat} (hkm : (messageEnds s km).isSome = true)
    (hkm' : (messageEnds s km').isSome = true) :
    kwmCmp s km km' = 0 ↔ ∀ a, (∃ e ∈ L.onMessage km, entryName s e = a) ↔
      ∃ e ∈ L.onMessage km', entryName s e = a := by
  have hfirst : ∀ q, (messageEnds s q).isSome = true →
      (message s q).firstEntry = (L.onMessage q).head? := fun q hq => by
    obtain ⟨ends, hends⟩ := Option.isSome_iff_exists.mp hq
    exact (message_of_ends (h.messages.ends_eq q ends hends ▸ hends)).1
  rw [kwmCmp, hfirst km hkm, hfirst km' hkm', cmpLoop_eq_zero (h.messages.linked km)
    (h.messages.linked km') (fun d hd e he => ?_) (h.length_onMessage km), sorted_eq_iff]
  · simp only [List.mem_map]
  · exact List.pairwise_map.mpr (h.sorted km)
  · exact List.pairwise_map.mpr (h.sorted km')
  · obtain ⟨j, c, hpair, hj⟩ := h.pair_of_mem he
    have hc : entryName s e = c := by
      rw [entryName, keywordOf, hpair, Option.map_some, Option.bind_some, hj]
      rfl
    rw [entryName_eq (by rw [hpair]; rfl : (pair s e).isSome = true), hc]
    exact h.cmp_name hd (h.names j c hj)

theorem kwhCheck_eq_zero (h : Laid g s L) : kwhCheck s = 0 ↔ ∀ i, L.inBucket i = [] := by
  have hnext : ∀ i, ((keyword s (.head i)).next.bind fun k => (keyword s k).next).isSome =
      !(L.inBucket i).isEmpty := fun i => by
    rw [h.next_head]
    cases hi : L.inBucket i with
    | nil =>
        rw [List.nil_append, List.head?_cons, Option.bind_some, h.next_tail]
        rfl
    | cons k l =>
        rw [List.cons_append, List.head?_cons, Option.bind_some]
        exact h.next_isSome (hi ▸ List.mem_cons_self)
  simp only [kwhCheck, hnext]
  constructor
  · intro hzero i
    by_contra hne
    rw [if_pos] at hzero
    · exact absurd hzero (by decide)
    · exact List.any_eq_true.mpr ⟨i, List.mem_finRange i, by simpa using hne⟩
  · intro hnil
    rw [if_neg]
    simp [hnil]

end Laid

end Compare

/-! ## The table of a run -/

structure Consistent (s : State) (L : Layout) : Prop where
  messageList : ∀ km, (s.messages km).isSome = true →
    Seg (messageLinks s) none none (L.onMessage km) ∧
    messageEnds s km = some ((L.onMessage km).head?, (L.onMessage km).getLast?)
  increasing : ∀ km, (L.onMessage km).Pairwise fun d e => strcmp (entryName s d) (entryName s e) < 0
  keywordList : ∀ n, (s.keywords (.entry n)).isSome = true →
    Seg (keywordLinks s) none none (L.onKeyword (.entry n)) ∧
    keywordEnds s (.entry n) =
      some ((L.onKeyword (.entry n)).head?, (L.onKeyword (.entry n)).getLast?) ∧
    (L.onKeyword (.entry n)).Nodup
  bucketList : ∀ i, Seg (bucketLinks s) none none (.head i :: L.inBucket i ++ [.tail i])
  onMessage_iff : ∀ km e, e ∈ L.onMessage km ↔ messageOf s e = some km
  onKeyword_iff : ∀ k e, e ∈ L.onKeyword k ↔ keywordOf s e = some k
  samePairs : ∀ km k, (∃ e ∈ L.onMessage km, keywordOf s e = some k) ↔
    ∃ e ∈ L.onKeyword k, messageOf s e = some km
  liveMessage : ∀ km, L.onMessage km ≠ [] → (s.messages km).isSome = true
  inTable_iff : ∀ k, (∃ i, k ∈ L.inBucket i) ↔ ∃ km, ∃ e ∈ L.onMessage km, keywordOf s e = some k
  inTable_live : ∀ n, (∃ i, .entry n ∈ L.inBucket i) ↔ (s.keywords (.entry n)).isSome = true
  cmp_iff : ∀ km km', (s.messages km).isSome = true → (s.messages km').isSome = true →
    (kwmCmp s km km' = 0 ↔ ∀ a, (∃ e ∈ L.onMessage km, entryName s e = a) ↔
      ∃ e ∈ L.onMessage km', entryName s e = a)
  check_iff : kwhCheck s = 0 ↔ ∀ km, L.onMessage km = []

/-- After any calls the lists of the messages are in the order of the names, the lists of the
messages and the lists of the keywords hold the same cells, the table has the keywords that are
carried, and so messages are compared by their names and the table is checked by what is carried. -/
theorem reachable_consistent {g : Settings} {s : State} (h : Reachable g s) :
    ∃ L, Consistent s L := by
  obtain ⟨⟨L, hlaid⟩, hcarried⟩ := Kept.of_reachable h
  have hinTable : ∀ k, (∃ i, k ∈ L.inBucket i) ↔
      ∃ km, ∃ e ∈ L.onMessage km, keywordOf s e = some k := fun k => by
    constructor
    · rintro ⟨i, hi⟩
      obtain ⟨n, a, rfl, hn, -⟩ := hlaid.mem_inBucket.mp hi
      obtain ⟨e, he⟩ := hcarried _ a hn ⟨n, rfl⟩
      obtain ⟨km, hpair⟩ := keywordOf_eq_some.mp he
      exact ⟨km, e, (hlaid.messages.mem km e).mpr (messageOf_eq_some.mpr ⟨_, hpair⟩), he⟩
    · rintro ⟨km, e, he, hk⟩
      obtain ⟨n, a, hpair, hn⟩ := hlaid.pair_of_mem he
      have hkn := hk.symm.trans (keywordOf_eq_some.mpr ⟨km, hpair⟩)
      rw [Option.some.inj hkn]
      exact ⟨_, hlaid.mem_inBucket.mpr ⟨n, a, rfl, hn, rfl⟩⟩
  refine ⟨L, ?_⟩
  constructor
  case messageList =>
    intro km hkm
    rw [← messageEnds_isSome] at hkm
    obtain ⟨ends, hends⟩ := Option.isSome_iff_exists.mp hkm
    rw [hends, hlaid.messages.ends_eq km ends hends]
    exact ⟨hlaid.messages.linked km, rfl⟩
  case increasing => exact hlaid.sorted
  case keywordList =>
    intro n hn
    obtain ⟨c, hc⟩ := Option.isSome_iff_exists.mp hn
    have hends : keywordEnds s (.entry n) = some (c.firstMsg, c.lastMsg) := congrArg (Option.map _) hc
    rw [hends, hlaid.keywords.ends_eq _ _ hends]
    exact ⟨hlaid.keywords.linked _, rfl, hlaid.keywords.nodup _⟩
  case bucketList => exact hlaid.chains.linked
  case onMessage_iff => exact hlaid.messages.mem
  case onKeyword_iff => exact hlaid.keywords.mem
  case samePairs =>
    intro km k
    simp only [hlaid.messages.mem, hlaid.keywords.mem, and_comm]
  case liveMessage =>
    intro km hne
    rw [← messageEnds_isSome]
    exact hlaid.messages.live km hne
  case inTable_iff => exact hinTable
  case inTable_live =>
    intro n
    constructor
    · rintro ⟨i, hi⟩
      obtain ⟨m, a, hm, hn, -⟩ := hlaid.mem_inBucket.mp hi
      obtain ⟨c, hc, -⟩ := Option.map_eq_some_iff.mp hn
      rw [hm, hc]
      rfl
    · intro hn
      obtain ⟨c, hc⟩ := Option.isSome_iff_exists.mp hn
      exact ⟨_, hlaid.mem_inBucket.mpr ⟨n, c.name, rfl, congrArg (Option.map _) hc, rfl⟩⟩
  case cmp_iff =>
    intro km km' hkm hkm'
    rw [← messageEnds_isSome] at hkm hkm'
    exact hlaid.kwmCmp_eq_zero hkm hkm'
  case check_iff =>
    rw [hlaid.kwhCheck_eq_zero]
    constructor
    · intro hnil km
      by_contra hne
      obtain ⟨e, he⟩ := List.exists_mem_of_ne_nil _ hne
      obtain ⟨n, a, hpair, hn⟩ := hlaid.pair_of_mem he
      have hi := hlaid.mem_inBucket.mpr ⟨n, a, rfl, hn, rfl⟩
      rw [hnil] at hi
      exact List.not_mem_nil hi
    · intro hnil i
      by_contra hne
      obtain ⟨k, hk⟩ := List.exists_mem_of_ne_nil _ hne
      obtain ⟨km, e, he, -⟩ := (hinTable k).mp ⟨i, hk⟩
      rw [hnil km] at he
      exact List.not_mem_nil he

/-- Two messages, one with the keywords `b` and `a`. -/
theorem reachable_consistent_sample :
    ∃ L, Consistent (kwmSetName ⟨none, false⟩ (kwmSetName ⟨none, false⟩ (kwmCreate
      (kwmCreate kwhInit).2).2 0 [byte 'b']).2 0 [byte 'a']).2 L := by
  refine reachable_consistent (.setName 0 [byte 'a'] (.setName 0 [byte 'b'] (.create (.create .init))
    rfl (by decide)) ?_ (by decide))
  decide

end Cone.Maildirkeywords
