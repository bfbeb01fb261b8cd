import Cone.MaildirkeywordsLinks
import Mathlib.Data.List.Pairwise

/-! # The lists of messages and keywords (`maildir/maildirkeywords.c`)

The lists that the pointers describe, and how each function changes them. -/
set_option autoImplicit false
namespace Cone.Maildirkeywords

open Cone.Lib.LinkedList

/-! ## The invariant -/

section Views
variable (s : State)

def messageOf (e : Nat) : Option Nat := (pair s e).map Prod.fst

def keywordOf (e : Nat) : Option KeyPtr := (pair s e).map Prod.snd

def entryName (e : Nat) : List UInt8 := ((keywordOf s e).bind (nameOf s)).getD []

def bucketOf (g : Settings) : KeyPtr → Option (Fin buckets)
  | .head i => some i
  | .tail i => some i
  | .entry n => (nameOf s (.entry n)).map (hashBucket g)

end Views

structure Layout where
  onMessage : Nat → List Nat
  onKeyword : KeyPtr → List Nat
  inBucket : Fin buckets → List KeyPtr

def bucketEnds (i : Fin buckets) : Option (Option KeyPtr × Option KeyPtr) :=
  some (some (.head i), some (.tail i))

structure Laid (g : Settings) (s : State) (L : Layout) : Prop where
  messages : Lists (messageLinks s) (messageEnds s) (messageOf s) L.onMessage
  keywords : Lists (keywordLinks s) (keywordEnds s) (keywordOf s) L.onKeyword
  chains : Lists (bucketLinks s) bucketEnds (bucketOf s g)
    fun i => .head i :: L.inBucket i ++ [.tail i]
  sorted : ∀ km, (L.onMessage km).Pairwise fun d e => strcmp (entryName s d) (entryName s e) < 0
  bucketSorted : ∀ i, (L.inBucket i).Pairwise fun j k =>
    nameCmp g (keywordName s j) (keywordName s k) < 0
  names : ∀ n name, nameOf s (.entry n) = some name → 0 ∉ name
  real : ∀ e k, keywordOf s e = some k → ∃ n, k = .entry n
  entryBound : ∀ e, (pair s e).isSome = true → e < s.entryBreak
  keywordBound : ∀ n, (nameOf s (.entry n)).isSome = true → n < s.keywordBreak
  messageBound : ∀ km, (messageEnds s km).isSome = true → km < s.messageBreak

theorem keywordName_eq (s : State) (k : KeyPtr) : keywordName s k = (nameOf s k).getD [] := by
  rw [keywordName, keyword, nameOf]
  cases s.keywords k <;> rfl

theorem entryName_eq {s : State} {e : Nat} (h : (pair s e).isSome = true) :
    keywordName s (entry s e).keywordEntry = entryName s e := by
  obtain ⟨⟨km, k⟩, hpair⟩ := Option.isSome_iff_exists.mp h
  rw [(entry_of_pair hpair).2, keywordName_eq, entryName, keywordOf, hpair]
  rfl

theorem keywordEnds_isSome (s : State) (k : KeyPtr) :
    (keywordEnds s k).isSome = (nameOf s k).isSome := by
  rw [keywordEnds, nameOf, Option.isSome_map, Option.isSome_map]

def Layout.link (L : Layout) (km : Nat) (ke : KeyPtr) (p : Nat)
    (a b : List Nat) : Layout where
  onMessage := Function.update L.onMessage km (a ++ p :: b)
  onKeyword := Function.update L.onKeyword ke (L.onKeyword ke ++ [p])
  inBucket := L.inBucket

theorem linkNew_messageOf (s : State) (km : Nat) (ke : KeyPtr) (keLast : Option Nat) :
    messageOf (linkNew s km ke keLast) = store (messageOf s) s.entryBreak km := by
  have hpair := @linkNew_pair s km ke keLast
  have hstore := map_store (pair s) s.entryBreak (km, ke) Prod.fst
  rw [← hpair] at hstore
  exact hstore

theorem linkNew_keywordOf (s : State) (km : Nat) (ke : KeyPtr) (keLast : Option Nat) :
    keywordOf (linkNew s km ke keLast) = store (keywordOf s) s.entryBreak ke := by
  have hpair := @linkNew_pair s km ke keLast
  have hstore := map_store (pair s) s.entryBreak (km, ke) Prod.snd
  rw [← hpair] at hstore
  exact hstore

theorem bucketOf_congr (g : Settings) {s t : State} (h : nameOf t = nameOf s) :
    bucketOf t g = bucketOf s g := by
  funext k
  cases k with
  | head i => rfl
  | tail i => rfl
  | entry n => rw [bucketOf, h, bucketOf]

theorem modify_bucketEnds {i : Fin buckets}
    {f : Option KeyPtr × Option KeyPtr → Option KeyPtr × Option KeyPtr}
    (hf : f (some (.head i), some (.tail i)) = (some (.head i), some (.tail i))) :
    modify bucketEnds i f = bucketEnds := by
  funext j
  by_cases hj : j = i
  · rw [hj, modify_self, bucketEnds, Option.map_some, hf]
  · rw [modify_ne _ hj]

theorem update_chain (B : Fin buckets → List KeyPtr) (i : Fin buckets) (l : List KeyPtr) :
    Function.update (fun j => KeyPtr.head j :: B j ++ [.tail j]) i (.head i :: l ++ [.tail i]) =
      fun j => .head j :: Function.update B i l j ++ [.tail j] := by
  funext j
  by_cases hj : j = i
  · rw [hj, Function.update_self, Function.update_self]
  · rw [Function.update_of_ne hj, Function.update_of_ne hj]

namespace Laid
variable {g : Settings} {s : State} {L : Layout}

theorem pair_of_mem (h : Laid g s L) {km e : Nat} (he : e ∈ L.onMessage km) :
    ∃ n name, pair s e = some (km, .entry n) ∧ nameOf s (.entry n) = some name := by
  obtain ⟨⟨km', k⟩, hpair, hkm⟩ := Option.map_eq_some_iff.mp ((h.messages.mem km e).mp he)
  have hk : keywordOf s e = some k := by
    rw [keywordOf, hpair]
    rfl
  obtain ⟨n, rfl⟩ := h.real e k hk
  have hlive := h.keywords.live _ (List.ne_nil_of_mem ((h.keywords.mem _ e).mpr hk))
  rw [keywordEnds_isSome] at hlive
  obtain ⟨name, hname⟩ := Option.isSome_iff_exists.mp hlive
  exact ⟨n, name, hpair.trans (congrArg (fun m => some (m, _)) hkm), hname⟩

theorem length_onMessage (h : Laid g s L) (km : Nat) : (L.onMessage km).length < s.entryBreak + 1 := by
  have hsub : L.onMessage km ⊆ List.range s.entryBreak := fun e he => by
    obtain ⟨n, name, hpair, -⟩ := h.pair_of_mem he
    exact List.mem_range.mpr (h.entryBound e (by rw [hpair]; rfl))
  have hlen := ((h.messages.nodup km).subperm hsub).length_le
  rw [List.length_range] at hlen
  omega

theorem walk_onMessage (h : Laid g s L) {km : Nat} (hkm : (messageEnds s km).isSome = true)
    (p : Nat → Bool) :
    walk (fun e => (entry s e).next) p (s.entryBreak + 1) (message s km).firstEntry =
      (L.onMessage km).find? p := by
  obtain ⟨ends, hends⟩ := Option.isSome_iff_exists.mp hkm
  have hfirst := (message_of_ends (h.messages.ends_eq km ends hends ▸ hends)).1
  rw [hfirst]
  refine walk_seg (h.messages.linked km) (fun e he => ?_) p (h.length_onMessage km)
  obtain ⟨r, hr⟩ := Option.isSome_iff_exists.mp ((h.messages.linked km).exists_links he)
  rw [(entry_of_messageLinks hr).1, hr]
  rfl

theorem key_of_name (h : Laid g s L) {j k : Nat} {a b : List UInt8}
    (hj : nameOf s (.entry j) = some a) (hk : nameOf s (.entry k) = some b)
    (hfold : foldCase g a = foldCase g b) : j = k := by
  have hmem : ∀ n name, nameOf s (.entry n) = some name → hashBucket g name = hashBucket g a →
      KeyPtr.entry n ∈ L.inBucket (hashBucket g a) := fun n name hn hbucket => by
    have hin := (h.chains.mem (hashBucket g a) (.entry n)).mpr (by rw [bucketOf, hn, ← hbucket]; rfl)
    simpa using hin
  have hdiff : (L.inBucket (hashBucket g a)).Pairwise fun j k =>
      nameCmp g (keywordName s j) (keywordName s k) ≠ 0 :=
    (h.bucketSorted (hashBucket g a)).imp fun hlt => by omega
  by_contra hne
  have hsymm : Std.Symm fun j k => nameCmp g (keywordName s j) (keywordName s k) ≠ 0 := by
    refine ⟨fun x y hxy => ?_⟩
    rw [nameCmp, strcmp_swap]
    rw [nameCmp] at hxy
    omega
  refine hdiff.forall (hmem j a hj rfl) (hmem k b hk (hashBucket_congr g hfold.symm))
    (fun heq => hne (KeyPtr.entry.inj heq)) ?_
  rw [keywordName_eq, keywordName_eq, hj, hk]
  exact (nameCmp_eq_zero g (h.names j a hj) (h.names k b hk)).mpr hfold

theorem cmp_entry (h : Laid g s L) {km e n : Nat} {name : List UInt8} (he : e ∈ L.onMessage km)
    (hn : nameOf s (.entry n) = some name) :
    strcmp (entryName s e) name = 0 ↔ keywordOf s e = some (.entry n) := by
  obtain ⟨j, a, hpair, hj⟩ := h.pair_of_mem he
  have hkey : keywordOf s e = some (.entry j) := by
    rw [keywordOf, hpair]
    rfl
  have hname : entryName s e = a := by
    rw [entryName, hkey, Option.bind_some, hj]
    rfl
  rw [hname, hkey, strcmp_eq_zero (h.names j a hj) (h.names n name hn)]
  constructor
  · intro heq
    rw [h.key_of_name hj hn (congrArg (foldCase g) heq)]
  · intro heq
    rw [Option.some.inj heq, hn] at hj
    exact (Option.some.inj hj).symm

/-! ## Setting a keyword -/

theorem entryBreak_free (h : Laid g s L) : pair s s.entryBreak = none := by
  by_contra hne
  exact absurd (h.entryBound s.entryBreak (Option.isSome_iff_ne_none.mpr hne)) (Nat.lt_irrefl _)

theorem prevOf_eq (h : Laid g s L) {km : Nat} (hkm : (messageEnds s km).isSome = true)
    {a b : List Nat} (hab : L.onMessage km = a ++ b) : prevOf s km b.head? = a.getLast? := by
  cases b with
  | nil =>
      obtain ⟨ends, hends⟩ := Option.isSome_iff_exists.mp hkm
      have hlast := (message_of_ends (h.messages.ends_eq km ends hends ▸ hends)).2
      rw [List.head?_nil, prevOf, hlast, hab, List.append_nil]
  | cons last b =>
      have hseg := h.messages.linked km
      rw [hab] at hseg
      exact ((entry_of_messageLinks hseg.links_mid).2).trans (Option.or_none)

theorem lastMsg_eq (h : Laid g s L) {k : KeyPtr} (hk : (keywordEnds s k).isSome = true) :
    (keyword s k).lastMsg = (L.onKeyword k).getLast? := by
  obtain ⟨ends, hends⟩ := Option.isSome_iff_exists.mp hk
  exact (keyword_of_ends (h.keywords.ends_eq k ends hends ▸ hends)).2

theorem ne_entryBreak (h : Laid g s L) {km e : Nat} (he : e ∈ L.onMessage km) :
    e ≠ s.entryBreak := fun heq => by
  rw [heq, h.messages.mem, messageOf, h.entryBreak_free] at he
  exact nomatch he

theorem link (h : Laid g s L) {km n : Nat} {name : List UInt8}
    (hkm : (messageEnds s km).isSome = true) (hn : nameOf s (.entry n) = some name) {a b : List Nat}
    (hab : L.onMessage km = a ++ b) (ha : ∀ e ∈ a, strcmp (entryName s e) name < 0)
    (hb : ∀ e ∈ b.head?, 0 < strcmp (entryName s e) name) :
    Laid g (linkNew s km (.entry n) b.head?) (L.link km (.entry n) s.entryBreak a b) := by
  have hmessageFree : messageOf s s.entryBreak = none := by
    rw [messageOf, h.entryBreak_free]
    rfl
  have hkeywordFree : keywordOf s s.entryBreak = none := by
    rw [keywordOf, h.entryBreak_free]
    rfl
  have hkeyLive : (keywordEnds s (.entry n)).isSome = true := by
    rw [keywordEnds_isSome, hn]
    rfl
  have hprev := h.prevOf_eq hkm hab
  have hlastMsg := h.lastMsg_eq hkeyLive
  have hmema : ∀ e ∈ a, e ∈ L.onMessage km := fun e he => hab ▸ List.mem_append_left b he
  have hmemb : ∀ e ∈ b, e ∈ L.onMessage km := fun e he => hab ▸ List.mem_append_right a he
  have hlast : b.head? ≠ some s.entryBreak := fun heq =>
    h.ne_entryBreak (hmemb _ (List.mem_of_mem_head? heq)) rfl
  have hprevNe : prevOf s km b.head? ≠ some s.entryBreak := fun heq =>
    h.ne_entryBreak (hmema _ (List.mem_of_getLast? (hprev ▸ heq))) rfl
  have hne : ∀ q, prevOf s km b.head? = some q → b.head? ≠ some q := fun q hq =>
    ends_disjoint (hab ▸ h.messages.nodup km) (hprev ▸ hq)
  have hlastMsgNe : (keyword s (.entry n)).lastMsg ≠ some s.entryBreak := fun heq => by
    have hmem := List.mem_of_getLast? (hlastMsg ▸ heq)
    rw [h.keywords.mem, hkeywordFree] at hmem
    exact nomatch hmem
  obtain ⟨hbucketLinks, hnameOf, hkb, hmb, heb⟩ := @linkNew_frame s km (.entry n) b.head?
  have hmessageLinks := @linkNew_messageLinks s km (.entry n) b.head? hlast hprevNe hne
  have hkeywordLinks := @linkNew_keywordLinks s km (.entry n) b.head? hlastMsgNe
  have hmessageEnds := @linkNew_messageEnds s km (.entry n) b.head? hlast
  have hkeywordEnds := @linkNew_keywordEnds s km (.entry n) b.head?
  have hpair := @linkNew_pair s km (.entry n) b.head?
  have hmessageOf := linkNew_messageOf s km (.entry n) b.head?
  have hkeywordOf := linkNew_keywordOf s km (.entry n) b.head?
  generalize linkNew s km (.entry n) b.head? = t at *
  have hentryName : ∀ e q, e ∈ L.onMessage q → entryName t e = entryName s e := fun e q he => by
    rw [entryName, hkeywordOf, store_ne _ (h.ne_entryBreak he), hnameOf, entryName]
  have hentryNew : entryName t s.entryBreak = name := by
    rw [entryName, hkeywordOf, store_self, Option.bind_some, hnameOf, hn]
    rfl
  have hsorted : ∀ q, (L.onMessage q).Pairwise fun d e => strcmp (entryName t d) (entryName t e) < 0 :=
    fun q => (h.sorted q).imp_of_mem fun {d e} hd he hlt => by
      rw [hentryName d q hd, hentryName e q he]
      exact hlt
  rw [hprev] at hmessageLinks hmessageEnds
  rw [hlastMsg] at hkeywordLinks hkeywordEnds
  constructor
  case messages =>
    rw [hmessageLinks, hmessageEnds, hmessageOf]
    exact h.messages.insert hab hmessageFree hkm
  case keywords =>
    rw [hkeywordLinks, hkeywordEnds, hkeywordOf]
    exact h.keywords.insert (m := []) (List.append_nil _).symm hkeywordFree hkeyLive
  case chains =>
    rw [hbucketLinks, bucketOf_congr g hnameOf]
    exact h.chains
  case sorted =>
    intro q
    change (Function.update L.onMessage km (a ++ s.entryBreak :: b) q).Pairwise _
    by_cases hq : q = km
    · rw [hq, Function.update_self]
      refine pairwise_insert (R := fun d e => strcmp (entryName t d) (entryName t e) < 0)
        (fun x y z => strcmp_trans) (hab ▸ hsorted km) (fun e he => ?_) fun e he => ?_
      · rw [hentryName e km (hmema e he), hentryNew]
        exact ha e he
      · rw [hentryName e km (hmemb e (List.mem_of_mem_head? he)), hentryNew, strcmp_swap]
        exact Int.neg_neg_of_pos (hb e he)
    · rw [Function.update_of_ne hq]
      exact hsorted q
  case bucketSorted =>
    intro i
    refine (h.bucketSorted i).imp fun {j k} hjk => ?_
    rw [keywordName_eq, keywordName_eq, hnameOf, ← keywordName_eq, ← keywordName_eq]
    exact hjk
  case names =>
    rw [hnameOf]
    exact h.names
  case real =>
    intro e k hk
    rw [hkeywordOf] at hk
    by_cases he : e = s.entryBreak
    · rw [he, store_self] at hk
      exact ⟨n, (Option.some.inj hk).symm⟩
    · rw [store_ne _ he] at hk
      exact h.real e k hk
  case entryBound =>
    intro e he
    rw [hpair] at he
    rw [heb]
    by_cases heq : e = s.entryBreak
    · omega
    · rw [store_ne _ heq] at he
      exact Nat.lt_succ_of_lt (h.entryBound e he)
  case keywordBound =>
    rw [hnameOf, hkb]
    exact h.keywordBound
  case messageBound =>
    rw [hmessageEnds, hmb]
    intro q hq
    rw [modify_isSome] at hq
    exact h.messageBound q hq

theorem kwmSet_cases (h : Laid g s L) {km n : Nat} {name : List UInt8}
    (hkm : (messageEnds s km).isSome = true) (hn : nameOf s (.entry n) = some name) :
    ((∃ e ∈ L.onMessage km, keywordOf s e = some (.entry n)) ∧ kwmSet s km (.entry n) = (1, s)) ∨
    ((∀ e ∈ L.onMessage km, keywordOf s e ≠ some (.entry n)) ∧ ∃ a b : List Nat,
      L.onMessage km = a ++ b ∧ kwmSet s km (.entry n) = (0, linkNew s km (.entry n) b.head?) ∧
      Laid g (linkNew s km (.entry n) b.head?) (L.link km (.entry n) s.entryBreak a b)) := by
  have hname : keywordName s (.entry n) = name := by
    rw [keywordName_eq, hn]
    rfl
  have hcmp : ∀ e ∈ L.onMessage km,
      strcmp (keywordName s (entry s e).keywordEntry) (keywordName s (.entry n)) =
        strcmp (entryName s e) name := fun e he => by
    obtain ⟨_, _, hpair, -⟩ := h.pair_of_mem he
    rw [entryName_eq (by rw [hpair]; rfl), hname]
  obtain ⟨a, b, hab, hb, ha⟩ := exists_split
    (fun e => decide (0 ≤ strcmp (keywordName s (entry s e).keywordEntry) (keywordName s (.entry n))))
    (L.onMessage km)
  have hmema : ∀ e ∈ a, e ∈ L.onMessage km := fun e he => hab ▸ List.mem_append_left b he
  have hmemb : ∀ e ∈ b, e ∈ L.onMessage km := fun e he => hab ▸ List.mem_append_right a he
  have hlow : ∀ e ∈ a, strcmp (entryName s e) name < 0 := fun e he => by
    have hlt := of_decide_eq_false (ha e he)
    rw [hcmp e (hmema e he)] at hlt
    omega
  have hhigh : ∀ e ∈ b.head?, 0 ≤ strcmp (entryName s e) name := fun e he => by
    rw [← hcmp e (hmemb e (List.mem_of_mem_head? he))]
    rw [hb] at he
    have hp := List.find?_some (Option.mem_def.mp he)
    exact of_decide_eq_true hp
  have hset : kwmSet s km (.entry n) =
      if b.head?.any fun e =>
        strcmp (keywordName s (entry s e).keywordEntry) (keywordName s (.entry n)) = 0
      then (1, s) else (0, linkNew s km (.entry n) b.head?) := by
    simp only [kwmSet, h.walk_onMessage hkm, ← hb]
    rfl
  rw [hset]
  cases b with
  | nil =>
      refine .inr ⟨fun e he hkey => ?_, a, [], hab, rfl, h.link hkm hn hab hlow ?_⟩
      case refine_2 =>
        intro e no
        cases no
      rw [hab, List.append_nil] at he
      have hlt := hlow e he
      rw [(h.cmp_entry (hmema e he) hn).mpr hkey] at hlt
      exact absurd hlt (Int.lt_irrefl 0)
  | cons x b =>
      have hx : x ∈ L.onMessage km := hmemb x List.mem_cons_self
      have hge := hhigh x rfl
      rw [List.head?_cons, Option.any_some, hcmp x hx]
      by_cases hzero : strcmp (entryName s x) name = 0
      · rw [if_pos (decide_eq_true hzero)]
        exact .inl ⟨⟨x, hx, (h.cmp_entry hx hn).mp hzero⟩, rfl⟩
      · rw [if_neg (by rw [decide_eq_true_eq]; exact hzero)]
        refine .inr ⟨fun e he hkey => ?_, a, x :: b, hab, rfl, ?_⟩
        · have hcmp0 := (h.cmp_entry he hn).mpr hkey
          rw [hab] at he
          obtain he | he := List.mem_append.mp he
          · have hlt := hlow e he
            omega
          · obtain rfl | he := List.mem_cons.mp he
            · exact hzero hcmp0
            · have hsorted := (List.pairwise_append.mp (hab ▸ h.sorted km)).2.1
              have hlt := (List.pairwise_cons.mp hsorted).1 e he
              obtain ⟨j, c, hpair, hj⟩ := h.pair_of_mem (hmemb e (List.mem_cons_of_mem x he))
              have hc : entryName s e = c := by
                rw [entryName, keywordOf, hpair, Option.map_some, Option.bind_some, hj]
                rfl
              rw [hc, strcmp_eq_zero (h.names j c hj) (h.names n name hn)] at hcmp0
              rw [hc, hcmp0] at hlt
              omega
        · refine h.link hkm hn hab hlow fun e he => ?_
          rw [List.head?_cons, Option.mem_some_iff] at he
          rw [← he]
          omega

end Laid

end Cone.Maildirkeywords
