import Cone.MaildirkeywordsLists

/-! # Taking keywords away (`maildir/maildirkeywords.c`) -/
set_option autoImplicit false
namespace Cone.Maildirkeywords

open Cone.Lib.LinkedList

def Layout.unlink (L : Layout) (km : Nat) (a b : List Nat) (k : KeyPtr) (c d : List Nat) : Layout where
  onMessage := Function.update L.onMessage km (a ++ b)
  onKeyword := Function.update L.onKeyword k (c ++ d)
  inBucket := L.inBucket

def Layout.dropKey (L : Layout) (i : Fin buckets) (x y : List KeyPtr) : Layout where
  onMessage := L.onMessage
  onKeyword := L.onKeyword
  inBucket := Function.update L.inBucket i (x ++ y)

theorem unlinked_messageOf (s : State) (e : Nat) : messageOf (unlinked s e) = free (messageOf s) e := by
  have hpair := @unlinked_pair s e
  have hfree := map_free (pair s) e Prod.fst
  rw [← hpair] at hfree
  exact hfree

theorem unlinked_keywordOf (s : State) (e : Nat) : keywordOf (unlinked s e) = free (keywordOf s) e := by
  have hpair := @unlinked_pair s e
  have hfree := map_free (pair s) e Prod.snd
  rw [← hpair] at hfree
  exact hfree

namespace Laid
variable {g : Settings} {s : State} {L : Layout}

theorem unlink (h : Laid g s L) {km e : Nat} {k : KeyPtr} (hpair : pair s e = some (km, k))
    {a b c d : List Nat} (hab : L.onMessage km = a ++ e :: b) (hcd : L.onKeyword k = c ++ e :: d) :
    Laid g (unlinked s e) (L.unlink km a b k c d) := by
  have hmessageLinks : messageLinks s e = some (b.head?, a.getLast?) := by
    have hseg := h.messages.linked km
    rw [hab] at hseg
    rw [hseg.links_mid, Option.or_none, Option.or_none]
  have hkeywordLinks : keywordLinks s e = some (d.head?, c.getLast?) := by
    have hseg := h.keywords.linked k
    rw [hcd] at hseg
    rw [hseg.links_mid, Option.or_none, Option.or_none]
  have hab' : (a ++ b).Nodup := (hab ▸ h.messages.nodup km).sublist (by simp)
  have hcd' : (c ++ d).Nodup := (hcd ▸ h.keywords.nodup k).sublist (by simp)
  have hlinks := unlinked_messageLinks hmessageLinks fun q hq => ends_disjoint hab' hq
  have hends := unlinked_messageEnds hmessageLinks hpair
  have hklinks := unlinked_keywordLinks hkeywordLinks fun q hq => ends_disjoint hcd' hq
  have hkends := unlinked_keywordEnds hkeywordLinks hpair
  have hpairs := @unlinked_pair s e
  have hmessageOf := unlinked_messageOf s e
  have hkeywordOf := unlinked_keywordOf s e
  obtain ⟨hbucketLinks, hnameOf, hkb, hmb, heb⟩ := @unlinked_frame s e
  generalize unlinked s e = t at *
  have hmessages : Lists (messageLinks t) (messageEnds t) (messageOf t)
      (Function.update L.onMessage km (a ++ b)) := by
    rw [hlinks, hends, hmessageOf]
    exact h.messages.remove hab
  have hentryName : ∀ f, f ≠ e → entryName t f = entryName s f := fun f hf => by
    rw [entryName, hkeywordOf, free_ne _ hf, hnameOf, entryName]
  have hsub : ∀ q, (Function.update L.onMessage km (a ++ b) q).Sublist (L.onMessage q) := fun q => by
    by_cases hq : q = km
    · rw [hq, Function.update_self, hab]
      simp
    · rw [Function.update_of_ne hq]
  constructor
  case messages => exact hmessages
  case keywords =>
    rw [hklinks, hkends, hkeywordOf]
    exact h.keywords.remove hcd
  case chains =>
    rw [hbucketLinks, bucketOf_congr g hnameOf]
    exact h.chains
  case sorted =>
    intro q
    refine ((h.sorted q).sublist (hsub q)).imp_of_mem fun {x y} hx hy hlt => ?_
    have hne : ∀ z, z ∈ Function.update L.onMessage km (a ++ b) q → z ≠ e := fun z hz heq => by
      rw [hmessages.mem, heq, hmessageOf, free_self] at hz
      cases hz
    rw [hentryName x (hne x hx), hentryName y (hne y hy)]
    exact hlt
  case bucketSorted =>
    intro i
    refine (h.bucketSorted i).imp fun {j k} hjk => ?_
    rw [keywordName_eq, keywordName_eq, hnameOf, ← keywordName_eq, ← keywordName_eq]
    exact hjk
  case names =>
    rw [hnameOf]
    exact h.names
  case real =>
    intro f j hf
    rw [hkeywordOf] at hf
    by_cases hfe : f = e
    · rw [hfe, free_self] at hf
      cases hf
    · rw [free_ne _ hfe] at hf
      exact h.real f j hf
  case entryBound =>
    intro f hf
    rw [hpairs] at hf
    rw [heb]
    by_cases hfe : f = e
    · rw [hfe, free_self] at hf
      cases hf
    · rw [free_ne _ hfe] at hf
      exact h.entryBound f hf
  case keywordBound =>
    rw [hnameOf, hkb]
    exact h.keywordBound
  case messageBound =>
    rw [hends, hmb]
    intro q hq
    rw [modify_isSome] at hq
    exact h.messageBound q hq

theorem kweClear_used (h : Laid g s L) {k : KeyPtr} (hk : L.onKeyword k ≠ []) :
    kweClear s k = s := by
  have hlive := h.keywords.live k hk
  refine kweClear_of_used (fun hends => ?_) hlive
  have heq := h.keywords.ends_eq k _ hends
  exact hk (List.head?_eq_none_iff.mp (congrArg Prod.fst heq).symm)

theorem kweClear_unused (h : Laid g s L) {n : Nat} {name : List UInt8}
    (hn : nameOf s (.entry n) = some name) (hk : L.onKeyword (.entry n) = []) :
    ∃ L', Laid g (kweClear s (.entry n)) L' ∧ L'.onMessage = L.onMessage ∧
      L'.onKeyword = L.onKeyword ∧ pair (kweClear s (.entry n)) = pair s ∧
      messageEnds (kweClear s (.entry n)) = messageEnds s ∧
      nameOf (kweClear s (.entry n)) = free (nameOf s) (.entry n) := by
  have hends : keywordEnds s (.entry n) = some (none, none) := by
    have hlive : (keywordEnds s (.entry n)).isSome = true := by
      rw [keywordEnds_isSome, hn]
      rfl
    obtain ⟨ends, hends⟩ := Option.isSome_iff_exists.mp hlive
    rw [hends, h.keywords.ends_eq _ ends hends, hk]
    rfl
  have hmem : KeyPtr.entry n ∈ .head (hashBucket g name) :: L.inBucket (hashBucket g name) ++
      [.tail (hashBucket g name)] := by
    rw [h.chains.mem, bucketOf, hn]
    rfl
  have hin : KeyPtr.entry n ∈ L.inBucket (hashBucket g name) := by simpa using hmem
  obtain ⟨x, y, hxy⟩ := List.append_of_mem hin
  generalize hashBucket g name = i at *
  have hon : KeyPtr.head i :: L.inBucket i ++ [.tail i] =
      (.head i :: x) ++ .entry n :: (y ++ [.tail i]) := by
    rw [hxy]
    simp
  have hnext : (keyword s (.entry n)).next = (y ++ [KeyPtr.tail i]).head? ∧
      (keyword s (.entry n)).prev = (KeyPtr.head i :: x).getLast? := by
    have hseg := h.chains.linked i
    rw [hon] at hseg
    have hlinks := hseg.links_mid
    rw [Option.or_none, Option.or_none] at hlinks
    exact keyword_of_bucketLinks hlinks
  have hdisjoint : ∀ q, (KeyPtr.head i :: x).getLast? = some q → (y ++ [KeyPtr.tail i]).head? ≠ some q :=
    fun q hq => ends_disjoint ((hon ▸ h.chains.nodup i).sublist (by simp)) hq
  have hbucketLinks := kweClear_bucketLinks hends
  rw [hnext.1, hnext.2, modifyAt_eq_cut' hdisjoint] at hbucketLinks
  obtain ⟨hentries, hmessages, hkb, heb, hmb, hkeywordEnds, hnameOf⟩ := kweClear_frame hends
  have hmessageEnds : messageEnds (kweClear s (.entry n)) = messageEnds s := by
    funext q
    rw [messageEnds, hmessages, messageEnds]
  have hmessageLinks : messageLinks (kweClear s (.entry n)) = messageLinks s := by
    funext q
    rw [messageLinks, hentries, messageLinks]
  have hkeywordLinks : keywordLinks (kweClear s (.entry n)) = keywordLinks s := by
    funext q
    rw [keywordLinks, hentries, keywordLinks]
  have hpair : pair (kweClear s (.entry n)) = pair s := by
    funext q
    rw [pair, hentries, pair]
  refine ⟨L.dropKey i x y, ?_, rfl, rfl, hpair, hmessageEnds, hnameOf⟩
  have hmessageOf : messageOf (kweClear s (.entry n)) = messageOf s := by
    funext q
    rw [messageOf, hpair, messageOf]
  have hkeywordOf : keywordOf (kweClear s (.entry n)) = keywordOf s := by
    funext q
    rw [keywordOf, hpair, keywordOf]
  generalize kweClear s (.entry n) = t at *
  have hkeep : ∀ k, k ≠ .entry n → nameOf t k = nameOf s k := fun k hne => by
    rw [hnameOf, free_ne _ hne]
  have hbucketOf : bucketOf t g = free (bucketOf s g) (.entry n) := by
    funext k
    by_cases hkn : k = .entry n
    · rw [hkn, free_self, bucketOf, hnameOf, free_self]
      rfl
    · rw [free_ne _ hkn]
      cases k with
      | head j => rfl
      | tail j => rfl
      | entry j => rw [bucketOf, hkeep _ hkn, bucketOf]
  have hbuckets : Lists (bucketLinks t) bucketEnds (bucketOf t g)
      fun j => .head j :: (Function.update L.inBucket i (x ++ y)) j ++ [.tail j] := by
    have hremove := h.chains.remove hon
    rw [← hbucketLinks, ← hbucketOf, modify_bucketEnds, show (KeyPtr.head i :: x) ++
      (y ++ [.tail i]) = .head i :: (x ++ y) ++ [.tail i] by simp, update_chain] at hremove
    · exact hremove
    · rw [cutEnds, List.getLast?_cons, List.head?_append]
      cases y <;> rfl
  have hsub : ∀ j, (Function.update L.inBucket i (x ++ y) j).Sublist (L.inBucket j) := fun j => by
    by_cases hj : j = i
    · rw [hj, Function.update_self, hxy]
      simp
    · rw [Function.update_of_ne hj]
  constructor
  case messages =>
    rw [hmessageLinks, hmessageEnds, hmessageOf]
    exact h.messages
  case keywords =>
    rw [hkeywordLinks, hkeywordEnds, hkeywordOf]
    exact h.keywords.freeOwner hk
  case chains => exact hbuckets
  case sorted =>
    intro q
    have hname : ∀ e, e ∈ L.onMessage q → entryName t e = entryName s e := fun e he => by
      obtain ⟨j, c, hpair', hj⟩ := h.pair_of_mem he
      have hkey : keywordOf s e = some (.entry j) := by
        rw [keywordOf, hpair']
        rfl
      have hne : KeyPtr.entry j ≠ .entry n := fun heq => by
        have he' := (h.keywords.mem (.entry n) e).mpr (heq ▸ hkey)
        rw [hk] at he'
        cases he'
      rw [entryName, hkeywordOf, hkey, entryName, hkey, Option.bind_some, Option.bind_some, hkeep _ hne]
    refine (h.sorted q).imp_of_mem fun {d e} hd he hlt => ?_
    rw [hname d hd, hname e he]
    exact hlt
  case bucketSorted =>
    intro j
    refine ((h.bucketSorted j).sublist (hsub j)).imp_of_mem fun {c d} hc hd hlt => ?_
    have hne : ∀ z, z ∈ Function.update L.inBucket i (x ++ y) j → z ≠ .entry n := fun z hz heq => by
      have hz' := (hbuckets.mem j z).mp (List.mem_append_left _ (List.mem_cons_of_mem _ hz))
      rw [heq, hbucketOf, free_self] at hz'
      cases hz'
    rw [keywordName_eq, keywordName_eq, hkeep c (hne c hc), hkeep d (hne d hd), ← keywordName_eq,
      ← keywordName_eq]
    exact hlt
  case names =>
    intro j c hj
    by_cases hjn : KeyPtr.entry j = .entry n
    · rw [hjn, hnameOf, free_self] at hj
      cases hj
    · rw [hkeep _ hjn] at hj
      exact h.names j c hj
  case real =>
    rw [hkeywordOf]
    exact h.real
  case entryBound =>
    rw [hpair, heb]
    exact h.entryBound
  case keywordBound =>
    intro j hj
    rw [hkb]
    by_cases hjn : KeyPtr.entry j = .entry n
    · rw [hjn, hnameOf, free_self] at hj
      cases hj
    · rw [hkeep _ hjn] at hj
      exact h.keywordBound j hj
  case messageBound =>
    rw [hmessageEnds, hmb]
    exact h.messageBound

end Laid

/-! ## What the functions take away -/

structure Clears (s t : State) (gone : Nat → Prop) : Prop where
  pair_iff : ∀ e r, pair t e = some r ↔ pair s e = some r ∧ ¬gone e
  live : ∀ km, (messageEnds t km).isSome = (messageEnds s km).isSome
  name_iff : ∀ k name, nameOf t k = some name ↔
    nameOf s k = some name ∧ ((∃ e, keywordOf t e = some k) ∨ ∀ e, keywordOf s e ≠ some k)

theorem keywordOf_eq_some {s : State} {e : Nat} {k : KeyPtr} :
    keywordOf s e = some k ↔ ∃ km, pair s e = some (km, k) := by
  rw [keywordOf, Option.map_eq_some_iff]
  constructor
  · rintro ⟨⟨km, j⟩, hpair, rfl⟩
    exact ⟨km, hpair⟩
  · rintro ⟨km, hpair⟩
    exact ⟨(km, k), hpair, rfl⟩

theorem messageOf_eq_some {s : State} {e km : Nat} :
    messageOf s e = some km ↔ ∃ k, pair s e = some (km, k) := by
  rw [messageOf, Option.map_eq_some_iff]
  constructor
  · rintro ⟨⟨q, k⟩, hpair, rfl⟩
    exact ⟨k, hpair⟩
  · rintro ⟨k, hpair⟩
    exact ⟨(km, k), hpair, rfl⟩

namespace Clears

theorem refl (s : State) : Clears s s fun _ => False := by
  refine ⟨fun e r => by simp, fun km => rfl, fun k name => ?_⟩
  refine ⟨fun h => ⟨h, ?_⟩, And.left⟩
  by_cases hk : ∃ e, keywordOf s e = some k
  · exact .inl hk
  · exact .inr fun e he => hk ⟨e, he⟩

theorem keywordOf_of {s t : State} {gone : Nat → Prop} (h : Clears s t gone) {e : Nat} {k : KeyPtr}
    (he : keywordOf t e = some k) : keywordOf s e = some k := by
  obtain ⟨km, hpair⟩ := keywordOf_eq_some.mp he
  exact keywordOf_eq_some.mpr ⟨km, ((h.pair_iff e _).mp hpair).1⟩

theorem congr {s t : State} {gone gone' : Nat → Prop} (h : Clears s t gone)
    (hgone : ∀ e, (pair s e).isSome = true → (gone e ↔ gone' e)) : Clears s t gone' := by
  refine ⟨fun e r => ?_, h.live, h.name_iff⟩
  rw [h.pair_iff]
  refine and_congr_right fun he => not_congr (hgone e ?_)
  rw [he]
  rfl

theorem messageOf_iff {s t : State} {gone : Nat → Prop} (h : Clears s t gone) {e km : Nat} :
    messageOf t e = some km ↔ messageOf s e = some km ∧ ¬gone e := by
  rw [messageOf_eq_some, messageOf_eq_some]
  constructor
  · rintro ⟨k, hk⟩
    exact ⟨⟨k, ((h.pair_iff e _).mp hk).1⟩, ((h.pair_iff e _).mp hk).2⟩
  · rintro ⟨⟨k, hk⟩, hgone⟩
    exact ⟨k, (h.pair_iff e _).mpr ⟨hk, hgone⟩⟩

theorem trans {s t u : State} {gone gone' : Nat → Prop} (h : Clears s t gone)
    (h' : Clears t u gone') : Clears s u fun e => gone e ∨ gone' e := by
  refine ⟨fun e r => ?_, fun km => (h'.live km).trans (h.live km), fun k name => ?_⟩
  · rw [h'.pair_iff, h.pair_iff, not_or, and_assoc]
  · rw [h'.name_iff, h.name_iff]
    constructor
    · rintro ⟨⟨hname, hs⟩, ht⟩
      refine ⟨hname, ?_⟩
      obtain hu | ht := ht
      · exact .inl hu
      · obtain ⟨e, he⟩ | hs := hs
        · exact absurd he (ht e)
        · exact .inr hs
    · rintro ⟨hname, ⟨e, he⟩ | hs⟩
      · exact ⟨⟨hname, .inl ⟨e, h'.keywordOf_of he⟩⟩, .inl ⟨e, he⟩⟩
      · exact ⟨⟨hname, .inr hs⟩, .inr fun e he => hs e (h.keywordOf_of he)⟩

end Clears

namespace Laid
variable {g : Settings} {s : State} {L : Layout}

theorem kwmClearEntry (h : Laid g s L) {km e : Nat} {k : KeyPtr} (hpair : pair s e = some (km, k)) :
    ∃ L', Laid g (kwmClearEntry s e) L' ∧ Clears s (kwmClearEntry s e) (· = e) := by
  have hmessage : messageOf s e = some km := messageOf_eq_some.mpr ⟨k, hpair⟩
  have hkeyword : keywordOf s e = some k := keywordOf_eq_some.mpr ⟨km, hpair⟩
  obtain ⟨n, rfl⟩ := h.real e k hkeyword
  have hmem := (h.keywords.mem (.entry n) e).mpr hkeyword
  obtain ⟨a, b, hab⟩ := List.append_of_mem ((h.messages.mem km e).mpr hmessage)
  obtain ⟨c, d, hcd⟩ := List.append_of_mem hmem
  have hu := h.unlink hpair hab hcd
  have hpairs := @unlinked_pair s e
  have hnames := (@unlinked_frame s e).2.1
  have hlive : ∀ q, (messageEnds (unlinked s e) q).isSome = (messageEnds s q).isSome := fun q => by
    obtain ⟨r, hr⟩ := Option.isSome_iff_exists.mp
      ((h.messages.linked km).exists_links ((h.messages.mem km e).mpr hmessage))
    rw [unlinked_messageEnds hr hpair, modify_isSome]
  have hkeep : ∀ f j, f ≠ e → keywordOf s f = some j → keywordOf (unlinked s e) f = some j :=
    fun f j hf hj => by
      rw [unlinked_keywordOf, free_ne _ hf]
      exact hj
  have hpairIff : ∀ f r, free (pair s) e f = some r ↔ pair s f = some r ∧ ¬f = e := fun f r => by
    by_cases hf : f = e
    · rw [hf, free_self]
      simp
    · rw [free_ne _ hf]
      simp [hf]
  rw [kwmClearEntry_eq, (entry_of_pair hpair).2]
  have hkeyOn : (L.unlink km a b (.entry n) c d).onKeyword (.entry n) = c ++ d := Function.update_self _ _ _
  by_cases hcd' : c ++ d = []
  · have hn : ∃ name, nameOf s (.entry n) = some name := by
      obtain ⟨j, name, hpair', hj⟩ := h.pair_of_mem ((h.messages.mem km e).mpr hmessage)
      rw [hpair] at hpair'
      obtain ⟨-, hjn⟩ := Prod.mk.inj (Option.some.inj hpair')
      exact ⟨name, hjn ▸ hj⟩
    obtain ⟨name, hn⟩ := hn
    obtain ⟨L', hL', -, hon, hpair', hends', hname'⟩ :=
      hu.kweClear_unused (hnames ▸ hn) (hkeyOn.trans hcd')
    refine ⟨L', hL', ⟨fun f r => ?_, fun q => ?_, fun j c' => ?_⟩⟩
    · rw [hpair', hpairs]
      exact hpairIff f r
    · rw [hends', hlive]
    · have hkeywordOf' : ∀ f, keywordOf (kweClear (unlinked s e) (.entry n)) f =
          keywordOf (unlinked s e) f := fun f => by rw [keywordOf, hpair', keywordOf]
      rw [hname', hnames]
      by_cases hj : j = .entry n
      · rw [hj, free_self]
        refine iff_of_false (by intro no; cases no) ?_
        rintro ⟨-, ⟨f, hf⟩ | hs⟩
        · rw [hkeywordOf', ← hu.keywords.mem, hkeyOn, hcd'] at hf
          cases hf
        · exact hs e hkeyword
      · rw [free_ne _ hj]
        refine ⟨fun hname => ⟨hname, ?_⟩, And.left⟩
        by_cases hs : ∃ f, keywordOf s f = some j
        · obtain ⟨f, hf⟩ := hs
          have hfe : f ≠ e := fun heq => by
            rw [heq, hkeyword] at hf
            exact hj (Option.some.inj hf).symm
          exact .inl ⟨f, (hkeywordOf' f).trans (hkeep f j hfe hf)⟩
        · exact .inr fun f hf => hs ⟨f, hf⟩
  · rw [hu.kweClear_used (hkeyOn.symm ▸ hcd')]
    refine ⟨_, hu, ⟨fun f r => ?_, hlive, fun j c' => ?_⟩⟩
    · rw [hpairs]
      exact hpairIff f r
    · rw [hnames]
      refine ⟨fun hname => ⟨hname, ?_⟩, And.left⟩
      by_cases hs : ∃ f, keywordOf s f = some j
      · obtain ⟨f, hf⟩ := hs
        by_cases hfe : f = e
        · rw [hfe, hkeyword] at hf
          obtain ⟨f', hf'⟩ := List.exists_mem_of_ne_nil _ hcd'
          rw [← hkeyOn, hu.keywords.mem] at hf'
          exact .inl ⟨f', hf'.trans hf⟩
        · exact .inl ⟨f, hkeep f j hfe hf⟩
      · exact .inr fun f hf => hs ⟨f, hf⟩

theorem destroyLoop {km : Nat} (hkm : (messageEnds s km).isSome = true) {fuel : Nat}
    (h : Laid g s L) (hfuel : (L.onMessage km).length < fuel) :
    ∃ L', Laid g (destroyLoop fuel s km) L' ∧ L'.onMessage km = [] ∧
      Clears s (destroyLoop fuel s km) (messageOf s · = some km) := by
  induction fuel generalizing s L with
  | zero => exact absurd hfuel (Nat.not_lt_zero _)
  | succ fuel ih =>
      obtain ⟨ends, hends⟩ := Option.isSome_iff_exists.mp hkm
      have hfirst := (message_of_ends (h.messages.ends_eq km ends hends ▸ hends)).1
      rw [Maildirkeywords.destroyLoop, hfirst]
      cases hon : L.onMessage km with
      | nil =>
          refine ⟨L, h, hon, (Clears.refl s).congr fun e he => iff_of_false id fun heq => ?_⟩
          rw [← h.messages.mem, hon] at heq
          exact nomatch heq
      | cons e l =>
          have hmessage : messageOf s e = some km := by
            rw [← h.messages.mem, hon]
            exact List.mem_cons_self
          obtain ⟨k, hpair⟩ := messageOf_eq_some.mp hmessage
          obtain ⟨L₁, h₁, hclears⟩ := h.kwmClearEntry hpair
          have hsub : L₁.onMessage km ⊆ l := fun f hf => by
            rw [h₁.messages.mem, hclears.messageOf_iff, ← h.messages.mem, hon] at hf
            exact (List.mem_cons.mp hf.1).resolve_left hf.2
          have hlength := ((h₁.messages.nodup km).subperm hsub).length_le
          rw [hon, List.length_cons] at hfuel
          obtain ⟨L₂, h₂, hnil, hclears'⟩ := ih ((hclears.live km).trans hkm) h₁ (by omega)
          refine ⟨L₂, h₂, hnil, (hclears.trans hclears').congr fun f hf => ?_⟩
          rw [hclears.messageOf_iff]
          constructor
          · rintro (rfl | hf)
            · exact hmessage
            · exact hf.1
          · intro hf
            by_cases hfe : f = e
            · exact .inl hfe
            · exact .inr ⟨hf, hfe⟩

theorem kwmDestroy (h : Laid g s L) {km : Nat} (hkm : (messageEnds s km).isSome = true) :
    ∃ L' u, Laid g (kwmDestroy s km) L' ∧ Clears s u (messageOf s · = some km) ∧
      pair (kwmDestroy s km) = pair u ∧ nameOf (kwmDestroy s km) = nameOf u ∧
      messageEnds (kwmDestroy s km) = free (messageEnds u) km := by
  obtain ⟨L', h', hnil, hclears⟩ := h.destroyLoop hkm (h.length_onMessage km)
  have hends : messageEnds (Maildirkeywords.kwmDestroy s km) =
      free (messageEnds (Maildirkeywords.destroyLoop (s.entryBreak + 1) s km)) km := map_free _ km _
  refine ⟨L', _, ?_, hclears, rfl, rfl, hends⟩
  have hmessages := h'.messages.freeOwner hnil
  rw [← hends] at hmessages
  refine { h' with messages := hmessages, messageBound := fun q hq => ?_ }
  rw [hends] at hq
  by_cases hqk : q = km
  · rw [hqk, free_self] at hq
    exact nomatch hq
  · rw [free_ne _ hqk] at hq
    exact h'.messageBound q hq


end Laid

end Cone.Maildirkeywords
