import Cone.MaildirkeywordsLists

/-! # Looking a keyword up (`maildir/maildirkeywords.c`) -/
set_option autoImplicit false
namespace Cone.Maildirkeywords

open Cone.Lib.LinkedList

def Layout.newKey (L : Layout) (i : Fin buckets) (x y : List KeyPtr) (k : KeyPtr) : Layout where
  onMessage := L.onMessage
  onKeyword := L.onKeyword
  inBucket := Function.update L.inBucket i (x ++ k :: y)

theorem nameCmp_swap (g : Settings) (a b : List UInt8) : nameCmp g b a = -nameCmp g a b :=
  strcmp_swap _ _

namespace Laid
variable {g : Settings} {s : State} {L : Layout}

theorem next_head (h : Laid g s L) (i : Fin buckets) :
    (keyword s (.head i)).next = (L.inBucket i ++ [KeyPtr.tail i]).head? := by
  have hseg := h.chains.linked i
  rw [List.cons_append] at hseg
  rw [(keyword_of_bucketLinks hseg.1).1, Option.or_none]

theorem next_tail (h : Laid g s L) (i : Fin buckets) : (keyword s (.tail i)).next = none :=
  (keyword_of_bucketLinks (h.chains.linked i).links_mid).1

theorem next_isSome (h : Laid g s L) {i : Fin buckets} {k : KeyPtr} (hk : k ∈ L.inBucket i) :
    (keyword s k).next.isSome = true := by
  obtain ⟨x, y, hxy⟩ := List.append_of_mem hk
  have hseg := h.chains.linked i
  rw [hxy, show KeyPtr.head i :: (x ++ k :: y) ++ [.tail i] =
    (.head i :: x) ++ k :: (y ++ [.tail i]) by simp] at hseg
  rw [(keyword_of_bucketLinks hseg.links_mid).1]
  cases y <;> rfl

theorem mem_inBucket (h : Laid g s L) {i : Fin buckets} {k : KeyPtr} :
    k ∈ L.inBucket i ↔ ∃ n name, k = .entry n ∧ nameOf s (.entry n) = some name ∧ hashBucket g name = i := by
  have hmem := h.chains.mem i k
  have hnodup := h.chains.nodup i
  rw [List.cons_append, List.nodup_cons] at hnodup
  cases k with
  | head j =>
      refine iff_of_false (fun hk => ?_) (by rintro ⟨n, name, hn, -⟩; cases hn)
      have hj := hmem.mp (List.mem_append_left _ (List.mem_cons_of_mem _ hk))
      rw [bucketOf, Option.some.injEq] at hj
      exact hnodup.1 (List.mem_append_left _ (hj ▸ hk))
  | tail j =>
      refine iff_of_false (fun hk => ?_) (by rintro ⟨n, name, hn, -⟩; cases hn)
      have hj := hmem.mp (List.mem_append_left _ (List.mem_cons_of_mem _ hk))
      rw [bucketOf, Option.some.injEq] at hj
      exact (List.nodup_append.mp hnodup.2).2.2 _ hk _ (List.mem_singleton.mpr (hj ▸ rfl)) rfl
  | entry n =>
      rw [show KeyPtr.entry n ∈ L.inBucket i ↔ .entry n ∈ .head i :: L.inBucket i ++ [.tail i] by simp,
        hmem, bucketOf, Option.map_eq_some_iff]
      constructor
      · rintro ⟨name, hname, hi⟩
        exact ⟨n, name, rfl, hname, hi⟩
      · rintro ⟨m, name, hm, hname, hi⟩
        exact ⟨name, KeyPtr.entry.inj hm ▸ hname, hi⟩

theorem length_inBucket (h : Laid g s L) (i : Fin buckets) :
    (L.inBucket i ++ [KeyPtr.tail i]).length < s.keywordBreak + 2 := by
  have hnodup : (L.inBucket i).Nodup := (h.chains.nodup i).sublist (by simp)
  have hsub : L.inBucket i ⊆ (List.range s.keywordBreak).map .entry := fun k hk => by
    obtain ⟨n, name, rfl, hname, -⟩ := h.mem_inBucket.mp hk
    exact List.mem_map_of_mem (List.mem_range.mpr (h.keywordBound n (by rw [hname]; rfl)))
  have hlength := (hnodup.subperm hsub).length_le
  rw [List.length_map, List.length_range] at hlength
  rw [List.length_append, List.length_singleton]
  omega

theorem walk_inBucket (h : Laid g s L) (i : Fin buckets) (name : List UInt8) {x y : List KeyPtr}
    (hxy : L.inBucket i = x ++ y) (hx : ∀ k ∈ x, nameCmp g (keywordName s k) name < 0)
    (hy : ∀ k ∈ y.head?, 0 ≤ nameCmp g (keywordName s k) name) :
    walk (fun e => (keyword s e).next) (stopsAt g s name) (s.keywordBreak + 2)
      (keyword s (.head i)).next = (y ++ [KeyPtr.tail i]).head? := by
  have hseg := h.chains.linked i
  rw [List.cons_append] at hseg
  rw [h.next_head, walk_seg hseg.2 (fun k hk => ?_) _ (h.length_inBucket i), hxy, List.append_assoc,
    List.find?_append]
  · have hnone : x.find? (stopsAt g s name) = none := by
      refine List.find?_eq_none.mpr fun k hk => ?_
      have hin : k ∈ L.inBucket i := hxy ▸ List.mem_append_left y hk
      rw [stopsAt, Option.isNone_eq_false_iff.mpr (h.next_isSome hin), Bool.false_or,
        decide_eq_true_eq]
      have hlt := hx k hk
      omega
    rw [hnone, Option.none_or]
    cases y with
    | nil =>
        rw [List.nil_append, List.find?_cons, stopsAt, h.next_tail]
        rfl
    | cons k y =>
        rw [List.cons_append, List.find?_cons, stopsAt, decide_eq_true (hy k rfl), Bool.or_true]
        rfl
  · obtain ⟨r, hr⟩ := Option.isSome_iff_exists.mp (hseg.2.exists_links hk)
    rw [(keyword_of_bucketLinks hr).1, hr]
    rfl

theorem newKeyword (h : Laid g s L) {name : List UInt8} (hname : 0 ∉ name) {x y : List KeyPtr}
    {e : KeyPtr} (hxy : L.inBucket (hashBucket g name) = x ++ y)
    (hx : ∀ k ∈ x, nameCmp g (keywordName s k) name < 0)
    (hy : ∀ k ∈ y.head?, 0 < nameCmp g (keywordName s k) name)
    (he : (y ++ [KeyPtr.tail (hashBucket g name)]).head? = some e) :
    Laid g (newKeyword s name e).2 (L.newKey (hashBucket g name) x y (.entry s.keywordBreak)) ∧
    pair (newKeyword s name e).2 = pair s ∧ messageEnds (newKeyword s name e).2 = messageEnds s ∧
    nameOf (newKeyword s name e).2 = store (nameOf s) (.entry s.keywordBreak) name := by
  have hfree : nameOf s (.entry s.keywordBreak) = none := by
    by_contra hne
    exact absurd (h.keywordBound _ (Option.isSome_iff_ne_none.mpr hne)) (Nat.lt_irrefl _)
  have hendsFree : keywordEnds s (.entry s.keywordBreak) = none := by
    rw [← Option.isNone_iff_eq_none, ← Option.not_isSome, keywordEnds_isSome, hfree]
    rfl
  have hbucketFree : bucketOf s g (.entry s.keywordBreak) = none := by
    rw [bucketOf, hfree]
    rfl
  obtain ⟨-, hentries, hmessages, hkb, heb, hmb, hkeywordEnds, hnameOf⟩ := @newKeyword_frame s name e
  have hbucketLinks := @newKeyword_bucketLinks s name e
  have hmessageEnds : messageEnds (Maildirkeywords.newKeyword s name e).2 = messageEnds s := by
    funext q
    rw [messageEnds, hmessages, messageEnds]
  have hmessageLinks : messageLinks (Maildirkeywords.newKeyword s name e).2 = messageLinks s := by
    funext q
    rw [messageLinks, hentries, messageLinks]
  have hkeywordLinks : keywordLinks (Maildirkeywords.newKeyword s name e).2 = keywordLinks s := by
    funext q
    rw [keywordLinks, hentries, keywordLinks]
  have hpair : pair (Maildirkeywords.newKeyword s name e).2 = pair s := by
    funext q
    rw [pair, hentries, pair]
  have hmessageOf : messageOf (Maildirkeywords.newKeyword s name e).2 = messageOf s := by
    funext q
    rw [messageOf, hpair, messageOf]
  have hkeywordOf : keywordOf (Maildirkeywords.newKeyword s name e).2 = keywordOf s := by
    funext q
    rw [keywordOf, hpair, keywordOf]
  refine ⟨?_, hpair, hmessageEnds, hnameOf⟩
  generalize (Maildirkeywords.newKeyword s name e).2 = t at *
  generalize hi : hashBucket g name = i at *
  have hon : KeyPtr.head i :: L.inBucket i ++ [.tail i] = (.head i :: x) ++ (y ++ [.tail i]) := by
    rw [hxy]
    simp
  have hnodup : (KeyPtr.head i :: x ++ (y ++ [KeyPtr.tail i])).Nodup := hon ▸ h.chains.nodup i
  have hprev : (keyword s e).prev = (KeyPtr.head i :: x).getLast? := by
    have hseg := h.chains.linked i
    rw [hon] at hseg
    obtain ⟨z, hz⟩ := List.head?_eq_some_iff.mp he
    rw [hz] at hseg
    rw [(keyword_of_bucketLinks hseg.links_mid).2, Option.or_none]
  have hmem : ∀ k ∈ KeyPtr.head i :: L.inBucket i ++ [.tail i], k ≠ .entry s.keywordBreak := by
    intro k hk heq
    rw [h.chains.mem, heq, hbucketFree] at hk
    cases hk
  have hprevNe : (KeyPtr.head i :: x).getLast? ≠ some (.entry s.keywordBreak) := fun heq =>
    hmem _ (hon ▸ List.mem_append_left _ (List.mem_of_getLast? heq)) rfl
  have hnextNe : some e ≠ some (.entry s.keywordBreak) := fun heq => by
    refine hmem e (hon ▸ List.mem_append_right _ (List.mem_of_mem_head? ?_)) (Option.some.inj heq)
    exact Option.mem_def.mpr he
  have hdisjoint : ∀ q, (KeyPtr.head i :: x).getLast? = some q → some e ≠ some q := fun q hq =>
    he ▸ ends_disjoint hnodup hq
  rw [hprev, modifyAt_store_eq_splice hprevNe hnextNe hdisjoint, ← he] at hbucketLinks
  have hkeep : ∀ k, k ≠ .entry s.keywordBreak → nameOf t k = nameOf s k := fun k hne => by
    rw [hnameOf, store_ne _ hne]
  have hbucketOf : bucketOf t g = store (bucketOf s g) (.entry s.keywordBreak) i := by
    funext k
    by_cases hkn : k = .entry s.keywordBreak
    · rw [hkn, store_self, bucketOf, hnameOf, store_self]
      exact congrArg some hi
    · rw [store_ne _ hkn]
      cases k with
      | head j => rfl
      | tail j => rfl
      | entry j => rw [bucketOf, hkeep _ hkn, bucketOf]
  constructor
  case messages =>
    rw [hmessageLinks, hmessageEnds, hmessageOf]
    exact h.messages
  case keywords =>
    rw [hkeywordLinks, hkeywordEnds, hkeywordOf]
    exact h.keywords.newOwner hendsFree
  case chains =>
    have hinsert := h.chains.insert hon hbucketFree rfl
    rw [← hbucketLinks, ← hbucketOf, modify_bucketEnds, show (KeyPtr.head i :: x) ++
      .entry s.keywordBreak :: (y ++ [.tail i]) =
        .head i :: (x ++ .entry s.keywordBreak :: y) ++ [.tail i] by simp, update_chain] at hinsert
    · exact hinsert
    · rw [spliceEnds, List.getLast?_cons, List.head?_append]
      cases y <;> rfl
  case sorted =>
    intro q
    refine (h.sorted q).imp_of_mem fun {d e} hd he hlt => ?_
    have hentryName : ∀ f ∈ L.onMessage q, entryName t f = entryName s f := fun f hf => by
      obtain ⟨j, c, hpair', hj⟩ := h.pair_of_mem hf
      have hkey : keywordOf s f = some (.entry j) := by
        rw [keywordOf, hpair']
        rfl
      have hne : KeyPtr.entry j ≠ .entry s.keywordBreak := fun heq => by
        rw [heq, hfree] at hj
        cases hj
      rw [entryName, hkeywordOf, hkey, entryName, hkey, Option.bind_some, Option.bind_some, hkeep _ hne]
    rw [hentryName d hd, hentryName e he]
    exact hlt
  case bucketSorted =>
    have hkeepName : ∀ j, ∀ k ∈ L.inBucket j, keywordName t k = keywordName s k := fun j k hk => by
      have hne : k ≠ .entry s.keywordBreak := fun heq => by
        obtain ⟨n, a, rfl, hn, -⟩ := h.mem_inBucket.mp hk
        rw [heq, hfree] at hn
        cases hn
      rw [keywordName_eq, keywordName_eq, hkeep k hne]
    have hnewName : keywordName t (.entry s.keywordBreak) = name := by
      rw [keywordName_eq, hnameOf, store_self]
      rfl
    have hsorted : ∀ j, (L.inBucket j).Pairwise fun c d =>
        nameCmp g (keywordName t c) (keywordName t d) < 0 := fun j =>
      (h.bucketSorted j).imp_of_mem fun {c d} hc hd hlt => by
        rw [hkeepName j c hc, hkeepName j d hd]
        exact hlt
    intro j
    change (Function.update L.inBucket i (x ++ .entry s.keywordBreak :: y) j).Pairwise _
    by_cases hj : j = i
    · rw [hj, Function.update_self]
      refine pairwise_insert (R := fun c d => nameCmp g (keywordName t c) (keywordName t d) < 0)
        (fun x y z => strcmp_trans) (hxy ▸ hsorted i) (fun k hk => ?_) fun k hk => ?_
      · rw [hkeepName i k (hxy ▸ List.mem_append_left y hk), hnewName]
        exact hx k hk
      · rw [hkeepName i k (hxy ▸ List.mem_append_right x (List.mem_of_mem_head? hk)), hnewName,
          nameCmp_swap]
        exact Int.neg_neg_of_pos (hy k hk)
    · rw [Function.update_of_ne hj]
      exact hsorted j
  case names =>
    intro n a hn
    by_cases hne : KeyPtr.entry n = .entry s.keywordBreak
    · rw [hnameOf, hne, store_self] at hn
      exact Option.some.inj hn ▸ hname
    · rw [hkeep _ hne] at hn
      exact h.names n a hn
  case real =>
    rw [hkeywordOf]
    exact h.real
  case entryBound =>
    rw [hpair, heb]
    exact h.entryBound
  case keywordBound =>
    intro n hn
    rw [hkb]
    by_cases hne : KeyPtr.entry n = .entry s.keywordBreak
    · have heq := KeyPtr.entry.inj hne
      omega
    · rw [hkeep _ hne] at hn
      exact Nat.lt_succ_of_lt (h.keywordBound n hn)
  case messageBound =>
    rw [hmessageEnds, hmb]
    exact h.messageBound

theorem kweFind_cases (h : Laid g s L) {name : List UInt8} (hname : 0 ∉ name) (createIfNew : Bool) :
    (∃ n a, nameOf s (.entry n) = some a ∧ foldCase g a = foldCase g (fixName g name) ∧
      kweFind g s name createIfNew = (some (.entry n), s)) ∨
    ((∀ n a, nameOf s (.entry n) = some a → foldCase g a ≠ foldCase g (fixName g name)) ∧
      (createIfNew = false → kweFind g s name createIfNew = (none, s)) ∧
      (createIfNew = true → ∃ t L', kweFind g s name createIfNew = (some (.entry s.keywordBreak), t) ∧
        Laid g t L' ∧ pair t = pair s ∧ messageEnds t = messageEnds s ∧
        nameOf t = store (nameOf s) (.entry s.keywordBreak) (fixName g name))) := by
  have hfixed := zero_notMem_fixName g hname
  generalize hf : fixName g name = fixed at *
  obtain ⟨x, y, hxy, hy, hx⟩ := exists_split
    (fun k => decide (0 ≤ nameCmp g (keywordName s k) fixed)) (L.inBucket (hashBucket g fixed))
  have hlow : ∀ k ∈ x, nameCmp g (keywordName s k) fixed < 0 := fun k hk => by
    have hlt := of_decide_eq_false (hx k hk)
    omega
  have hhigh : ∀ k ∈ y.head?, 0 ≤ nameCmp g (keywordName s k) fixed := fun k hk => by
    rw [hy] at hk
    have hp := List.find?_some (Option.mem_def.mp hk)
    exact of_decide_eq_true hp
  have hwalk := h.walk_inBucket (hashBucket g fixed) fixed hxy hlow hhigh
  have hfind : kweFind g s name createIfNew =
      (y ++ [KeyPtr.tail (hashBucket g fixed)]).head?.elim (none, s) fun e =>
        if (keyword s e).next.isSome && nameCmp g (keywordName s e) fixed = 0 then (some e, s)
        else if createIfNew = false then (none, s)
        else (some (Maildirkeywords.newKeyword s fixed e).1,
          (Maildirkeywords.newKeyword s fixed e).2) := by
    rw [← hwalk, ← hf]
    cases hw : walk (fun e => (keyword s e).next) (stopsAt g s (fixName g name))
      (s.keywordBreak + 2) (keyword s (.head (hashBucket g (fixName g name)))).next with
    | none =>
        rw [kweFind]
        simp only [hw]
        rfl
    | some e =>
        rw [kweFind]
        simp only [hw]
        rfl
  -- a keyword with that name would be in this bucket
  have hbucket : ∀ n a, nameOf s (.entry n) = some a → foldCase g a = foldCase g fixed →
      KeyPtr.entry n ∈ y ∧ nameCmp g (keywordName s (.entry n)) fixed = 0 := fun n a hn hfold => by
    have hzero : nameCmp g (keywordName s (.entry n)) fixed = 0 := by
      rw [keywordName_eq, hn]
      exact (nameCmp_eq_zero g (h.names n a hn) hfixed).mpr hfold
    have hin := h.mem_inBucket.mpr ⟨n, a, rfl, hn, hashBucket_congr g hfold⟩
    rw [hxy] at hin
    refine ⟨(List.mem_append.mp hin).resolve_left fun hmem => ?_, hzero⟩
    have hlt := hlow _ hmem
    omega
  have hcreate : ∀ e, (y ++ [KeyPtr.tail (hashBucket g fixed)]).head? = some e →
      (∀ k ∈ y.head?, 0 < nameCmp g (keywordName s k) fixed) →
      ∃ t L', (some (Maildirkeywords.newKeyword s fixed e).1,
        (Maildirkeywords.newKeyword s fixed e).2) = (some (KeyPtr.entry s.keywordBreak), t) ∧
        Laid g t L' ∧ pair t = pair s ∧ messageEnds t = messageEnds s ∧
        nameOf t = store (nameOf s) (.entry s.keywordBreak) fixed := fun e he hpos => by
    obtain ⟨hlaid, hpair, hends, hnames⟩ := h.newKeyword hfixed hxy hlow hpos he
    refine ⟨_, _, ?_, hlaid, hpair, hends, hnames⟩
    rw [newKeyword_frame.1]
  rw [hfind]
  cases y with
  | nil =>
      refine .inr ⟨fun n a hn hfold => absurd (hbucket n a hn hfold).1 List.not_mem_nil, fun hc => ?_, fun hc => ?_⟩
      · rw [List.nil_append, List.head?_cons, Option.elim_some]
        simp only [h.next_tail, hc]
        rfl
      · rw [List.nil_append, List.head?_cons, Option.elim_some]
        simp only [h.next_tail, hc]
        refine hcreate _ rfl fun k no => ?_
        cases no
  | cons k y =>
      have hk : k ∈ L.inBucket (hashBucket g fixed) := by
        rw [hxy]
        simp
      rw [List.cons_append, List.head?_cons, Option.elim_some]
      simp only [h.next_isSome hk, Bool.true_and, decide_eq_true_eq]
      by_cases hzero : nameCmp g (keywordName s k) fixed = 0
      · rw [if_pos hzero]
        obtain ⟨n, a, rfl, hn, -⟩ := h.mem_inBucket.mp hk
        refine .inl ⟨n, a, hn, (nameCmp_eq_zero g (h.names n a hn) hfixed).mp ?_, rfl⟩
        rw [keywordName_eq, hn] at hzero
        exact hzero
      · rw [if_neg hzero]
        have hpos : ∀ j ∈ (k :: y).head?, 0 < nameCmp g (keywordName s j) fixed := fun j hj => by
          have hge := hhigh j hj
          rw [List.head?_cons, Option.mem_some_iff] at hj
          rw [← hj] at hge ⊢
          omega
        refine .inr ⟨fun n a hn hfold => ?_, fun hc => by rw [if_pos hc], fun hc => ?_⟩
        · obtain ⟨hmem, hzero'⟩ := hbucket n a hn hfold
          obtain rfl | hmem := List.mem_cons.mp hmem
          · exact hzero hzero'
          · have hsorted := (List.pairwise_append.mp (hxy ▸ h.bucketSorted (hashBucket g fixed))).2.1
            have hbelow : nameCmp g fixed (keywordName s k) < 0 := by
              rw [nameCmp_swap]
              exact Int.neg_neg_of_pos (hpos k rfl)
            have hlt : nameCmp g fixed (keywordName s (.entry n)) < 0 :=
              strcmp_trans hbelow ((List.pairwise_cons.mp hsorted).1 _ hmem)
            rw [nameCmp_swap] at hlt
            omega
        · rw [if_neg (by rw [hc]; decide)]
          exact hcreate k rfl hpos

end Laid

end Cone.Maildirkeywords
