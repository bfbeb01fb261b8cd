import Cone.MaildirkeywordsTable

/-! # Setting a keyword by name and clearing it (`maildir/maildirkeywords.c`)

`libmail_kwmSetName` looks the name up without forbidden characters, and perhaps without regard to
case; `libmail_kwmClearName` takes it as it is. -/
set_option autoImplicit false
namespace Cone.Maildirkeywords

open Cone.Ctype Cone.Lib.LinkedList

def Carries (s : State) (km : Nat) (name : List UInt8) : Prop :=
  ∃ e k, pair s e = some (km, k) ∧ nameOf s k = some name

def Undoes (g : Settings) (s : State) (km : Nat) (n : List UInt8) : Prop :=
  (kwmClearName (kwmSetName g s km n).2 km n).1 = 0 ∧
    ∀ q name, Carries (kwmClearName (kwmSetName g s km n).2 km n).2 q name ↔
      Carries s q name ∧ ¬ (q = km ∧ name = n)

def OwnSpelling (g : Settings) (s : State) (n : List UInt8) : Prop :=
  fixName g n = n ∧
    ∀ k name, nameOf s (.entry k) = some name → foldCase g name = foldCase g n → name = n

/-! ## Names in the table -/

theorem fixName_fixName (g : Settings) (n : List UInt8) : fixName g (fixName g n) = fixName g n := by
  rw [fixName, fixName]
  cases g.verbotten with
  | none => rfl
  | some v =>
      simp only [List.map_map]
      refine List.map_congr_left fun c _ => ?_
      simp only [Function.comp_apply]
      by_cases h : v.contains c
      · rw [if_pos h, ite_self]
      · rw [if_neg h, if_neg h]

def AllFixed (g : Settings) (s : State) : Prop :=
  ∀ k name, nameOf s (.entry k) = some name → fixName g name = name

theorem AllFixed.clears {g : Settings} {s t : State} {gone : Nat → Prop} (h : AllFixed g s)
    (clears : Clears s t gone) : AllFixed g t := by
  intro k name hk
  exact h k name ((clears.name_iff _ _).mp hk).1

theorem AllFixed.kwmSet {g : Settings} {s : State} {L : Layout} (h : AllFixed g s)
    (laid : Laid g s L) {km n : Nat} {name : List UInt8} (hkm : (messageEnds s km).isSome = true)
    (hn : nameOf s (.entry n) = some name) : AllFixed g (kwmSet s km (.entry n)).2 := by
  obtain ⟨L', -, names, -⟩ := laid.kwmSet_keywordOf hkm hn
  intro k name' hk
  rw [names] at hk
  exact h k name' hk

theorem allFixed {g : Settings} {s : State} (h : Reachable g s) : AllFixed g s := by
  induction h with
  | init =>
      intro k name hk
      cases hk
  | create _ ih => exact ih
  | @setName s km n reached hkm hn ih =>
      obtain ⟨⟨L, laid⟩, -⟩ := Kept.of_reachable reached
      rw [← messageEnds_isSome] at hkm
      rw [kwmSetName]
      obtain ⟨k, a, hk, -, found⟩ | ⟨-, -, create⟩ := laid.kweFind_cases hn true
      · rw [found]
        exact ih.kwmSet laid hkm hk
      · obtain ⟨t, L', found, laid', -, ends, names⟩ := create rfl
        rw [found]
        refine AllFixed.kwmSet ?_ laid' (ends ▸ hkm) (by rw [names, store_self])
        intro k name hk
        rw [names] at hk
        by_cases same : KeyPtr.entry k = .entry s.keywordBreak
        · rw [same, store_self] at hk
          rw [← Option.some.inj hk, fixName_fixName]
        · rw [store_ne _ same] at hk
          exact ih k name hk
  | set km n reached hkm hn ih =>
      obtain ⟨⟨L, laid⟩, -⟩ := Kept.of_reachable reached
      rw [← messageEnds_isSome] at hkm
      obtain ⟨c, hc⟩ := Option.isSome_iff_exists.mp hn
      exact ih.kwmSet laid hkm (congrArg (Option.map _) hc : nameOf _ _ = some c.name)
  | clearName km n reached hkm hn ih =>
      obtain ⟨⟨L, laid⟩, -⟩ := Kept.of_reachable reached
      rw [← messageEnds_isSome] at hkm
      obtain ⟨e, he, -, cleared⟩ | ⟨-, cleared⟩ := laid.kwmClearName_cases hkm hn
      · obtain ⟨n, name, hpair, -⟩ := laid.pair_of_mem he
        obtain ⟨L', -, clears⟩ := laid.kwmClearEntry hpair
        rw [cleared]
        exact ih.clears clears
      · rw [cleared]
        exact ih
  | clearEntry e reached he ih =>
      obtain ⟨⟨L, laid⟩, -⟩ := Kept.of_reachable reached
      obtain ⟨c, hc⟩ := Option.isSome_iff_exists.mp he
      have hpair : pair _ e = some (c.message, c.keywordEntry) := congrArg (Option.map _) hc
      obtain ⟨L', -, clears⟩ := laid.kwmClearEntry hpair
      exact ih.clears clears
  | destroy km reached hkm ih =>
      obtain ⟨⟨L, laid⟩, -⟩ := Kept.of_reachable reached
      rw [← messageEnds_isSome] at hkm
      obtain ⟨L', u, -, clears, -, names, -⟩ := laid.kwmDestroy hkm
      intro k name hk
      rw [names] at hk
      exact ih.clears clears k name hk

/-! ## What a message carries -/

namespace Laid
variable {g : Settings} {s : State} {L : Layout}

theorem carries_of_pair (h : Laid g s L) {e km : Nat} {k : KeyPtr}
    (hpair : pair s e = some (km, k)) : ∃ n name, k = .entry n ∧ nameOf s (.entry n) = some name := by
  have he := (h.messages.mem km e).mpr (messageOf_eq_some.mpr ⟨k, hpair⟩)
  obtain ⟨n, name, hpair', hn⟩ := h.pair_of_mem he
  rw [hpair] at hpair'
  exact ⟨n, name, (Prod.mk.inj (Option.some.inj hpair')).2, hn⟩

theorem kwmSet_carries (h : Laid g s L) {km n : Nat} {name : List UInt8}
    (hkm : (messageEnds s km).isSome = true) (hn : nameOf s (.entry n) = some name)
    (q : Nat) (a : List UInt8) :
    Carries (kwmSet s km (.entry n)).2 q a ↔ Carries s q a ∨ (q = km ∧ a = name) := by
  obtain ⟨L', -, names, -, pairs⟩ := h.kwmSet_keywordOf hkm hn
  constructor
  · rintro ⟨e, k, hpair, hk⟩
    rw [names] at hk
    rcases (pairs q k).mp ⟨e, hpair⟩ with ⟨e', hpair'⟩ | ⟨rfl, rfl⟩
    · exact Or.inl ⟨e', k, hpair', hk⟩
    · exact Or.inr ⟨rfl, Option.some.inj (hk.symm.trans hn)⟩
  · intro carried
    have found : ∃ k, ((∃ e, pair s e = some (q, k)) ∨ (q = km ∧ k = .entry n)) ∧
        nameOf s k = some a := by
      rcases carried with ⟨e, k, hpair, hk⟩ | ⟨rfl, rfl⟩
      · exact ⟨k, Or.inl ⟨e, hpair⟩, hk⟩
      · exact ⟨.entry n, Or.inr ⟨rfl, rfl⟩, hn⟩
    obtain ⟨k, either, hk⟩ := found
    obtain ⟨e, hpair⟩ := (pairs q k).mpr either
    exact ⟨e, k, hpair, by rw [names, hk]⟩

theorem carries_newKey (h : Laid g s L) {t : State} {fixed : List UInt8} (pairs : pair t = pair s)
    (names : nameOf t = store (nameOf s) (.entry s.keywordBreak) fixed) (q : Nat) (a : List UInt8) :
    Carries t q a ↔ Carries s q a := by
  have same : ∀ e k, pair s e = some (q, k) → nameOf t k = nameOf s k := by
    intro e k hpair
    obtain ⟨n, name, rfl, hn⟩ := h.carries_of_pair hpair
    have bound := h.keywordBound n (by rw [hn]; rfl)
    have other : KeyPtr.entry n ≠ .entry s.keywordBreak := by
      intro heq
      exact absurd (KeyPtr.entry.inj heq) (Nat.ne_of_lt bound)
    rw [names, store_ne _ other]
  rw [Carries, Carries, pairs]
  constructor
  · rintro ⟨e, k, hpair, hk⟩
    exact ⟨e, k, hpair, same e k hpair ▸ hk⟩
  · rintro ⟨e, k, hpair, hk⟩
    exact ⟨e, k, hpair, (same e k hpair).trans hk⟩

theorem kwmSetName_carries (h : Laid g s L) (fixed : AllFixed g s) {km : Nat} {n : List UInt8}
    (hkm : (messageEnds s km).isSome = true) (hn : 0 ∉ n) :
    ∃ L' name, Laid g (kwmSetName g s km n).2 L' ∧
      (messageEnds (kwmSetName g s km n).2 km).isSome = true ∧ (name = n ↔ OwnSpelling g s n) ∧
      ∀ q a, Carries (kwmSetName g s km n).2 q a ↔ Carries s q a ∨ (q = km ∧ a = name) := by
  rw [kwmSetName]
  obtain ⟨k, a, hk, fold, found⟩ | ⟨none, -, create⟩ := h.kweFind_cases hn true
  · rw [found]
    obtain ⟨L', laid', -, live, -⟩ := h.kwmSet_keywordOf hkm hk
    refine ⟨L', a, laid', (live km).trans hkm, ?_, h.kwmSet_carries hkm hk⟩
    constructor
    · rintro rfl
      refine ⟨fixed k a hk, fun j name hj fold' => ?_⟩
      obtain rfl := h.key_of_name hj hk fold'
      exact Option.some.inj (hj.symm.trans hk)
    · rintro ⟨plain, own⟩
      exact own k a hk (fold.trans (congrArg _ plain))
  · obtain ⟨t, L', found, laid', pairs, ends, names⟩ := create rfl
    rw [found]
    have hkm' : (messageEnds t km).isSome = true := by rw [ends, hkm]
    have hnew : nameOf t (.entry s.keywordBreak) = some (fixName g n) := by rw [names, store_self]
    obtain ⟨L'', laid'', -, live, -⟩ := laid'.kwmSet_keywordOf hkm' hnew
    refine ⟨L'', fixName g n, laid'', (live km).trans hkm', ?_, fun q a => ?_⟩
    · constructor
      · intro plain
        refine ⟨plain, fun j name hj fold => ?_⟩
        exact absurd (fold.trans (congrArg _ plain.symm)) (none j name hj)
      · exact fun own => own.1
    · rw [laid'.kwmSet_carries hkm' hnew, h.carries_newKey pairs names]

theorem entry_of_name (h : Laid g s L) {km e f : Nat} (he : e ∈ L.onMessage km)
    (hf : f ∈ L.onMessage km) (same : entryName s e = entryName s f) : e = f := by
  have distinct : ((L.onMessage km).map (entryName s)).Nodup := by
    refine List.pairwise_map.mpr ((h.sorted km).imp fun lt heq => ?_)
    rw [heq, strcmp_self] at lt
    exact absurd lt (Int.lt_irrefl 0)
  exact List.inj_on_of_nodup_map distinct he hf same

theorem entryName_of_pair {e km : Nat} {k : KeyPtr} {name : List UInt8}
    (hpair : pair s e = some (km, k)) (hk : nameOf s k = some name) : entryName s e = name := by
  rw [entryName, keywordOf, hpair, Option.map_some, Option.bind_some, hk]
  rfl

theorem kwmClearName_carries (h : Laid g s L) {km : Nat} {n : List UInt8}
    (hkm : (messageEnds s km).isSome = true) (hn : 0 ∉ n) :
    ((kwmClearName s km n).1 = 0 ↔ Carries s km n) ∧
      ∀ q a, Carries (kwmClearName s km n).2 q a ↔ Carries s q a ∧ ¬ (q = km ∧ a = n) := by
  obtain ⟨e, he, name, cleared⟩ | ⟨no, cleared⟩ := h.kwmClearName_cases hkm hn
  · obtain ⟨j, b, hpair, hj⟩ := h.pair_of_mem he
    obtain rfl : b = n := (entryName_of_pair hpair hj).symm.trans name
    obtain ⟨L', -, clears⟩ := h.kwmClearEntry hpair
    rw [cleared]
    refine ⟨iff_of_true rfl ⟨e, _, hpair, hj⟩, fun q a => ?_⟩
    constructor
    · rintro ⟨f, k, hf, hk⟩
      obtain ⟨hf', other⟩ := (clears.pair_iff f _).mp hf
      have hk' := ((clears.name_iff k a).mp hk).1
      refine ⟨⟨f, k, hf', hk'⟩, ?_⟩
      rintro ⟨rfl, rfl⟩
      have hmem := (h.messages.mem q f).mpr (messageOf_eq_some.mpr ⟨k, hf'⟩)
      exact other (h.entry_of_name hmem he ((entryName_of_pair hf' hk').trans name.symm))
    · rintro ⟨⟨f, k, hf, hk⟩, other⟩
      have kept : f ≠ e := by
        rintro rfl
        rw [hf] at hpair
        obtain ⟨rfl, rfl⟩ := Prod.mk.inj (Option.some.inj hpair)
        exact other ⟨rfl, Option.some.inj (hk.symm.trans hj)⟩
      have hf' := (clears.pair_iff f _).mpr ⟨hf, kept⟩
      exact ⟨f, k, hf', (clears.name_iff k a).mpr ⟨hk, Or.inl ⟨f, keywordOf_eq_some.mpr ⟨q, hf'⟩⟩⟩⟩
  · have absent : ¬ Carries s km n := by
      rintro ⟨e, k, hpair, hk⟩
      have hmem := (h.messages.mem km e).mpr (messageOf_eq_some.mpr ⟨k, hpair⟩)
      exact no e hmem (entryName_of_pair hpair hk)
    rw [cleared]
    refine ⟨iff_of_false Int.one_ne_zero absent, fun q a => ?_⟩
    constructor
    · intro carried
      refine ⟨carried, ?_⟩
      rintro ⟨rfl, rfl⟩
      exact absent carried
    · exact And.left

end Laid

/-! ## One after the other -/

def withWork : State := (kwmSetName ⟨some [byte '/'], false⟩ (kwmCreate (kwmCreate kwhInit).2).2 1
  (str "Work")).2

theorem withWork_reachable : Reachable ⟨some [byte '/'], false⟩ withWork :=
  .setName 1 (str "Work") (.create (.create .init)) rfl (by decide)

end Cone.Maildirkeywords
