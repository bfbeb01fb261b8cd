import Cone.Maildirkeywords2Import

/-! # Saving and reading back keywords (`maildir/maildirkeywords2.c`) -/
set_option autoImplicit false
namespace Cone.Maildirkeywords2

open Cone.Ctype Cone.Maildirkeywords Cone.Lib.LinkedList
open Cone.Lib.Decimal (decimal)

def keywordSet (a : Messages) (i : Nat) : Set (List UInt8) :=
  {name | ∃ km e, a.pointers i = some km ∧ messageOf a.table e = some km ∧
    entryName a.table e = name}

section Finish
variable {g : Settings} {a : Messages} {tmpMsg : Nat} {ks : List KeyPtr} {ns : List (List UInt8)}
  {W : Nat → List KeyPtr}

theorem Filled.finish (h : Filled g a tmpMsg ks ns W) :
    (∀ j name, name ∈ keywordSet { a with table := kwmDestroy a.table tmpMsg } j ↔
      ∃ k ∈ W j, nameOf a.table k = some name) ∧
    ∀ n, ((kwmDestroy a.table tmpMsg).keywords (.entry n)).isSome = true →
      ∃ j km, a.pointers j = some km ∧ Carries (kwmDestroy a.table tmpMsg) km (.entry n) := by
  obtain ⟨L, hlaid⟩ := h.loaded.laid
  obtain ⟨L', u, hlaid', hclears, hpair, hnames, hends⟩ := hlaid.kwmDestroy h.loaded.tmpLive
  generalize kwmDestroy a.table tmpMsg = t at *
  have hcarries : ∀ km k, Carries t km k ↔ ∃ j, a.pointers j = some km ∧ k ∈ W j := fun km k => by
    have hiff : Carries t km k ↔ Carries a.table km k ∧ km ≠ tmpMsg := by
      simp only [Carries, hpair, hclears.pair_iff]
      constructor
      · rintro ⟨e, he, hnot⟩
        exact ⟨⟨e, he⟩, fun heq => hnot (messageOf_eq_some.mpr ⟨k, heq ▸ he⟩)⟩
      · rintro ⟨⟨e, he⟩, hkm⟩
        refine ⟨e, he, fun hm => hkm ?_⟩
        exact Option.some.inj ((messageOf_eq_some.mpr ⟨k, he⟩).symm.trans hm)
    rw [hiff, h.loaded.carries]
    constructor
    · rintro ⟨⟨hkm, -⟩ | hj, hne⟩
      · exact absurd hkm hne
      · exact hj
    · rintro ⟨j, hj, hk⟩
      exact ⟨.inr ⟨j, hj, hk⟩, fun heq => h.notTmp j (heq ▸ hj)⟩
  have hname : ∀ km k, Carries t km k → ∃ name, nameOf a.table k = some name ∧ nameOf t k = some name :=
    fun km k hk => by
      have hs : Carries a.table km k := (h.loaded.carries km k).mpr (.inr ((hcarries km k).mp hk))
      obtain ⟨e, he⟩ := hs
      obtain ⟨n, name, hpair', hn⟩ := hlaid.pair_of_mem
        ((hlaid.messages.mem km e).mpr (messageOf_eq_some.mpr ⟨k, he⟩))
      rw [he] at hpair'
      obtain ⟨-, rfl⟩ := Prod.mk.inj (Option.some.inj hpair')
      obtain ⟨e', he'⟩ := hk
      refine ⟨name, hn, ?_⟩
      rw [hnames]
      refine (hclears.name_iff _ name).mpr ⟨hn, .inl ⟨e', ?_⟩⟩
      exact keywordOf_eq_some.mpr ⟨km, hpair ▸ he'⟩
  have hentry : ∀ e km k name, pair t e = some (km, k) → nameOf t k = some name →
      entryName t e = name := fun e km k name he hk => by
    rw [entryName, keywordOf_eq_some.mpr ⟨km, he⟩, Option.bind_some, hk]
    rfl
  refine ⟨fun j name => ?_, fun n hn => ?_⟩
  · constructor
    · rintro ⟨km, e, hj, hm, rfl⟩
      obtain ⟨k, he⟩ := messageOf_eq_some.mp hm
      obtain ⟨name, hs, ht⟩ := hname km k ⟨e, he⟩
      obtain ⟨i, hi, hk⟩ := (hcarries km k).mp ⟨e, he⟩
      exact ⟨k, h.inj i j km hi hj ▸ hk, hs.trans (congrArg some (hentry e km k name he ht).symm)⟩
    · rintro ⟨k, hk, hkname⟩
      cases hj : a.pointers j with
      | none =>
          rw [h.null j hj] at hk
          exact absurd hk List.not_mem_nil
      | some km =>
          obtain ⟨e, he⟩ := (hcarries km k).mpr ⟨j, hj, hk⟩
          obtain ⟨name', hs, ht⟩ := hname km k ⟨e, he⟩
          rw [hkname] at hs
          refine ⟨km, e, hj, messageOf_eq_some.mpr ⟨k, he⟩, ?_⟩
          rw [hentry e km k name' he ht, Option.some.inj hs]
  · obtain ⟨c, hc⟩ := Option.isSome_iff_exists.mp hn
    have hnt : nameOf u (.entry n) = some c.name := hnames ▸ congrArg (Option.map _) hc
    obtain ⟨hns, ⟨e, he⟩ | hnone⟩ := (hclears.name_iff _ _).mp hnt
    · obtain ⟨km, hkm⟩ := keywordOf_eq_some.mp he
      have hcar : Carries t km (.entry n) := ⟨e, hpair ▸ hkm⟩
      obtain ⟨j, hj, -⟩ := (hcarries km _).mp hcar
      exact ⟨j, km, hj, hcar⟩
    · obtain ⟨e, he⟩ := (h.loaded.carries tmpMsg (.entry n)).mpr
        (.inl ⟨rfl, h.loaded.keys n c.name hns⟩)
      exact absurd (keywordOf_eq_some.mpr ⟨tmpMsg, he⟩) (hnone e)

end Finish

/-! ## The import of a file -/

section Import
variable {g : Settings} {info : ReadInfo} {a : Messages}

structure Fresh (g : Settings) (a : Messages) : Prop where
  laid : ∃ L, Laid g a.table L
  noKeywords : ∀ n, nameOf a.table (.entry n) = none
  live : ∀ j km, a.pointers j = some km → (messageEnds a.table km).isSome = true
  inj : ∀ i j km, a.pointers i = some km → a.pointers j = some km → i = j

theorem Fresh.start (h : Fresh g a) :
    Loaded g (kwmCreate a.table).2 (kwmCreate a.table).1 [] [] (fun _ _ => False) ∧
      (∀ j, a.pointers j ≠ some (kwmCreate a.table).1) ∧
      ∀ j km, a.pointers j = some km → (messageEnds (kwmCreate a.table).2 km).isSome = true := by
  obtain ⟨L, hlaid⟩ := h.laid
  have hends : messageEnds (kwmCreate a.table).2 =
      store (messageEnds a.table) a.table.messageBreak (none, none) := map_store _ _ _ _
  have hne : ∀ j km, a.pointers j = some km → km ≠ a.table.messageBreak := fun j km hj =>
    Nat.ne_of_lt (hlaid.messageBound km (h.live j km hj))
  refine ⟨⟨⟨L, hlaid.kwmCreate⟩, ?_, rfl, nofun, fun n name hn => ?_, fun km k => ?_⟩, ?_, ?_⟩
  · rw [hends]
    exact congrArg Option.isSome (store_self _ _ _)
  · exact nomatch (h.noKeywords n).symm.trans hn
  · refine iff_of_false ?_ (by simp)
    rintro ⟨e, he⟩
    change pair a.table e = _ at he
    obtain ⟨n, name, -, hn⟩ := hlaid.pair_of_mem
      ((hlaid.messages.mem km e).mpr (messageOf_eq_some.mpr ⟨k, he⟩))
    exact nomatch (h.noKeywords n).symm.trans hn
  · exact fun j hj => hne j _ hj rfl
  · intro j km hj
    rw [hends, store_ne _ (hne j km hj)]
    exact h.live j km hj

theorem length_lt_lines (lines : List (List UInt8 × List Nat)) :
    lines.length < (lines.flatMap renderLine).length + 1 := by
  induction lines with
  | nil => exact Nat.zero_lt_one
  | cons line lines ih =>
      rw [List.flatMap_cons, List.length_append, List.length_cons, renderLine, List.length_append]
      simp only [List.length_append, List.length_cons]
      omega

theorem length_lt_renderFile (names : List (List UInt8)) (lines : List (List UInt8 × List Nat)) :
    names.length < (renderFile names lines).length + 1 := by
  induction names with
  | nil => exact Nat.succ_pos _
  | cons name names ih =>
      rw [renderFile] at ih ⊢
      simp only [List.flatMap_cons, List.length_append, List.length_cons] at ih ⊢
      omega

theorem kwImport_renderFile (h : Fresh g a) (names : List (List UInt8))
    (hnames : ∀ name ∈ names, name ≠ [] ∧ NL ∉ name ∧ 0 ∉ name ∧ fixName g name = name)
    (hdistinct : names.Pairwise fun a b => foldCase g a ≠ foldCase g b)
    (lines : List (List UInt8 × List Nat)) (find : List UInt8 → Nat)
    (hlines : ∀ line ∈ lines, byte ':' ∉ line.1 ∧ NL ∉ line.1 ∧ 0 ∉ line.1 ∧
      info.findMessage line.1 = some (find line.1)) :
    ∃ a' ks, kwImport g info (renderFile names lines) a =
        (0, { a' with table := kwmDestroy a'.table (kwmCreate a.table).1 }) ∧
      Filled g a' (kwmCreate a.table).1 ks names (lines.foldl
        (fun W line => Function.update W (find line.1) (readNumbers ks line.2)) fun _ => []) := by
  obtain ⟨hloaded, hnotTmp, hlive⟩ := h.start
  have htext : names.flatMap (· ++ [NL]) ++ NL :: lines.flatMap renderLine = renderFile names lines :=
    rfl
  obtain ⟨buf, ks, t, hkeywords, hloaded', hlive'⟩ := @keywordLoop_eq g _ (lines.flatMap renderLine)
    names _ _ _ _ hloaded hnames hdistinct [] _ (length_lt_renderFile names lines)
  rw [htext] at hkeywords
  have hfilled : Filled g ⟨t, a.pointers⟩ (kwmCreate a.table).1 ks names fun _ => [] := by
    refine ⟨⟨hloaded'.laid, hloaded'.tmpLive, hloaded'.names, hloaded'.entries, hloaded'.keys,
      fun km k => ?_⟩, fun j km hj => (hlive' km).trans (hlive j km hj), h.inj, hnotTmp, fun _ _ => rfl⟩
    rw [hloaded'.carries]
    simp
  obtain ⟨a', hloop, hfilled'⟩ := lineLoop_eq 0 lines find hlines hfilled buf
    (length_lt_lines lines)
  refine ⟨a', ks, ?_, hfilled'⟩
  simp only [kwImport, hkeywords, if_true, hloop]

end Import

/-! ## What the file says, on both sides -/

section Sides
variable {g : Settings}

theorem foldl_lines (ks : List KeyPtr) (find : List UInt8 → Nat) (lines : List (List UInt8 × List Nat))
    (W : Nat → List KeyPtr) (hnodup : (lines.map fun line => find line.1).Nodup) :
    let W' := lines.foldl (fun W line => Function.update W (find line.1) (readNumbers ks line.2)) W
    (∀ line ∈ lines, W' (find line.1) = readNumbers ks line.2) ∧
      ∀ j, j ∉ lines.map (fun line => find line.1) → W' j = W j := by
  induction lines generalizing W with
  | nil => exact ⟨nofun, fun _ _ => rfl⟩
  | cons line lines ih =>
      rw [List.map_cons, List.nodup_cons] at hnodup
      obtain ⟨hmem, hother⟩ := ih (Function.update W (find line.1) (readNumbers ks line.2)) hnodup.2
      refine ⟨List.forall_mem_cons.mpr ⟨?_, hmem⟩, fun j hj => ?_⟩
      · exact (hother _ hnodup.1).trans (Function.update_self _ _ _)
      · rw [List.map_cons] at hj
        have hne : j ≠ find line.1 := fun heq => hj (heq ▸ List.mem_cons_self)
        exact (hother j fun h => hj (List.mem_cons_of_mem _ h)).trans (Function.update_of_ne hne _ _)

theorem exists_readNumbers {s : State} {ks : List KeyPtr} {ns : List (List UInt8)}
    (h : ks.map (nameOf s) = ns.map some) (nums : List Nat) (name : List UInt8) :
    (∃ k ∈ readNumbers ks nums, nameOf s k = some name) ↔
      ∃ n ∈ nums, ns[readBack n]? = some name := by
  have hat : ∀ i : Nat, ks[i]?.map (nameOf s) = ns[i]?.map some := fun i => by
    rw [← List.getElem?_map, h, List.getElem?_map]
  simp only [readNumbers, List.mem_filterMap]
  constructor
  · rintro ⟨k, ⟨n, hn, hk⟩, hname⟩
    refine ⟨n, hn, ?_⟩
    have hi := hat (readBack n)
    rw [hk, Option.map_some, hname] at hi
    obtain ⟨a, ha, hai⟩ := Option.map_eq_some_iff.mp hi.symm
    rw [ha, Option.some.inj hai]
  · rintro ⟨n, hn, hname⟩
    have hi := hat (readBack n)
    rw [hname, Option.map_some] at hi
    obtain ⟨k, hk, hki⟩ := Option.map_eq_some_iff.mp hi
    exact ⟨k, ⟨n, hn, hk⟩, hki⟩

def numbersAt (a : Messages) (L : Layout) (i : Nat) : List Nat :=
  (a.pointers i).elim [] (numbers a.table L)

theorem mem_keywordSet {a : Messages} {L : Layout} (h : Laid g a.table L) (i : Nat)
    (name : List UInt8) : name ∈ keywordSet a i ↔
      ∃ n ∈ numbersAt a L i, ((keys L).map (keywordName a.table))[n]? = some name := by
  have hat : ∀ km, ∀ e ∈ L.onMessage km, ((keys L).map (keywordName a.table))[(keys L).idxOf
      (entry a.table e).keywordEntry]? = some (entryName a.table e) := fun km e he => by
    obtain ⟨n, c, hpair, hn⟩ := h.pair_of_mem he
    have hkey := (entry_of_pair hpair).2
    have hmem : (entry a.table e).keywordEntry ∈ keys L :=
      hkey ▸ (mem_keys h).mpr ⟨n, c, rfl, hn⟩
    rw [List.getElem?_map, List.getElem?_idxOf hmem, Option.map_some,
      entryName_eq (by rw [hpair]; rfl)]
  rw [numbersAt]
  cases hi : a.pointers i with
  | none =>
      refine iff_of_false ?_ (by simp)
      rintro ⟨km, e, hkm, -⟩
      exact nomatch hi.symm.trans hkm
  | some km =>
      simp only [Option.elim_some, numbers, List.mem_map]
      constructor
      · rintro ⟨q, e, hq, hm, rfl⟩
        have he : e ∈ L.onMessage km := (h.messages.mem km e).mpr
          (Option.some.inj (hi.symm.trans hq) ▸ hm)
        exact ⟨_, ⟨e, he, rfl⟩, hat km e he⟩
      · rintro ⟨_, ⟨e, he, rfl⟩, hname⟩
        rw [hat km e he] at hname
        exact ⟨km, e, hi, (h.messages.mem km e).mp he, Option.some.inj hname⟩

theorem fixName_fixName (name : List UInt8) : fixName g (fixName g name) = fixName g name := by
  rw [fixName, fixName]
  cases g.verbotten with
  | none => rfl
  | some v =>
      simp only [List.map_map]
      refine List.map_congr_left fun c _ => ?_
      rw [Function.comp_apply]
      by_cases hc : v.contains c = true
      · rw [if_pos hc, ite_self]
      · rw [if_neg hc, if_neg hc]

theorem fixName_of_reachable {s : State} (h : Reachable g s) {n : Nat} {name : List UInt8}
    (hn : nameOf s (.entry n) = some name) : fixName g name = name := by
  induction h generalizing n name with
  | init => exact nomatch hn
  | create _ ih => exact ih hn
  | @setName s km a hs hkm ha ih =>
      obtain ⟨⟨L, hlaid⟩, -⟩ := Kept.of_reachable hs
      rw [← messageEnds_isSome] at hkm
      rw [kwmSetName] at hn
      obtain ⟨k, c, hk, -, hfind⟩ | ⟨-, -, hnew⟩ := hlaid.kweFind_cases ha true
      · rw [hfind] at hn
        obtain ⟨_, _, hnames, -⟩ := hlaid.kwmSet_keywordOf hkm hk
        exact ih (hnames ▸ hn)
      · obtain ⟨t, L', hfind, hlaid', hpair, hends, hnames⟩ := hnew rfl
        rw [hfind] at hn
        have hkey : nameOf t (.entry s.keywordBreak) = some (fixName g a) := hnames ▸ store_self _ _ _
        obtain ⟨_, _, hnames', -⟩ := hlaid'.kwmSet_keywordOf (hends ▸ hkm) hkey
        rw [hnames', hnames] at hn
        by_cases hne : KeyPtr.entry n = .entry s.keywordBreak
        · rw [hne, store_self] at hn
          rw [← Option.some.inj hn, fixName_fixName]
        · rw [store_ne _ hne] at hn
          exact ih hn
  | set km a hs hkm ha ih =>
      obtain ⟨⟨L, hlaid⟩, -⟩ := Kept.of_reachable hs
      rw [← messageEnds_isSome] at hkm
      obtain ⟨c, hc⟩ := Option.isSome_iff_exists.mp ha
      obtain ⟨_, _, hnames, -⟩ := hlaid.kwmSet_keywordOf hkm (congrArg (Option.map _) hc)
      exact ih (hnames ▸ hn)
  | clearName km a hs hkm ha ih =>
      obtain ⟨⟨L, hlaid⟩, -⟩ := Kept.of_reachable hs
      rw [← messageEnds_isSome] at hkm
      obtain ⟨e, he, -, hclear⟩ | ⟨-, hsame⟩ := hlaid.kwmClearName_cases hkm ha
      · obtain ⟨_, _, hpair, -⟩ := hlaid.pair_of_mem he
        obtain ⟨_, -, hclears⟩ := hlaid.kwmClearEntry hpair
        rw [hclear] at hn
        exact ih ((hclears.name_iff _ _).mp hn).1
      · rw [hsame] at hn
        exact ih hn
  | clearEntry e hs he ih =>
      obtain ⟨⟨L, hlaid⟩, -⟩ := Kept.of_reachable hs
      obtain ⟨c, hc⟩ := Option.isSome_iff_exists.mp he
      obtain ⟨_, -, hclears⟩ := hlaid.kwmClearEntry (congrArg (Option.map _) hc)
      exact ih ((hclears.name_iff _ _).mp hn).1
  | destroy km hs hkm ih =>
      obtain ⟨⟨L, hlaid⟩, -⟩ := Kept.of_reachable hs
      rw [← messageEnds_isSome] at hkm
      obtain ⟨_, _, -, hclears, -, hnames, -⟩ := hlaid.kwmDestroy hkm
      rw [hnames] at hn
      exact ih ((hclears.name_iff _ _).mp hn).1

end Sides

/-! ## The round trip -/

/-- The keywords of a table, as `libmail_kwEnumerate` finds them. -/
def keywords (s : State) : List KeyPtr := (kwEnumerate (fun r k => (r.1, r.2 ++ [k])) (s, [])).2

theorem keywords_eq {g : Settings} {s : State} {L : Layout} (h : Laid g s L) : keywords s = keys L := by
  have henum := @kwEnumerate_eq _ (fun r k => (r.1, r.2 ++ [k])) s g L h (fun _ _ => rfl)
    (fun _ _ => rfl) (s, []) rfl rfl
  have hfold : ∀ (l acc : List KeyPtr),
      (l.foldl (fun (r : State × List KeyPtr) k => (r.1, r.2 ++ [k])) (s, acc)).2 = acc ++ l :=
    fun l => by
      induction l with
      | nil => exact fun acc => (List.append_nil acc).symm
      | cons k l ih =>
          intro acc
          rw [List.foldl_cons, ih, List.append_assoc]
          rfl
  rw [keywords, henum, hfold, List.nil_append]

def ReadsBack (mdirsep : UInt8) (info info' : ReadInfo) (a : Messages) (r : Int × Messages) : Prop :=
  r.1 = 0 ∧
  (∀ i < info.getMessageCount, ∀ j,
    info'.findMessage (baseName mdirsep (info.getMessageFilename i)) = some j →
      keywordSet r.2 j = keywordSet a i) ∧
  ∀ n, (r.2.table.keywords (.entry n)).isSome = true →
    ∃ j km e, r.2.pointers j = some km ∧ pair r.2.table e = some (km, .entry n)

structure Exportable (g : Settings) (mdirsep : UInt8) (info : ReadInfo) (a : Messages) : Prop where
  reachable : Reachable g a.table
  live : ∀ i < info.getMessageCount, ∀ km, a.pointers i = some km →
    (a.table.messages km).isSome = true
  all : ∀ e km, messageOf a.table e = some km → ∃ i < info.getMessageCount, a.pointers i = some km
  names : ∀ n name, nameOf a.table (.entry n) = some name → name ≠ [] ∧ NL ∉ name
  files : ∀ i < info.getMessageCount,
    byte ':' ∉ baseName mdirsep (info.getMessageFilename i) ∧
    NL ∉ baseName mdirsep (info.getMessageFilename i) ∧
    0 ∉ baseName mdirsep (info.getMessageFilename i)

structure Importable (g : Settings) (mdirsep : UInt8) (info info' : ReadInfo) (a : Messages) :
    Prop where
  reachable : Reachable g a.table
  empty : kwhCheck a.table = 0
  live : ∀ j km, a.pointers j = some km → (a.table.messages km).isSome = true
  inj : ∀ i j km, a.pointers i = some km → a.pointers j = some km → i = j
  known : ∀ i < info.getMessageCount,
    (info'.findMessage (baseName mdirsep (info.getMessageFilename i))).isSome = true
  distinct : ∀ i < info.getMessageCount, ∀ j < info.getMessageCount,
    info'.findMessage (baseName mdirsep (info.getMessageFilename i)) =
      info'.findMessage (baseName mdirsep (info.getMessageFilename j)) → i = j

section RoundTrip
variable {g : Settings} {mdirsep : UInt8} {info info' : ReadInfo} {a b : Messages}

theorem Importable.fresh (h : Importable g mdirsep info info' b) : Fresh g b := by
  obtain ⟨⟨L, hlaid⟩, -⟩ := Kept.of_reachable h.reachable
  refine ⟨⟨L, hlaid⟩, fun n => ?_, fun j km hj => ?_, h.inj⟩
  · by_contra hne
    obtain ⟨name, hname⟩ := Option.ne_none_iff_exists'.mp hne
    have hin := hlaid.mem_inBucket.mpr ⟨n, name, rfl, hname, rfl⟩
    rw [hlaid.kwhCheck_eq_zero.mp h.empty] at hin
    exact List.not_mem_nil hin
  · rw [messageEnds_isSome]
    exact h.live j km hj

theorem lineOf_eq_some {L : Layout} {i : Nat} {line : List UInt8 × List Nat}
    (h : lineOf mdirsep info a.table L i (a.pointers i) = some line) :
    line.1 = baseName mdirsep (info.getMessageFilename i) ∧ line.2 = numbersAt a L i := by
  rw [lineOf] at h
  rw [numbersAt]
  cases hi : a.pointers i with
  | none =>
      rw [hi] at h
      cases h
  | some km =>
      rw [hi, Option.bind_some] at h
      split at h
      · cases h
      · rw [← Option.some.inj h]
        exact ⟨rfl, rfl⟩

theorem numbersAt_of_lineOf_eq_none {L : Layout} {i : Nat}
    (h : lineOf mdirsep info a.table L i (a.pointers i) = none) : numbersAt a L i = [] := by
  rw [lineOf] at h
  rw [numbersAt]
  cases hi : a.pointers i with
  | none => rfl
  | some km =>
      rw [hi, Option.bind_some] at h
      split at h
      · rename_i hon
        rw [Option.elim_some, numbers, hon]
        rfl
      · cases h

theorem import_export (hexport : Exportable g mdirsep info a)
    (himport : Importable g mdirsep info info' b) {L : Layout} (hlaid : Laid g a.table L) :
    ∃ a' ks W, kwImport g info' (kwExport mdirsep info a).2.1 b =
        (0, { a' with table := kwmDestroy a'.table (kwmCreate b.table).1 }) ∧
      Filled g a' (kwmCreate b.table).1 ks ((keys L).map (keywordName a.table)) W ∧
      ∀ i < info.getMessageCount, ∀ j,
        info'.findMessage (baseName mdirsep (info.getMessageFilename i)) = some j →
          W j = readNumbers ks (numbersAt a L i) := by
  have htext := kwExport_text mdirsep info hlaid fun i hi km hkm => by
    rw [messageEnds_isSome]
    exact hexport.live i hi km hkm
  rw [htext]
  by_cases hnil : keys L = []
  · obtain ⟨hloaded, hnotTmp, hlive⟩ := himport.fresh.start
    refine ⟨{ b with table := (kwmCreate b.table).2 }, [], fun _ => [], ?_, ?_, fun i _ j _ => ?_⟩
    · rw [if_pos hnil]
      rfl
    · rw [hnil]
      refine ⟨⟨hloaded.laid, hloaded.tmpLive, hloaded.names, hloaded.entries, hloaded.keys,
        fun km k => ?_⟩, hlive, himport.inj, hnotTmp, fun _ _ => rfl⟩
      rw [hloaded.carries]
      simp
    · simp [readNumbers]
  · rw [if_neg hnil]
    generalize hlines : ((List.range info.getMessageCount).filterMap fun i =>
      lineOf mdirsep info a.table L i (a.pointers i)) = lines
    have hmem : ∀ line ∈ lines, ∃ i < info.getMessageCount,
        lineOf mdirsep info a.table L i (a.pointers i) = some line := fun line hline => by
      rw [← hlines] at hline
      obtain ⟨i, hi, hsome⟩ := List.mem_filterMap.mp hline
      exact ⟨i, List.mem_range.mp hi, hsome⟩
    have hfind : ∀ line ∈ lines, info'.findMessage line.1 =
        some ((info'.findMessage line.1).getD 0) := fun line hline => by
      obtain ⟨i, hi, hsome⟩ := hmem line hline
      obtain ⟨j, hj⟩ := Option.isSome_iff_exists.mp (himport.known i hi)
      rw [(lineOf_eq_some hsome).1, hj]
      rfl
    have hnames : ∀ name ∈ (keys L).map (keywordName a.table),
        name ≠ [] ∧ NL ∉ name ∧ 0 ∉ name ∧ fixName g name = name := fun name hname => by
      obtain ⟨k, hk, rfl⟩ := List.mem_map.mp hname
      obtain ⟨n, c, rfl, hc⟩ := (mem_keys hlaid).mp hk
      rw [keywordName_eq, hc]
      obtain ⟨hne, hnl⟩ := hexport.names n c hc
      exact ⟨hne, hnl, hlaid.names n c hc, fixName_of_reachable hexport.reachable hc⟩
    have hdistinct : ((keys L).map (keywordName a.table)).Pairwise
        fun x y => foldCase g x ≠ foldCase g y := by
      refine List.pairwise_map.mpr ((nodup_keys hlaid).imp_of_mem fun {k k'} hk hk' hne heq => hne ?_)
      obtain ⟨n, c, rfl, hc⟩ := (mem_keys hlaid).mp hk
      obtain ⟨n', c', rfl, hc'⟩ := (mem_keys hlaid).mp hk'
      rw [keywordName_eq, hc, keywordName_eq, hc'] at heq
      rw [hlaid.key_of_name hc hc' heq]
    obtain ⟨a', ks, himp, hfilled⟩ := kwImport_renderFile himport.fresh _ hnames hdistinct lines
      (fun p => (info'.findMessage p).getD 0) fun line hline => by
        obtain ⟨i, hi, hsome⟩ := hmem line hline
        obtain ⟨hcolon, hnl, hzero⟩ := hexport.files i hi
        have hfound := hfind line hline
        rw [(lineOf_eq_some hsome).1] at hfound ⊢
        exact ⟨hcolon, hnl, hzero, hfound⟩
    have hnodup : (lines.map fun line => (info'.findMessage line.1).getD 0).Nodup := by
      rw [← hlines]
      refine List.pairwise_map.mpr (List.pairwise_filterMap.mpr ?_)
      refine List.nodup_range.imp_of_mem fun {i j} hi hj hij l hl l' hl' heq => hij ?_
      have hi' := List.mem_range.mp hi
      have hj' := List.mem_range.mp hj
      obtain ⟨x, hx⟩ := Option.isSome_iff_exists.mp (himport.known i hi')
      obtain ⟨y, hy⟩ := Option.isSome_iff_exists.mp (himport.known j hj')
      rw [(lineOf_eq_some hl).1, (lineOf_eq_some hl').1, hx, hy] at heq
      refine himport.distinct i hi' j hj' ?_
      rw [hx, hy]
      exact congrArg some heq
    obtain ⟨hon, hoff⟩ := foldl_lines ks (fun p => (info'.findMessage p).getD 0) lines (fun _ => []) hnodup
    refine ⟨a', ks, _, himp, hfilled, fun i hi j hj => ?_⟩
    cases hline : lineOf mdirsep info a.table L i (a.pointers i) with
    | some line =>
        have hin : line ∈ lines := by
          rw [← hlines]
          exact List.mem_filterMap.mpr ⟨i, List.mem_range.mpr hi, hline⟩
        obtain ⟨hbase, hnumbers⟩ := lineOf_eq_some hline
        have hW := hon line hin
        rw [hbase, hj, hnumbers] at hW
        exact hW
    | none =>
        rw [numbersAt_of_lineOf_eq_none hline]
        refine hoff j fun hin => ?_
        obtain ⟨line, hin, hj'⟩ := List.mem_map.mp hin
        obtain ⟨i', hi', hline'⟩ := hmem line hin
        have hfound := hfind line hin
        rw [hj', (lineOf_eq_some hline').1, ← hj] at hfound
        rw [himport.distinct i' hi' i hi hfound, hline] at hline'
        cases hline'

theorem mem_keywordSet_import (hexport : Exportable g mdirsep info a)
    (himport : Importable g mdirsep info info' b) {L : Layout} (hlaid : Laid g a.table L) {i : Nat}
    (hi : i < info.getMessageCount) {j : Nat}
    (hj : info'.findMessage (baseName mdirsep (info.getMessageFilename i)) = some j)
    (name : List UInt8) :
    name ∈ keywordSet (kwImport g info' (kwExport mdirsep info a).2.1 b).2 j ↔
      ∃ n ∈ numbersAt a L i, ((keys L).map (keywordName a.table))[readBack n]? = some name := by
  obtain ⟨a', ks, W, himp, hfilled, hW⟩ := import_export hexport himport hlaid
  rw [himp, hfilled.finish.1, hW i hi j hj]
  exact exists_readNumbers hfilled.loaded.names _ _

theorem readsBack_of_le (hexport : Exportable g mdirsep info a)
    (himport : Importable g mdirsep info info' b) (hle : (keywords a.table).length ≤ 2 ^ 31) :
    ReadsBack mdirsep info info' a (kwImport g info' (kwExport mdirsep info a).2.1 b) := by
  obtain ⟨⟨L, hlaid⟩, -⟩ := Kept.of_reachable hexport.reachable
  rw [keywords_eq hlaid] at hle
  refine ⟨?_, fun i hi j hj => Set.ext fun name => ?_, ?_⟩
  · obtain ⟨a', ks, W, himp, -⟩ := import_export hexport himport hlaid
    rw [himp]
  · rw [mem_keywordSet_import hexport himport hlaid hi hj, mem_keywordSet hlaid]
    refine exists_congr fun n => and_congr_right fun hn => ?_
    have hlt : n < (keys L).length := by
      rw [numbersAt] at hn
      cases hkm : a.pointers i with
      | none =>
          rw [hkm] at hn
          exact absurd hn List.not_mem_nil
      | some km =>
          rw [hkm] at hn
          obtain ⟨e, he, rfl⟩ := List.mem_map.mp hn
          obtain ⟨m, c, hpair, hm⟩ := hlaid.pair_of_mem he
          rw [(entry_of_pair hpair).2, List.idxOf_lt_length_iff]
          exact (mem_keys hlaid).mpr ⟨m, c, rfl, hm⟩
    rw [readBack_of_lt (by omega)]
  · obtain ⟨a', ks, W, himp, hfilled, -⟩ := import_export hexport himport hlaid
    rw [himp]
    exact fun n hn => by
      obtain ⟨j, km, hj, e, he⟩ := hfilled.finish.2 n hn
      exact ⟨j, km, e, hj, he⟩

/-- With more keywords, a message loses the one whose number is no `int`. -/
theorem not_readsBack_of_lt (hexport : Exportable g mdirsep info a)
    (himport : Importable g mdirsep info info' b) (hlt : 2 ^ 31 < (keywords a.table).length) :
    ¬ReadsBack mdirsep info info' a (kwImport g info' (kwExport mdirsep info a).2.1 b) := by
  obtain ⟨⟨L, hlaid⟩, hcarried⟩ := Kept.of_reachable hexport.reachable
  rw [keywords_eq hlaid] at hlt
  rintro ⟨-, hsets, -⟩
  generalize hk : (keys L)[2 ^ 31] = k
  have hmem : k ∈ keys L := hk ▸ List.getElem_mem hlt
  obtain ⟨n, name, rfl, hn⟩ := (mem_keys hlaid).mp hmem
  obtain ⟨e, he⟩ := hcarried _ name hn ⟨n, rfl⟩
  obtain ⟨km, hpair⟩ := keywordOf_eq_some.mp he
  have hmessage := messageOf_eq_some.mpr ⟨_, hpair⟩
  obtain ⟨i, hi, hkm⟩ := hexport.all e km hmessage
  obtain ⟨j, hj⟩ := Option.isSome_iff_exists.mp (himport.known i hi)
  have hname : name ∈ keywordSet a i := by
    refine ⟨km, e, hkm, hmessage, ?_⟩
    rw [entryName, he, Option.bind_some, hn]
    rfl
  rw [← hsets i hi j hj, mem_keywordSet_import hexport himport hlaid hi hj] at hname
  obtain ⟨m, -, hm⟩ := hname
  rw [List.getElem?_map] at hm
  obtain ⟨k', hk', hname'⟩ := Option.map_eq_some_iff.mp hm
  obtain ⟨n', c, rfl, hn'⟩ := (mem_keys hlaid).mp (List.mem_of_getElem? hk')
  rw [keywordName_eq, hn'] at hname'
  have hsame : n' = n := hlaid.key_of_name hn' hn (congrArg (foldCase g) hname')
  obtain ⟨hlt', hget⟩ := List.getElem?_eq_some_iff.mp hk'
  have hindex := (nodup_keys hlaid).getElem_inj_iff.mp (hget.trans (hsame ▸ hk.symm))
  exact readBack_ne m hindex

/-- What is saved is read back if and only if every number of a keyword is an `int`. -/
theorem kwImport_kwExport (hexport : Exportable g mdirsep info a)
    (himport : Importable g mdirsep info info' b) :
    ReadsBack mdirsep info info' a (kwImport g info' (kwExport mdirsep info a).2.1 b) ↔
      (keywords a.table).length ≤ 2 ^ 31 := by
  refine ⟨fun h => ?_, readsBack_of_le hexport himport⟩
  by_contra hlt
  exact not_readsBack_of_lt hexport himport (Nat.lt_of_not_le hlt) h

end RoundTrip

/-! ## As many keywords as one likes -/

section Many

def manyKeywords (g : Settings) : Nat → State
  | 0 => (kwmCreate kwhInit).2
  | n + 1 => (kwmSetName g (manyKeywords g n) 0 (decimal n)).2

def oneMessage : ReadInfo where
  findMessage _ := some 0
  getMessageCount := 1
  getMessageFilename _ := [byte 'm', byte ':', byte '2', byte ',']

theorem kwmSetName_names {g : Settings} {s : State} {L : Layout} (h : Laid g s L) {km : Nat}
    (hkm : (messageEnds s km).isSome = true) {name : List UInt8} (hname : 0 ∉ name) :
    (∀ k a, nameOf s k = some a → nameOf (kwmSetName g s km name).2 k = some a) ∧
    (∃ k a, nameOf (kwmSetName g s km name).2 (.entry k) = some a ∧
      foldCase g a = foldCase g (fixName g name)) ∧
    (∀ k a, nameOf (kwmSetName g s km name).2 k = some a → nameOf s k = some a ∨ a = fixName g name) ∧
    (∀ q j, Carries (kwmSetName g s km name).2 q j → Carries s q j ∨ q = km) ∧
    ∀ q, (messageEnds (kwmSetName g s km name).2 q).isSome = (messageEnds s q).isSome := by
  rw [kwmSetName]
  obtain ⟨n, a, hn, hfold, hfind⟩ | ⟨-, -, hnew⟩ := h.kweFind_cases hname true
  · rw [hfind]
    obtain ⟨_, _, hnames, hlive, hcarries⟩ := h.kwmSet_keywordOf hkm hn
    simp only [hnames]
    exact ⟨fun k a hk => hk, ⟨n, a, hn, hfold⟩, fun k a hk => .inl hk,
      fun q j hq => ((hcarries q j).mp hq).imp_right And.left, hlive⟩
  · obtain ⟨t, L', hfind, hlaid', hpair, hends, hnames⟩ := hnew rfl
    rw [hfind]
    have hkey : nameOf t (.entry s.keywordBreak) = some (fixName g name) := hnames ▸ store_self _ _ _
    obtain ⟨_, _, hnames', hlive, hcarries⟩ := hlaid'.kwmSet_keywordOf (hends ▸ hkm) hkey
    simp only [hnames']
    refine ⟨fun k a hk => ?_, ⟨_, _, hkey, rfl⟩, fun k a hk => ?_, fun q j hq => ?_, fun q => ?_⟩
    · have hne : k ≠ .entry s.keywordBreak := fun heq => by
        rw [heq] at hk
        exact absurd (h.keywordBound _ (by rw [hk]; rfl)) (Nat.lt_irrefl _)
      rw [hnames, store_ne _ hne, hk]
    · rw [hnames] at hk
      by_cases hne : k = .entry s.keywordBreak
      · rw [hne, store_self] at hk
        exact .inr (Option.some.inj hk).symm
      · rw [store_ne _ hne] at hk
        exact .inl hk
    · obtain ⟨e, he⟩ | ⟨hq, -⟩ := (hcarries q j).mp hq
      · exact .inl ⟨e, hpair ▸ he⟩
      · exact .inr hq
    · rw [hlive, hends]

theorem zero_notMem_decimal (n : Nat) : 0 ∉ decimal n ∧ NL ∉ decimal n := by
  have h := mem_joinNumbers [n]
  exact ⟨fun hm => (h 0 hm).2 rfl, fun hm => (h NL hm).1 rfl⟩

theorem manyKeywords_spec (n : Nat) :
    Reachable ⟨none, true⟩ (manyKeywords ⟨none, true⟩ n) ∧
    ((manyKeywords ⟨none, true⟩ n).messages 0).isSome = true ∧
    (∀ q k, Carries (manyKeywords ⟨none, true⟩ n) q k → q = 0) ∧
    (∀ k a, nameOf (manyKeywords ⟨none, true⟩ n) (.entry k) = some a → ∃ i, a = decimal i) ∧
    ∀ i < n, ∃ k, nameOf (manyKeywords ⟨none, true⟩ n) (.entry k) = some (decimal i) := by
  induction n with
  | zero => exact ⟨.create .init, rfl, fun q k ⟨e, he⟩ => (nomatch he), fun k a hk => (nomatch hk), nofun⟩
  | succ n ih =>
      obtain ⟨hreach, hlive, hzero, hdecimal, hall⟩ := ih
      obtain ⟨⟨L, hlaid⟩, -⟩ := Kept.of_reachable hreach
      have hzeroName := (zero_notMem_decimal n).1
      rw [manyKeywords]
      generalize manyKeywords ⟨none, true⟩ n = s at *
      obtain ⟨hkeep, ⟨k, a, hk, hfold⟩, hnames, hcarries, hlive'⟩ :=
        kwmSetName_names hlaid (messageEnds_isSome s 0 ▸ hlive) hzeroName
      refine ⟨.setName 0 _ hreach hlive hzeroName, ?_, fun q j hq => ?_, fun j c hj => ?_, fun i hi => ?_⟩
      · rw [← messageEnds_isSome, hlive', messageEnds_isSome]
        exact hlive
      · obtain hq | hq := hcarries q j hq
        · exact hzero q j hq
        · exact hq
      · obtain hj | hj := hnames _ c hj
        · exact hdecimal j c hj
        · exact ⟨n, hj⟩
      · by_cases hin : i = n
        · have ha : a = decimal n := hfold
          rw [ha] at hk
          exact ⟨k, hin ▸ hk⟩
        · obtain ⟨j, hj⟩ := hall i (by omega)
          exact ⟨j, hkeep _ _ hj⟩

def one (n : Nat) : Messages where
  table := manyKeywords ⟨none, true⟩ n
  pointers
    | 0 => some 0
    | _ + 1 => none

theorem exportable_one (n : Nat) : Exportable ⟨none, true⟩ (byte ':') oneMessage (one n) := by
  obtain ⟨hreach, hlive, hzero, hdecimal, -⟩ := manyKeywords_spec n
  refine ⟨hreach, fun i hi km hkm => ?_, fun e km he => ⟨0, Nat.zero_lt_one, ?_⟩, fun k a hk => ?_,
    fun i hi => ?_⟩
  · obtain rfl : i = 0 := Nat.lt_one_iff.mp hi
    exact Option.some.inj hkm ▸ hlive
  · obtain ⟨k, hk⟩ := messageOf_eq_some.mp he
    rw [hzero km k ⟨e, hk⟩]
    rfl
  · obtain ⟨i, rfl⟩ := hdecimal k a hk
    exact ⟨Lib.Decimal.decimal_ne_nil i, (zero_notMem_decimal i).2⟩
  · rw [show baseName (byte ':') (oneMessage.getMessageFilename i) = [byte 'm'] from rfl]
    decide

theorem le_length_keywords (n : Nat) : n ≤ (keywords (one n).table).length := by
  obtain ⟨hreach, -, -, -, hall⟩ := manyKeywords_spec n
  rw [show (one n).table = manyKeywords ⟨none, true⟩ n from rfl]
  obtain ⟨⟨L, hlaid⟩, -⟩ := Kept.of_reachable hreach
  rw [keywords_eq hlaid]
  have hnodup : ((List.range n).map decimal).Nodup :=
    List.nodup_range.map fun _ _ h => Lib.Decimal.decimal_injective h
  have hsub : (List.range n).map decimal ⊆
      (keys L).map (keywordName (manyKeywords ⟨none, true⟩ n)) := fun a ha => by
    obtain ⟨i, hi, rfl⟩ := List.mem_map.mp ha
    obtain ⟨k, hk⟩ := hall i (List.mem_range.mp hi)
    refine List.mem_map.mpr ⟨.entry k, (mem_keys hlaid).mpr ⟨k, _, rfl, hk⟩, ?_⟩
    rw [keywordName_eq, hk]
    rfl
  have hlength := (hnodup.subperm hsub).length_le
  rw [List.length_map, List.length_map, List.length_range] at hlength
  exact hlength

def noMessages : Messages := ⟨kwhInit, fun _ => none⟩

theorem importable_noMessages :
    Importable ⟨none, true⟩ (byte ':') oneMessage oneMessage noMessages := by
  refine ⟨.init, by decide, nofun, nofun, fun _ _ => rfl, fun i hi j hj _ => ?_⟩
  rw [Nat.lt_one_iff.mp hi, Nat.lt_one_iff.mp hj]

/-- More keywords than an `int` can count. -/
theorem kwImport_tooMany :
    ¬ReadsBack (byte ':') oneMessage oneMessage (one 2147483649) (kwImport ⟨none, true⟩ oneMessage
      (kwExport (byte ':') oneMessage (one 2147483649)).2.1 noMessages) := by
  have hlength := le_length_keywords 2147483649
  exact not_readsBack_of_lt (exportable_one _) importable_noMessages (by omega)

/-- A message with the keywords `0` and `1`. -/
theorem kwImport_kwExport_sample :
    ReadsBack (byte ':') oneMessage oneMessage (one 2) (kwImport ⟨none, true⟩ oneMessage
      (kwExport (byte ':') oneMessage (one 2)).2.1 noMessages) := by
  refine (kwImport_kwExport (exportable_one 2) importable_noMessages).mpr ?_
  decide +kernel

end Many

end Cone.Maildirkeywords2
