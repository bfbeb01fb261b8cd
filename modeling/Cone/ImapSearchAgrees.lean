import Cone.ImapSearchKeys

/-! # Where the server finds what the client finds

The client and the program of the command are compared message by message: the keys of the scope
with the scope, the key of the criterion with the criterion. -/
set_option autoImplicit false
namespace Cone.ImapSearch

open Cone.Ctype
open Cone.ImapBodystructure (Text upper)
open Cone.SearchMessages (Criteria Scope MessageInfo inScope)

/-! ## Message by message -/

section Pointwise
variable (lib : Library) (p : SearchParams)

def negate (flag : Bool) : Bool := if p.searchNot then !flag else flag

def clientFinds (j : Nat) (m : Message) : Option Bool :=
  if inScope p.toSearchParams j (info m) then (searchOneMessage lib p m).map (negate p)
  else some false

variable {lib p}

theorem clientSearch_cons (m : Message) (messages : List Message) (n : Nat) :
    clientSearch lib p (m :: messages) n =
      (clientFinds lib p n m).bind fun b =>
        (clientSearch lib p messages (n + 1)).map fun found => if b then n :: found else found := by
  rw [clientSearch, clientFinds]
  by_cases hscope : inScope p.toSearchParams n (info m) = true
  · rw [if_pos hscope, if_pos hscope]
    cases searchOneMessage lib p m with
    | none => rfl
    | some flag => rfl
  · rw [if_neg hscope, if_neg hscope]
    cases clientSearch lib p messages (n + 1) with
    | none => rfl
    | some found => rfl

theorem le_of_mem_clientSearch {messages : List Message} {n : Nat} {found : List Nat}
    (h : clientSearch lib p messages n = some found) : ∀ j ∈ found, n ≤ j := by
  induction messages generalizing n found with
  | nil =>
      cases h
      intro j hj
      cases hj
  | cons m messages ih =>
      rw [clientSearch_cons, Option.bind_eq_some_iff] at h
      obtain ⟨b, -, h⟩ := h
      obtain ⟨rest, hrest, rfl⟩ := Option.map_eq_some_iff.mp h
      intro j hj
      have hlater := ih hrest
      cases b with
      | false => exact Nat.le_of_succ_le (hlater j hj)
      | true =>
          obtain rfl | hj := List.mem_cons.mp hj
          · exact Nat.le_refl _
          · exact Nat.le_of_succ_le (hlater j hj)

theorem clientFinds_of_clientSearch {messages : List Message} {n : Nat} {found : List Nat}
    (h : clientSearch lib p messages n = some found) {i : Nat} {m : Message}
    (hm : messages[i]? = some m) : clientFinds lib p (n + i) m = some (decide (n + i ∈ found)) := by
  induction messages generalizing n found i with
  | nil => cases hm
  | cons m' messages ih =>
      rw [clientSearch_cons, Option.bind_eq_some_iff] at h
      obtain ⟨b, hb, h⟩ := h
      obtain ⟨rest, hrest, rfl⟩ := Option.map_eq_some_iff.mp h
      cases i with
      | zero =>
          cases hm
          have hnot : n ∉ rest := fun hmem => by
            have hle := le_of_mem_clientSearch hrest n hmem
            omega
          rw [Nat.add_zero, hb]
          cases b with
          | false => simp [hnot]
          | true => simp
      | succ i =>
          have hrec := ih hrest hm
          have hne : n + 1 + i ≠ n := by omega
          rw [show n + (i + 1) = n + 1 + i by omega, hrec]
          cases b with
          | false => rfl
          | true => simp [hne]

theorem clientSearch_of_clientFinds {finds : Nat → Message → Bool}
    (h : ∀ j m, clientFinds lib p j m = some (finds j m)) (messages : List Message) (n : Nat) :
    clientSearch lib p messages n =
      some ((List.range' n messages.length).filter fun j => messages[j - n]?.any (finds j)) := by
  induction messages generalizing n with
  | nil => rfl
  | cons m messages ih =>
      have htail : ((List.range' (n + 1) messages.length).filter fun j =>
          (m :: messages)[j - n]?.any (finds j)) =
            (List.range' (n + 1) messages.length).filter fun j =>
              messages[j - (n + 1)]?.any (finds j) := by
        apply List.filter_congr
        intro j hj
        have hle := (List.mem_range'_1.mp hj).1
        rw [show j - n = j - (n + 1) + 1 by omega, List.getElem?_cons_succ]
      rw [clientSearch_cons, h, Option.bind_some, ih, List.length_cons, List.range'_succ,
        List.filter_cons, htail, Nat.sub_self, List.getElem?_cons_zero, Option.any_some]
      cases finds n m with
      | false => rfl
      | true => rfl

theorem mem_selects {program : List Key} {folder : List Message} {j : Nat} {m : Message}
    (hm : folder[j]? = some m) : j ∈ selects program folder ↔ program.all (·.holds j m) = true := by
  have hlt : j < folder.length := (List.getElem?_eq_some_iff.mp hm).1
  rw [selects, List.mem_filter, hm, List.mem_range]
  simp [hlt]

/-- Agreement on every folder is agreement on every message at every position. -/
theorem forall_folder_iff (program : List Key) :
    (∀ folder, clientSearch lib p folder 0 = some (selects program folder)) ↔
      ∀ j m, clientFinds lib p j m = some (program.all (·.holds j m)) := by
  constructor
  · intro h j m
    have hm : (List.replicate (j + 1) m)[j]? = some m := by simp
    have hfinds := clientFinds_of_clientSearch (h (List.replicate (j + 1) m)) hm
    rw [Nat.zero_add] at hfinds
    rw [hfinds, Option.some_inj, Bool.eq_iff_iff, decide_eq_true_eq]
    exact mem_selects hm
  · intro h folder
    rw [clientSearch_of_clientFinds h, selects, List.range_eq_range']
    rfl

end Pointwise

/-! ## The scope -/

section Scopes
variable {p : SearchParams}

def ScopeFits (p : SearchParams) : Prop :=
  p.scope = .search_range → p.rangeLo < p.rangeHi ∧ p.rangeHi < 2 ^ 32

def Reversed (p : SearchParams) : Prop :=
  p.scope = .search_range ∧ p.rangeHi ≤ p.rangeLo ∧
    (0 < (p.rangeLo + 1) % 2 ^ 64 ∧ (p.rangeLo + 1) % 2 ^ 64 < 2 ^ 32) ∧
    0 < p.rangeHi ∧ p.rangeHi < 2 ^ 32

theorem scopeKeys_of_fits (h : ScopeFits p) :
    ∃ ks, scopeKeys p = some ks ∧
      ∀ j m, ks.all (·.holds j m) = inScope p.toSearchParams j (info m) := by
  rw [ScopeFits] at h
  rw [scopeKeys]
  cases hs : p.scope with
  | search_all =>
      refine ⟨[.all], rfl, ?_⟩
      intro j m
      simp [inScope, hs, Key.holds]
  | search_marked =>
      refine ⟨[.all, .flagged], rfl, ?_⟩
      intro j m
      simp [inScope, hs, Key.holds, info]
  | search_unmarked =>
      refine ⟨[.all, .not .flagged], rfl, ?_⟩
      intro j m
      simp [inScope, hs, Key.holds, info]
  | search_range =>
      obtain ⟨hlt, hhi⟩ := h hs
      have hlo : (p.rangeLo + 1) % 2 ^ 64 = p.rangeLo + 1 := Nat.mod_eq_of_lt (by omega)
      dsimp only
      rw [hlo, if_pos ⟨⟨by omega, by omega⟩, by omega, hhi⟩]
      refine ⟨_, rfl, ?_⟩
      intro j m
      rw [Bool.eq_iff_iff]
      simp only [inScope, hs, Key.holds, List.all_cons, List.all_nil, Bool.and_true,
        Bool.and_eq_true, decide_eq_true_eq, Bool.not_eq_true', Bool.or_eq_false_iff,
        decide_eq_false_iff_not]
      omega

theorem inScope_of_fits (h : ScopeFits p) (m : Message) :
    ∃ j b, inScope p.toSearchParams j (info { m with flagged := b }) = true := by
  rw [ScopeFits] at h
  cases hs : p.scope with
  | search_all => exact ⟨0, true, by simp [inScope, hs]⟩
  | search_marked => exact ⟨0, true, by simp [inScope, hs, info]⟩
  | search_unmarked => exact ⟨0, false, by simp [inScope, hs, info]⟩
  | search_range =>
      refine ⟨p.rangeLo, true, ?_⟩
      have hlt := (h hs).1
      simp [inScope, hs, hlt]

theorem scopeKeys_of_not_fits (h : ¬ScopeFits p) {ks : List Key} (hks : scopeKeys p = some ks) :
    Reversed p ∧ (∀ j m, inScope p.toSearchParams j (info m) = false) ∧
      ∃ j, ∀ m, ks.all (·.holds j m) = true := by
  simp only [ScopeFits, Classical.not_imp] at h
  obtain ⟨hs, hends⟩ := h
  rw [scopeKeys, hs] at hks
  dsimp only at hks
  split at hks
  · rename_i hnz
    cases hks
    have hle : p.rangeHi ≤ p.rangeLo := by omega
    refine ⟨⟨hs, hle, hnz⟩, ?_, (p.rangeLo + 1) % 2 ^ 64 - 1, ?_⟩
    · intro j m
      simp only [inScope, hs]
      rw [Bool.not_eq_false', Bool.or_eq_true, decide_eq_true_eq, decide_eq_true_eq]
      omega
    · intro m
      simp only [Key.holds, List.all_cons, List.all_nil, Bool.and_true, Bool.and_eq_true,
        decide_eq_true_eq]
      omega
  · cases hks

theorem scopeKeys_of_reversed (h : Reversed p) : ∃ ks, scopeKeys p = some ks := by
  obtain ⟨hs, -, hnz⟩ := h
  rw [scopeKeys, hs]
  dsimp only
  rw [if_pos hnz]
  exact ⟨_, rfl⟩

theorem not_fits_of_reversed (h : Reversed p) : ¬ScopeFits p := by
  intro hfits
  obtain ⟨hs, hle, -⟩ := h
  have hlt := (hfits hs).1
  omega

end Scopes

/-! ## The criterion -/

section Criterion
variable (lib : Library) (p : SearchParams)

def Converted (t : Text) : Prop :=
  lib.tocase p.charset (c_str p.param2) = some t ∧
    (lib.tocase (str "iso-8859-1") (c_str p.param1)).isSome

def StringFits : Prop :=
  arguable p.param2 ∧ ∃ t n, Converted lib p t ∧ lib.setString p.charset t = some (n + 1)

def DateFits : Prop :=
  ∃ t day, Converted lib p t ∧ readDateText p.param2 = some day ∧
    lib.parsedt (dateText t) = some day

def LargerFits : Prop :=
  ∃ t n, Converted lib p t ∧ readSize (c_str p.param2) = some n ∧ n < 2 ^ 32 ∧
    readSize (c_str t) = some n

def SmallerFits : Prop :=
  ∃ t n, Converted lib p t ∧ readSize (c_str p.param2) = some n ∧ n < 2 ^ 32 ∧
    (readSize (c_str t)).getD 0 = n

def CriterionFits : Prop :=
  match p.criteria with
  | .replied | .deleted | .draft | .unread => True
  | .from | .to | .cc | .bcc | .subject | .body | .text => StringFits lib p
  | .header => False
  | .before | .on | .since | .sentbefore | .senton | .sentsince => DateFits lib p
  | .larger => LargerFits lib p
  | .smaller => SmallerFits lib p

def blank : Message :=
  ⟨false, false, false, false, false, 0, toLex (0, toLex (0, 0)), toLex (0, toLex (0, 0)),
    fun _ => false⟩

instance : Nonempty Message := ⟨blank⟩

variable {lib p}

theorem notFlag_of_ne (hc : p.criteria ≠ .unread) : notFlag p = p.searchNot := by
  rw [notFlag, if_neg hc]

theorem map_negate_iff (hc : p.criteria ≠ .unread) {o : Option Bool} {k : Key} {j : Nat} {m : Message} :
    o.map (negate p) = some ((negated p k).holds j m) ↔ o = some (k.holds j m) := by
  rw [negated, notFlag_of_ne hc]
  cases o with
  | none => simp
  | some flag =>
      rw [Option.map_some, Option.some_inj, Option.some_inj, negate]
      cases p.searchNot with
      | false => rfl
      | true => simp [Key.holds]

theorem converted_iff {f : Text → Message → Option Bool} {b : Message → Bool} :
    (∀ m, ((lib.tocase p.charset (c_str p.param2)).bind fun t =>
        (lib.tocase (str "iso-8859-1") (c_str p.param1)).bind fun _ => f t m) = some (b m)) ↔
      ∃ t, Converted lib p t ∧ ∀ m, f t m = some (b m) := by
  constructor
  · intro h
    obtain ⟨t, ht, hrest⟩ := Option.bind_eq_some_iff.mp (h blank)
    obtain ⟨u, hu, -⟩ := Option.bind_eq_some_iff.mp hrest
    refine ⟨t, ⟨ht, by rw [hu]; rfl⟩, ?_⟩
    intro m
    have hm := h m
    rwa [ht, hu, Option.bind_some, Option.bind_some] at hm
  · intro h m
    obtain ⟨t, ⟨ht, hsome⟩, hf⟩ := h
    obtain ⟨u, hu⟩ := Option.isSome_iff_exists.mp hsome
    rw [ht, hu, Option.bind_some, Option.bind_some]
    exact hf m

theorem searchString_iff (t : Text) (field : Field) :
    (∀ m, some (searchString lib p m t field []) = some (m.finds ⟨field, [], p.charset, p.param2⟩)) ↔
      ∃ n, lib.setString p.charset t = some (n + 1) := by
  constructor
  · intro h
    have hall := h { blank with finds := fun _ => true }
    rw [searchString] at hall
    cases hset : lib.setString p.charset t with
    | none =>
        rw [hset] at hall
        cases hall
    | some n =>
        cases n with
        | zero =>
            rw [hset] at hall
            cases hall
        | succ n => exact ⟨n, rfl⟩
  · intro h m
    obtain ⟨n, hn⟩ := h
    rw [searchString, hn]
    rfl

theorem searchString_map_iff (t : Text) (field : Field) :
    (∀ m, ((lib.setString p.charset t).map fun _ => searchString lib p m t field []) =
        some (m.finds ⟨field, [], p.charset, p.param2⟩)) ↔
      ∃ n, lib.setString p.charset t = some (n + 1) := by
  cases hset : lib.setString p.charset t with
  | none => simp
  | some n =>
      have h := @searchString_iff lib p t field
      rwa [hset] at h

theorem string_iff {field : Field} {f : Text → Message → Option Bool}
    (hf : ∀ t, (∀ m, f t m = some (m.finds ⟨field, [], p.charset, p.param2⟩)) ↔
      ∃ n, lib.setString p.charset t = some (n + 1)) :
    (∃ k, stringKey p field = some k ∧ ∀ (j : Nat) (m : Message),
      ((lib.tocase p.charset (c_str p.param2)).bind fun t =>
        (lib.tocase (str "iso-8859-1") (c_str p.param1)).bind fun _ => f t m) =
          some (k.holds j m)) ↔ StringFits lib p := by
  rw [stringKey, StringFits]
  by_cases harg : arguable p.param2
  · rw [if_pos harg]
    simp only [Option.some.injEq, exists_eq_left', forall_const, Key.holds, harg, true_and]
    rw [converted_iff (b := fun m => m.finds ⟨field, [], p.charset, p.param2⟩)]
    simp only [hf]
    constructor
    · intro h
      obtain ⟨t, ht, n, hn⟩ := h
      exact ⟨t, n, ht, hn⟩
    · intro h
      obtain ⟨t, n, ht, hn⟩ := h
      exact ⟨t, ht, n, hn⟩
  · rw [if_neg harg]
    simp [harg]

theorem date_iff {key : DateKey} {f : Day → Message → Bool}
    (hf : ∀ d day, (∀ m, f d m = key.holds m day) ↔ d = day) :
    (∃ k, dateKey p key = some k ∧ ∀ (j : Nat) (m : Message),
      ((lib.tocase p.charset (c_str p.param2)).bind fun t =>
        (lib.tocase (str "iso-8859-1") (c_str p.param1)).bind fun _ =>
          (lib.parsedt (dateText t)).map fun d => f d m) = some (k.holds j m)) ↔
      DateFits lib p := by
  rw [dateKey, DateFits]
  cases hday : readDateText p.param2 with
  | none => simp
  | some day =>
      simp only [Option.map_some, Option.some.injEq, exists_eq_left', forall_const, Key.holds,
        converted_iff (b := fun m => key.holds m day)]
      constructor
      · intro h
        obtain ⟨t, ht, hm⟩ := h
        cases hd : lib.parsedt (dateText t) with
        | none => simp [hd] at hm
        | some d =>
            rw [hd] at hm
            simp only [Option.map_some, Option.some.injEq, hf] at hm
            exact ⟨t, day, ht, rfl, by rw [hd, hm]⟩
      · intro h
        obtain ⟨t, d, ht, hd, hparse⟩ := h
        refine ⟨t, ht, ?_⟩
        intro m
        rw [hparse, Option.map_some, (hf d day).mpr hd.symm m]

theorem size_iff {key : Nat → Key} {f : Option Nat → Message → Bool} {g : Nat → Message → Bool}
    {same : Option Nat → Nat → Prop} (hg : ∀ n j m, (key n).holds j m = g n m)
    (hf : ∀ o n, (∀ m, f o m = g n m) ↔ same o n) :
    (∃ k, sizeKey p key = some k ∧ ∀ (j : Nat) (m : Message),
      ((lib.tocase p.charset (c_str p.param2)).bind fun t =>
        (lib.tocase (str "iso-8859-1") (c_str p.param1)).bind fun _ =>
          some (f (readSize (c_str t)) m)) = some (k.holds j m)) ↔
      ∃ t n, Converted lib p t ∧ readSize (c_str p.param2) = some n ∧ n < 2 ^ 32 ∧
        same (readSize (c_str t)) n := by
  rw [sizeKey]
  cases readSize (c_str p.param2) with
  | none => simp
  | some n =>
      rw [Option.bind_some]
      by_cases hn : n < 2 ^ 32
      · rw [if_pos hn]
        simp only [Option.some.injEq, exists_eq_left', forall_const, hg,
          converted_iff (b := fun m => g n m), hf]
        constructor
        · intro h
          obtain ⟨t, ht, hsame⟩ := h
          exact ⟨t, n, ht, rfl, hn, hsame⟩
        · intro h
          obtain ⟨t, n', ht, rfl, -, hsame⟩ := h
          exact ⟨t, ht, hsame⟩
      · rw [if_neg hn]
        constructor
        · intro h
          obtain ⟨k, hk, -⟩ := h
          cases hk
        · intro h
          obtain ⟨t, n', -, hnn, hlt, -⟩ := h
          cases hnn
          exact absurd hlt hn

theorem larger_same (o : Option Nat) (n : Nat) :
    (∀ m : Message, (o.any fun b => decide (m.size > b)) = decide (m.size > n)) ↔ o = some n := by
  constructor
  · intro h
    have hlow := h { blank with size := n }
    have hhigh := h { blank with size := n + 1 }
    cases o with
    | none => simp at hhigh
    | some b =>
        simp only [Option.any_some, decide_eq_decide] at hlow hhigh
        rw [Option.some.injEq]
        omega
  · intro h m
    rw [h, Option.any_some]

theorem smaller_same (o : Option Nat) (n : Nat) :
    (∀ m : Message, (o.any fun b => decide (m.size < b)) = decide (m.size < n)) ↔ o.getD 0 = n := by
  constructor
  · intro h
    have hlow := h { blank with size := n - 1 }
    have hhigh := h { blank with size := o.getD 0 - 1 }
    cases o with
    | none =>
        simp only [Option.any_none, Bool.false_eq, decide_eq_false_iff_not] at hlow
        simp only [Option.getD_none]
        omega
    | some b =>
        simp only [Option.any_some, decide_eq_decide, Option.getD_some] at hlow hhigh
        simp only [Option.getD_some]
        omega
  · intro h m
    cases o with
    | none =>
        cases h
        simp
    | some b =>
        cases h
        rfl

theorem on_same {day : Message → Day} (hday : ∀ d, ∃ m, day m = d) (d d' : Day) :
    (∀ m, decide (day m = d) = decide (day m = d')) ↔ d = d' := by
  constructor
  · intro h
    obtain ⟨m, hm⟩ := hday d
    have hd := h m
    rw [hm, decide_eq_decide] at hd
    exact hd.mp rfl
  · intro h m
    rw [h]

theorem before_same {day : Message → Day} (hday : ∀ d, ∃ m, day m = d) (d d' : Day) :
    (∀ m, decide (day m < d) = decide (day m < d')) ↔ d = d' := by
  constructor
  · intro h
    apply eq_of_forall_lt_iff
    intro c
    obtain ⟨m, hm⟩ := hday c
    have hc := h m
    rwa [hm, decide_eq_decide] at hc
  · intro h m
    rw [h]

theorem since_same {day : Message → Day} (hday : ∀ d, ∃ m, day m = d) (d d' : Day) :
    (∀ m, decide (d ≤ day m) = decide (d' ≤ day m)) ↔ d = d' := by
  constructor
  · intro h
    apply eq_of_forall_ge_iff
    intro c
    obtain ⟨m, hm⟩ := hday c
    have hc := h m
    rwa [hm, decide_eq_decide] at hc
  · intro h m
    rw [h]

theorem arrival_surjective (d : Day) : ∃ m : Message, m.arrival = d :=
  ⟨{ blank with arrival := d }, rfl⟩

theorem sent_surjective (d : Day) : ∃ m : Message, m.sent = d := ⟨{ blank with sent := d }, rfl⟩

theorem not_agrees_header (hc : p.criteria = .header) :
    ¬∃ k, criterionKey p = some k ∧
      ∀ (j : Nat) m, searchOneMessage lib p m = some (k.holds j m) := by
  intro h
  obtain ⟨k, hk, hall⟩ := h
  rw [criterionKey, hc] at hk
  dsimp only at hk
  rw [stringKey] at hk
  by_cases harg : arguable p.param2
  · rw [if_pos harg] at hk
    cases hk
    obtain ⟨finds, hfinds⟩ : ∃ finds : Sought → Bool,
        finds = fun s => decide (s = ⟨.header, [], p.charset, p.param2⟩) := ⟨_, rfl⟩
    have hclient : ∀ t field name, field = .anyHeader ∨ name ≠ [] →
        searchString lib p { blank with finds := finds } t field name = false := by
      intro t field name hother
      rw [searchString]
      split
      · rfl
      · rfl
      · rw [hfinds, decide_eq_false_iff_not]
        intro heq
        cases heq
        obtain h | h := hother
        · cases h
        · exact h rfl
    have hm := hall 0 { blank with finds := finds }
    rw [searchOneMessage, hc] at hm
    obtain ⟨t, -, hm⟩ := Option.bind_eq_some_iff.mp hm
    obtain ⟨u, -, hm⟩ := Option.bind_eq_some_iff.mp hm
    obtain ⟨n, -, hm⟩ := Option.map_eq_some_iff.mp hm
    have hkey : Key.holds 0 { blank with finds := finds }
        (.string ⟨.header, [], p.charset, p.param2⟩) = true := by
      simp [Key.holds, hfinds]
    rw [hkey] at hm
    split at hm
    · rw [hclient t _ _ (.inl rfl)] at hm
      cases hm
    · rename_i hname
      rw [hclient t _ _ (.inr hname)] at hm
      cases hm
  · rw [if_neg harg] at hk
    cases hk

theorem criterion_iff (hc : p.criteria ≠ .unread) :
    (∃ k, criterionKey p = some k ∧
      ∀ (j : Nat) m, searchOneMessage lib p m = some (k.holds j m)) ↔ CriterionFits lib p := by
  by_cases hheader : p.criteria = .header
  · rw [CriterionFits, hheader]
    exact iff_false_intro (not_agrees_header hheader)
  simp only [criterionKey, CriterionFits, searchOneMessage]
  cases h : p.criteria with
  | unread => exact absurd h hc
  | header => exact absurd h hheader
  | replied => simp [Key.holds]
  | deleted => simp [Key.holds]
  | draft => simp [Key.holds]
  | «from» => exact string_iff fun t => searchString_iff t .from
  | «to» => exact string_iff fun t => searchString_iff t .to
  | cc => exact string_iff fun t => searchString_iff t .cc
  | bcc => exact string_iff fun t => searchString_iff t .bcc
  | subject => exact string_iff fun t => searchString_iff t .subject
  | body => exact string_iff fun t => searchString_map_iff t .body
  | text => exact string_iff fun t => searchString_map_iff t .text
  | on =>
      have hcmp : doDateCmp p = fun day d => decide (day = d) := by
        funext day d
        rw [doDateCmp, h]
      simp only [hcmp]
      exact date_iff (on_same arrival_surjective)
  | before =>
      have hcmp : doDateCmp p = fun day d => decide (day < d) := by
        funext day d
        rw [doDateCmp, h]
      simp only [hcmp]
      exact date_iff (before_same arrival_surjective)
  | since =>
      have hcmp : doDateCmp p = fun day d => decide (d ≤ day) := by
        funext day d
        rw [doDateCmp, h]
      simp only [hcmp]
      exact date_iff (since_same arrival_surjective)
  | senton =>
      have hcmp : doDateCmp p = fun day d => decide (day = d) := by
        funext day d
        rw [doDateCmp, h]
      simp only [hcmp]
      exact date_iff (on_same sent_surjective)
  | sentbefore =>
      have hcmp : doDateCmp p = fun day d => decide (day < d) := by
        funext day d
        rw [doDateCmp, h]
      simp only [hcmp]
      exact date_iff (before_same sent_surjective)
  | sentsince =>
      have hcmp : doDateCmp p = fun day d => decide (d ≤ day) := by
        funext day d
        rw [doDateCmp, h]
      simp only [hcmp]
      exact date_iff (since_same sent_surjective)
  | larger => exact size_iff (fun _ _ _ => rfl) larger_same
  | smaller => exact size_iff (fun _ _ _ => rfl) smaller_same

theorem criterion_negated_iff :
    (∃ k, criterionKey p = some k ∧
      ∀ j m, (searchOneMessage lib p m).map (negate p) = some ((negated p k).holds j m)) ↔
      CriterionFits lib p := by
  by_cases hc : p.criteria = .unread
  · rw [CriterionFits, hc, iff_true]
    refine ⟨.seen, by rw [criterionKey, hc], ?_⟩
    intro j m
    rw [searchOneMessage, hc]
    dsimp only
    rw [Option.map_some, negated, notFlag, if_pos hc, negate]
    cases p.searchNot with
    | false => rfl
    | true => simp [Key.holds]
  · rw [← criterion_iff hc]
    simp only [map_negate_iff hc]

theorem searchOneMessage_flagged (m : Message) (b : Bool) :
    searchOneMessage lib p { m with flagged := b } = searchOneMessage lib p m := rfl

theorem blank_lt_readDateText {w : Text} {day : Day} (h : readDateText w = some day) :
    blank.arrival < day := by
  rw [readDateText] at h
  split at h
  · split at h
    · obtain ⟨m, -, rfl⟩ := Option.map_eq_some_iff.mp h
      simp only [blank, Prod.Lex.toLex_lt_toLex]
      omega
    · cases h
  · cases h

theorem criterionKey_cases {k : Key} (hk : criterionKey p = some k) :
    (k = .answered ∨ k = .deleted ∨ k = .draft ∨ k = .seen) ∨ (∃ s, k = .string s) ∨
      (∃ key day, blank.arrival < day ∧ k = .date key day) ∨ (∃ n, k = .larger n) ∨
      ∃ n, k = .smaller n ∧ p.criteria = .smaller ∧ readSize (c_str p.param2) = some n := by
  have hstring : ∀ field, stringKey p field = some k → ∃ s, k = .string s := by
    intro field h
    rw [stringKey] at h
    split at h
    · cases h
      exact ⟨_, rfl⟩
    · cases h
  have hdate : ∀ key, dateKey p key = some k →
      ∃ key day, blank.arrival < day ∧ k = .date key day := by
    intro key h
    obtain ⟨day, hday, rfl⟩ := Option.map_eq_some_iff.mp h
    exact ⟨key, day, blank_lt_readDateText hday, rfl⟩
  have hsize : ∀ key : Nat → Key, sizeKey p key = some k →
      ∃ n, k = key n ∧ readSize (c_str p.param2) = some n := by
    intro key h
    obtain ⟨n, hn, h⟩ := Option.bind_eq_some_iff.mp h
    split at h
    · cases h
      exact ⟨n, rfl, hn⟩
    · cases h
  rw [criterionKey] at hk
  cases hc : p.criteria with
  | replied | deleted | draft | unread =>
      rw [hc] at hk
      cases hk
      simp
  | «from» | «to» | cc | bcc | subject | header | body | text =>
      rw [hc] at hk
      exact .inr (.inl (hstring _ hk))
  | before | on | since | sentbefore | senton | sentsince =>
      rw [hc] at hk
      exact .inr (.inr (.inl (hdate _ hk)))
  | larger =>
      rw [hc] at hk
      obtain ⟨n, hn, -⟩ := hsize _ hk
      exact .inr (.inr (.inr (.inl ⟨n, hn⟩)))
  | smaller =>
      rw [hc] at hk
      obtain ⟨n, hn, hread⟩ := hsize _ hk
      exact .inr (.inr (.inr (.inr ⟨n, hn, rfl, hread⟩)))

theorem holds_flagged {k : Key} (hk : criterionKey p = some k) (j j' : Nat) (m : Message) (b : Bool) :
    (negated p k).holds j { m with flagged := b } = (negated p k).holds j' m := by
  have hholds : k.holds j { m with flagged := b } = k.holds j' m := by
    obtain (rfl | rfl | rfl | rfl) | ⟨s, rfl⟩ | ⟨key, day, -, rfl⟩ | ⟨n, rfl⟩ | ⟨n, rfl, -⟩ :=
      criterionKey_cases hk
    · rfl
    · rfl
    · rfl
    · rfl
    · rfl
    · rfl
    · rfl
    · rfl
  rw [negated]
  cases notFlag p with
  | false => exact hholds
  | true => exact congrArg (!·) hholds

/-! ## Searches that find nothing -/

def Never (p : SearchParams) : Prop :=
  p.criteria = .smaller ∧ readSize (c_str p.param2) = some 0 ∧ p.searchNot = false

theorem date_varies (key : DateKey) {day : Day} (hday : blank.arrival < day) (b : Bool) :
    ∃ m : Message, key.holds m day = b := by
  cases key with
  | before | sentbefore =>
      cases b with
      | true => exact ⟨blank, decide_eq_true hday⟩
      | false => exact ⟨{ blank with arrival := day, sent := day }, decide_eq_false (lt_irrefl day)⟩
  | on | senton =>
      cases b with
      | true => exact ⟨{ blank with arrival := day, sent := day }, decide_eq_true rfl⟩
      | false => exact ⟨blank, decide_eq_false (ne_of_lt hday)⟩
  | since | sentsince =>
      cases b with
      | true => exact ⟨{ blank with arrival := day, sent := day }, decide_eq_true (le_refl day)⟩
      | false => exact ⟨blank, decide_eq_false (not_le_of_gt hday)⟩

theorem key_varies {k : Key} (hk : criterionKey p = some k)
    (hnever : ¬(p.criteria = .smaller ∧ readSize (c_str p.param2) = some 0)) (b : Bool) :
    ∃ m, ∀ j, k.holds j m = b := by
  obtain (rfl | rfl | rfl | rfl) | ⟨s, rfl⟩ | ⟨key, day, hday, rfl⟩ | ⟨n, rfl⟩ | ⟨n, rfl, hc, hn⟩ :=
    criterionKey_cases hk
  · exact ⟨{ blank with answered := b }, fun _ => rfl⟩
  · exact ⟨{ blank with deleted := b }, fun _ => rfl⟩
  · exact ⟨{ blank with draft := b }, fun _ => rfl⟩
  · exact ⟨{ blank with seen := b }, fun _ => rfl⟩
  · exact ⟨{ blank with finds := fun _ => b }, fun _ => rfl⟩
  · obtain ⟨m, hm⟩ := date_varies key hday b
    exact ⟨m, fun _ => hm⟩
  · refine ⟨{ blank with size := if b then n + 1 else 0 }, fun _ => ?_⟩
    cases b with
    | false => simp [Key.holds]
    | true => simp [Key.holds]
  · have hpos : n ≠ 0 := fun h => hnever ⟨hc, h ▸ hn⟩
    refine ⟨{ blank with size := if b then 0 else n }, fun _ => ?_⟩
    cases b with
    | false => simp [Key.holds]
    | true => simp [Key.holds, Nat.pos_of_ne_zero hpos]

theorem negated_holds (k : Key) (j : Nat) (m : Message) :
    (negated p k).holds j m = if notFlag p then !k.holds j m else k.holds j m := by
  rw [negated]
  cases notFlag p with
  | false => rfl
  | true => rfl

theorem never_of_holds_false {k : Key} (hk : criterionKey p = some k) {j : Nat}
    (h : ∀ m, (negated p k).holds j m = false) : Never p := by
  by_cases hsmall : p.criteria = .smaller ∧ readSize (c_str p.param2) = some 0
  · obtain ⟨hc, hsize⟩ := hsmall
    refine ⟨hc, hsize, ?_⟩
    rw [criterionKey, hc] at hk
    dsimp only at hk
    rw [sizeKey, hsize, Option.bind_some, if_pos (by decide)] at hk
    cases hk
    have hblank := h blank
    rw [negated_holds, notFlag_of_ne (by rw [hc]; decide)] at hblank
    cases hnot : p.searchNot with
    | false => rfl
    | true =>
        rw [hnot] at hblank
        cases hblank
  · obtain ⟨m, hm⟩ := key_varies hk hsmall (!notFlag p)
    have hfalse := h m
    rw [negated_holds, hm] at hfalse
    cases hnot : notFlag p with
    | false =>
        rw [hnot] at hfalse
        cases hfalse
    | true =>
        rw [hnot] at hfalse
        cases hfalse

theorem holds_of_never (h : Never p) :
    ∃ k, criterionKey p = some k ∧ ∀ j m, (negated p k).holds j m = false := by
  obtain ⟨hc, hsize, hnot⟩ := h
  refine ⟨.smaller 0, ?_, ?_⟩
  · rw [criterionKey, hc]
    dsimp only
    rw [sizeKey, hsize, Option.bind_some, if_pos (by decide)]
  · intro j m
    rw [negated_holds, notFlag_of_ne (by rw [hc]; decide), hnot]
    simp [Key.holds]

end Criterion

/-! ## Agreement -/

section Agreement
variable {lib : Library} {p : SearchParams}

/-- The arguments that `searchMessages` refuses. -/
def Refused (p : SearchParams) : Prop :=
  ((p.criteria = .larger ∨ p.criteria = .smaller) ∧ readSize (c_str p.param2) = none) ∨
    p.criteria = .header ∧ ∃ c ∈ p.param1.head?, c < SP ∨ 127 ≤ c

def Fits (lib : Library) (p : SearchParams) (flagged : Bool) : Prop :=
  flagged = false ∨ Refused p ∨ quotable p.charset = true ∧
    (ScopeFits p ∧ CriterionFits lib p ∨ Reversed p ∧ Never p)

theorem checkName_eq_false {fuel : Nat} {b : Text} (h : checkName fuel b = some false) :
    ∃ c ∈ b.head?, c < SP ∨ 127 ≤ c := by
  induction fuel with
  | zero => cases h
  | succ fuel ih =>
      cases b with
      | nil => cases h
      | cons c b =>
          by_cases hbad : c < SP ∨ 127 ≤ c
          · exact ⟨c, rfl, hbad⟩
          · rw [checkName, if_neg hbad] at h
            exact ih h

theorem refused_of_fail {fuel : Nat} {message : Text}
    (h : searchMessages fuel true p = some (.fail message)) : Refused p := by
  rw [searchMessages] at h
  dsimp only at h
  rw [if_neg (by decide)] at h
  cases hc : p.criteria with
  | header =>
      rw [hc] at h
      obtain ⟨ok, hname, h⟩ := Option.bind_eq_some_iff.mp h
      cases ok with
      | false => exact .inr ⟨hc, checkName_eq_false hname⟩
      | true => cases h
  | larger =>
      rw [hc] at h
      dsimp only at h
      cases hsize : readSize (c_str p.param2) with
      | none => exact .inl ⟨.inl hc, hsize⟩
      | some n =>
          rw [hsize] at h
          cases h
  | smaller =>
      rw [hc] at h
      dsimp only at h
      cases hsize : readSize (c_str p.param2) with
      | none => exact .inl ⟨.inr hc, hsize⟩
      | some n =>
          rw [hsize] at h
          cases h
  | _ =>
      rw [hc] at h
      cases h

theorem fail_of_refused (h : Refused p) :
    ∃ message, searchMessages 1 true p = some (.fail message) := by
  rw [searchMessages]
  dsimp only
  rw [if_neg (by decide)]
  obtain ⟨hc | hc, hsize⟩ | ⟨hc, c, hhead, hbad⟩ := h
  · rw [hc]
    dsimp only
    rw [hsize]
    exact ⟨_, rfl⟩
  · rw [hc]
    dsimp only
    rw [hsize]
    exact ⟨_, rfl⟩
  · obtain ⟨b, hb⟩ : ∃ b, p.param1 = c :: b := List.head?_eq_some_iff.mp hhead
    rw [hc, hb]
    dsimp only
    rw [checkName, if_pos hbad]
    exact ⟨_, rfl⟩

theorem install_of_not_refused (h : ¬Refused p) (hc : p.criteria ≠ .header) :
    ∃ searchCmd stringArg, searchMessages 1 true p = some (.install searchCmd stringArg) := by
  rw [searchMessages]
  dsimp only
  rw [if_neg (by decide)]
  cases hcrit : p.criteria with
  | header => exact absurd hcrit hc
  | larger =>
      dsimp only
      cases hsize : readSize (c_str p.param2) with
      | none => exact absurd (.inl ⟨.inl hcrit, hsize⟩) h
      | some n => exact ⟨_, _, rfl⟩
  | smaller =>
      dsimp only
      cases hsize : readSize (c_str p.param2) with
      | none => exact absurd (.inl ⟨.inr hcrit, hsize⟩) h
      | some n => exact ⟨_, _, rfl⟩
  | _ => exact ⟨_, _, rfl⟩

theorem all_append_negated (ks : List Key) (k : Key) (j : Nat) (m : Message) :
    (ks ++ [negated p k]).all (·.holds j m) =
      (ks.all (·.holds j m) && (negated p k).holds j m) := by
  rw [List.all_append, List.all_cons, List.all_nil, Bool.and_true]

theorem fits_of_finds {ks : List Key} {k : Key} (hks : scopeKeys p = some ks)
    (hk : criterionKey p = some k)
    (h : ∀ j m, clientFinds lib p j m = some ((ks ++ [negated p k]).all (·.holds j m))) :
    ScopeFits p ∧ CriterionFits lib p ∨ Reversed p ∧ Never p := by
  by_cases hscope : ScopeFits p
  · refine .inl ⟨hscope, criterion_negated_iff.mp ⟨k, hk, ?_⟩⟩
    intro j m
    obtain ⟨ks', hks', hkeys⟩ := scopeKeys_of_fits hscope
    rw [hks, Option.some_inj] at hks'
    subst hks'
    obtain ⟨i, b, hin⟩ := inScope_of_fits hscope m
    have hfinds := h i { m with flagged := b }
    rw [clientFinds, if_pos hin, all_append_negated, hkeys, hin, Bool.true_and,
      searchOneMessage_flagged, holds_flagged hk i j m b] at hfinds
    exact hfinds
  · obtain ⟨hrev, hout, j, hin⟩ := scopeKeys_of_not_fits hscope hks
    refine .inr ⟨hrev, never_of_holds_false hk (j := j) ?_⟩
    intro m
    have hfinds := h j m
    rw [clientFinds, hout j m, if_neg (by decide), all_append_negated, hin m, Bool.true_and,
      Option.some_inj] at hfinds
    exact hfinds.symm

theorem finds_of_fits
    (h : ScopeFits p ∧ CriterionFits lib p ∨ Reversed p ∧ Never p) :
    ∃ ks k, scopeKeys p = some ks ∧ criterionKey p = some k ∧
      ∀ j m, clientFinds lib p j m = some ((ks ++ [negated p k]).all (·.holds j m)) := by
  obtain ⟨hscope, hcriterion⟩ | ⟨hrev, hnever⟩ := h
  · obtain ⟨ks, hks, hkeys⟩ := scopeKeys_of_fits hscope
    obtain ⟨k, hk, hall⟩ := criterion_negated_iff.mpr hcriterion
    refine ⟨ks, k, hks, hk, ?_⟩
    intro j m
    rw [clientFinds, all_append_negated, hkeys, hall j m]
    cases inScope p.toSearchParams j (info m) with
    | false => rfl
    | true => rfl
  · obtain ⟨ks, hks⟩ := scopeKeys_of_reversed hrev
    obtain ⟨k, hk, hall⟩ := holds_of_never hnever
    obtain ⟨-, hout, -⟩ := scopeKeys_of_not_fits (not_fits_of_reversed hrev) hks
    refine ⟨ks, k, hks, hk, ?_⟩
    intro j m
    rw [clientFinds, all_append_negated, hout j m, hall j m, Bool.and_false]
    rfl

theorem not_header_of_fits
    (h : ScopeFits p ∧ CriterionFits lib p ∨ Reversed p ∧ Never p) : p.criteria ≠ .header := by
  intro hc
  obtain ⟨-, hcriterion⟩ | ⟨-, hnever, -⟩ := h
  · rw [CriterionFits, hc] at hcriterion
    exact hcriterion
  · rw [hc] at hnever
    cases hnever

theorem not_byHand {fuel : Nat} : searchMessages fuel true p ≠ some .byHand := by
  rw [searchMessages]
  dsimp only
  rw [if_neg (by decide)]
  intro h
  cases hc : p.criteria with
  | header =>
      rw [hc] at h
      obtain ⟨ok, -, h⟩ := Option.bind_eq_some_iff.mp h
      cases ok with
      | false => cases h
      | true => cases h
  | larger | smaller =>
      rw [hc] at h
      dsimp only at h
      split at h
      · cases h
      · cases h
  | _ =>
      rw [hc] at h
      cases h

theorem fits_of_agrees {flagged : Bool} (h : Agrees lib p flagged) : Fits lib p flagged := by
  cases flagged with
  | false => exact .inl rfl
  | true =>
      obtain ⟨fuel, outcome, houtcome, hagrees⟩ := h
      cases outcome with
      | byHand => exact absurd houtcome not_byHand
      | fail message => exact .inr (.inl (refused_of_fail houtcome))
      | install searchCmd stringArg =>
          obtain ⟨program, hread, hfolder⟩ := hagrees searchCmd stringArg rfl
          rw [readProgram_sent houtcome] at hread
          by_cases hq : quotable p.charset = true
          · rw [if_pos hq] at hread
            obtain ⟨ks, hks, hread⟩ := Option.bind_eq_some_iff.mp hread
            obtain ⟨k, hk, rfl⟩ := Option.map_eq_some_iff.mp hread
            exact .inr (.inr ⟨hq, fits_of_finds hks hk ((forall_folder_iff _).mp hfolder)⟩)
          · rw [if_neg hq] at hread
            cases hread

theorem agrees_of_fits {flagged : Bool} (h : Fits lib p flagged) : Agrees lib p flagged := by
  cases flagged with
  | false =>
      refine ⟨0, .byHand, rfl, ?_⟩
      intro searchCmd stringArg h
      cases h
  | true =>
      by_cases hrefused : Refused p
      · obtain ⟨message, hfail⟩ := fail_of_refused hrefused
        refine ⟨1, .fail message, hfail, ?_⟩
        intro searchCmd stringArg h
        cases h
      · obtain h | h | ⟨hq, hfits⟩ := h
        · cases h
        · exact absurd h hrefused
        · obtain ⟨searchCmd, stringArg, hinstall⟩ :=
            install_of_not_refused hrefused (not_header_of_fits hfits)
          refine ⟨1, _, hinstall, ?_⟩
          intro searchCmd' stringArg' heq
          cases heq
          obtain ⟨ks, k, hks, hk, hfinds⟩ := finds_of_fits hfits
          refine ⟨ks ++ [negated p k], ?_, (forall_folder_iff _).mpr hfinds⟩
          rw [readProgram_sent hinstall, if_pos hq, hks, hk]
          rfl

def ascii : Library := ⟨fun _ t => some (upper t), fun _ t => some t.length, fun _ => none⟩

end Agreement
end Cone.ImapSearch
