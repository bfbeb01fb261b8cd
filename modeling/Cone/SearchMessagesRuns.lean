import Cone.SearchMessages

/-! # A search while messages are removed

What `successArray` holds is what was found among the messages in front of `nextMsgNum`, as long as
every removal spares the search: no message moves past `nextMsgNum` that is still to be examined,
and no match is lost that has later ones. -/
set_option autoImplicit false
namespace Cone.SearchMessages

section Lists
variable {A : Type} {P : A → Bool} {l : List A} {m n : Nat} {x : A}

theorem take_eraseIdx_of_le (h : m ≤ n) : (l.eraseIdx n).take m = l.take m := by
  apply List.ext_getElem?
  intro k
  rw [List.getElem?_take, List.getElem?_take]
  by_cases hk : k < m
  · rw [if_pos hk, if_pos hk, List.getElem?_eraseIdx_of_lt (by omega)]
  · rw [if_neg hk, if_neg hk]

theorem filter_take_succ (h : ∀ y, l[m]? = some y → P y = false) :
    (l.take (m + 1)).filter P = (l.take m).filter P := by
  rw [List.take_add_one, List.filter_append]
  cases hy : l[m]? with
  | none => simp
  | some y => simp [h y hy]

theorem take_eraseIdx_of_lt (h : n < m) :
    (l.eraseIdx n).take m = (l.take (m + 1)).eraseIdx n := by
  apply List.ext_getElem?
  intro k
  rw [List.getElem?_take, List.getElem?_eraseIdx, List.getElem?_eraseIdx, List.getElem?_take,
    List.getElem?_take]
  grind

theorem eq_take_cons_drop (hx : l[n]? = some x) : l = l.take n ++ x :: l.drop (n + 1) := by
  obtain ⟨hn, rfl⟩ := List.getElem?_eq_some_iff.mp hx
  rw [← List.drop_eq_getElem_cons hn, List.take_append_drop]

theorem filter_eraseIdx (hx : l[n]? = some x) (hP : P x = false) :
    (l.eraseIdx n).filter P = l.filter P := by
  calc (l.eraseIdx n).filter P
      = (l.take n).filter P ++ (l.drop (n + 1)).filter P := by
        rw [List.eraseIdx_eq_take_drop_succ, List.filter_append]
    _ = (l.take n ++ x :: l.drop (n + 1)).filter P := by
        rw [List.filter_append, List.filter_cons_of_neg (by rw [hP]; exact Bool.false_ne_true)]
    _ = l.filter P := by rw [← eq_take_cons_drop hx]

theorem filter_eraseIdx_last (hx : l[n]? = some x) (hP : P x = true)
    (hlast : ∀ k y, n < k → l[k]? = some y → P y = false) :
    l.filter P = (l.eraseIdx n).filter P ++ [x] := by
  have hrest : (l.drop (n + 1)).filter P = [] := by
    rw [List.filter_eq_nil_iff]
    intro y hy
    obtain ⟨k, hk⟩ := List.mem_iff_getElem?.mp hy
    rw [List.getElem?_drop] at hk
    rw [hlast _ y (by omega) hk]
    exact Bool.false_ne_true
  calc l.filter P
      = (l.take n ++ x :: l.drop (n + 1)).filter P := by rw [← eq_take_cons_drop hx]
    _ = (l.take n).filter P ++ [x] := by
        rw [List.filter_append, List.filter_cons_of_pos hP, hrest]
    _ = (l.eraseIdx n).filter P ++ [x] := by
        rw [List.eraseIdx_eq_take_drop_succ, List.filter_append, hrest, List.append_nil]

end Lists

section Merge
variable {U : Type} [DecidableEq U] {P : MessageInfo U → Bool}

def positions (P : MessageInfo U → Bool) (folder : List (MessageInfo U)) : List Nat :=
  (List.range folder.length).filter fun j => folder[j]?.any P

omit [DecidableEq U] in
theorem positions_cons (i : MessageInfo U) (folder : List (MessageInfo U)) :
    positions P (i :: folder) =
      (if P i then [0] else []) ++ (positions P folder).map (· + 1) := by
  rw [positions, List.length_cons, List.range_succ_eq_map, List.filter_cons, List.filter_map]
  have htail : (fun j => ((i :: folder)[j]?).any P) ∘ Nat.succ = fun j => folder[j]?.any P := by
    funext j
    rw [Function.comp_apply, Nat.succ_eq_add_one, List.getElem?_cons_succ]
  rw [htail, List.getElem?_cons_zero, Option.any_some]
  by_cases hi : P i = true
  · rw [if_pos hi, if_pos hi]
    rfl
  · rw [if_neg hi, if_neg hi]
    rfl

/-- One pass finds every match, whatever uids that are no longer there stand behind them. -/
theorem merge_found {messages : List (MessageInfo U)} {gone : List U}
    (hd : (messages.map MessageInfo.uid).Nodup) (hgone : ∀ i ∈ messages, i.uid ∉ gone) (j : Nat) :
    merge messages j ((messages.filter P).map MessageInfo.uid ++ gone) =
      (positions P messages).map (· + j) := by
  induction messages generalizing j with
  | nil => rfl
  | cons i messages ih =>
      rw [List.map_cons, List.nodup_cons] at hd
      have hrest := ih hd.2 (fun k hk => hgone k (List.mem_cons_of_mem i hk)) (j + 1)
      have hshift : ((positions P messages).map (· + 1)).map (· + j) =
          (positions P messages).map (· + (j + 1)) := by
        rw [List.map_map]
        apply List.map_congr_left
        intro k _
        exact Nat.add_right_comm k 1 j
      rw [positions_cons, List.map_append, hshift, ← hrest]
      by_cases hi : P i = true
      · rw [List.filter_cons_of_pos hi, List.map_cons, List.cons_append, merge, if_pos rfl,
          if_pos hi]
        simp
      · rw [List.filter_cons_of_neg hi, if_neg hi, List.map_nil, List.nil_append]
        cases huids : (messages.filter P).map MessageInfo.uid ++ gone with
        | nil => rw [merge]; cases messages <;> rfl
        | cons uid uids =>
            have hmem : uid ∈ (messages.filter P).map MessageInfo.uid ++ gone := by
              rw [huids]
              exact List.mem_cons_self
            have hne : i.uid ≠ uid := by
              intro heq
              rw [← heq, List.mem_append] at hmem
              obtain hmem | hmem := hmem
              · obtain ⟨k, hk, hku⟩ := List.mem_map.mp hmem
                exact hd.1 (List.mem_map.mpr ⟨k, (List.mem_filter.mp hk).1, hku⟩)
              · exact hgone i List.mem_cons_self hmem
            rw [merge, if_neg hne]

end Merge

section Runs
variable {U : Type} [DecidableEq U] (p : SearchParams) (reads : U → List Bool)
variable (folder₀ : List (MessageInfo U))

def satisfied (i : MessageInfo U) : Bool :=
  match flagOf p i with
  | some flag => flag
  | none => (reads i.uid).any id

def wasInScope (i : MessageInfo U) : Bool :=
  inScope p ((folder₀.map MessageInfo.uid).idxOf i.uid) i

def wanted (i : MessageInfo U) : Bool :=
  wasInScope p folder₀ i && (if p.searchNot then !satisfied p reads i else satisfied p reads i)

def Exhausted (s : State U) : Prop :=
  ∀ k i, s.nextMsgNum ≤ k → s.folder[k]? = some i → inScope p k i = false

structure Spares (s : State U) (n : Nat) : Prop where
  scope : ∀ k i, s.nextMsgNum ≤ k → n ≤ k → s.folder[k + 1]? = some i →
    inScope p k i = inScope p (k + 1) i
  passed : n < s.nextMsgNum → ∀ i, s.folder[s.nextMsgNum]? = some i →
    inScope p s.nextMsgNum i = false
  waiting : ∀ one, s.one = some one → sanityCheck s.folder one = true → n < s.nextMsgNum →
    n = one.messageNum ∧ Exhausted p s
  matched : ∀ i, s.folder[n]? = some i → i.uid ∈ s.successArray →
    Exhausted p s ∧ ∀ k j, n < k → s.folder[k]? = some j → j.uid ∉ s.successArray

inductive Reaches : State U → Prop
  | search : Reaches (search folder₀)
  | step {s s' : State U} {e : Event} : Reaches s → step p reads s e = some s' →
      (∀ n, e = .removed n → Spares p s n) → Reaches s'

structure Going (s : State U) : Prop where
  sub : s.folder.Sublist folder₀
  ahead : ∀ k i, s.nextMsgNum ≤ k → s.folder[k]? = some i →
    inScope p k i = wasInScope p folder₀ i ∧ i.uid ∉ s.examined
  behind : ∀ k i, k < s.nextMsgNum → s.folder[k]? = some i → wasInScope p folder₀ i = true →
    i.uid ∈ s.examined
  once : s.examined.Nodup

def FoundBut (gone : List U) (s : State U) (m : Nat) : Prop :=
  s.successArray =
    ((s.folder.take m).filter (wanted p reads folder₀)).map MessageInfo.uid ++ gone

def Found (s : State U) : Prop :=
  ∃ gone, FoundBut p reads folder₀ gone s s.nextMsgNum ∧ (∀ i ∈ s.folder, i.uid ∉ gone) ∧
    (gone ≠ [] → Exhausted p s)

structure Waits (s : State U) (one : SearchOneMessage U) : Prop where
  uid : s.uid = some one.uid
  next : one.messageNum + 1 = s.nextMsgNum
  flag : (one.searchFlag || one.pending.any id) = (reads one.uid).any id
  sane : sanityCheck s.folder one = true → FoundBut p reads folder₀ [] s one.messageNum ∧
    ∀ i, s.folder[one.messageNum]? = some i → wasInScope p folder₀ i = true ∧ flagOf p i = none
  lost : sanityCheck s.folder one = false → (∀ i ∈ s.folder, i.uid ≠ one.uid) ∧ Exhausted p s ∧
    Found p reads folder₀ s

structure Inv (s : State U) : Prop extends Going p folder₀ s where
  later : s.runLater = true → s.one = none
  found : s.result = none → s.one = none → Found p reads folder₀ s
  waits : ∀ one, s.one = some one → Waits p reads folder₀ s one
  done : ∀ found, s.result = some (.success found) →
    found = positions (wanted p reads folder₀) s.folder ∧ s.folder.length ≤ s.nextMsgNum

end Runs

section Steps
variable {U : Type} [DecidableEq U] {p : SearchParams} {reads : U → List Bool}
variable {folder₀ : List (MessageInfo U)} {s s' : State U} {i : MessageInfo U}

omit [DecidableEq U] in
theorem uid_inj {folder : List (MessageInfo U)} (hd : (folder.map MessageInfo.uid).Nodup)
    {k k' : Nat} {i i' : MessageInfo U} (hk : folder[k]? = some i) (hk' : folder[k']? = some i')
    (hu : i.uid = i'.uid) : k = k' := by
  have hlt : k < (folder.map MessageInfo.uid).length := by
    rw [List.length_map]
    exact (List.getElem?_eq_some_iff.mp hk).1
  apply (List.getElem?_inj hlt hd).mp
  rw [List.getElem?_map, List.getElem?_map, hk, hk', Option.map_some, Option.map_some, hu]

theorem Going.nodup (h : Going p folder₀ s) (hd : (folder₀.map MessageInfo.uid).Nodup) :
    (s.folder.map MessageInfo.uid).Nodup :=
  (h.sub.map _).nodup hd

omit [DecidableEq U] in
theorem eq_of_mem_if {b : Bool} {u v : U} (h : u ∈ if b then [v] else []) : u = v := by
  split at h
  · exact List.mem_singleton.mp h
  · cases h

theorem Going.next (h : Going p folder₀ s) (hd : (folder₀.map MessageInfo.uid).Nodup)
    (hi : s.folder[s.nextMsgNum]? = some i) (hf : s'.folder = s.folder)
    (hn : s'.nextMsgNum = s.nextMsgNum + 1)
    (he : s'.examined = s.examined ++ if inScope p s.nextMsgNum i then [i.uid] else []) :
    Going p folder₀ s' := by
  have hscope := h.ahead _ i (Nat.le_refl _) hi
  constructor
  · rw [hf]
    exact h.sub
  · intro k j hk hj
    rw [hf] at hj
    have hj' := h.ahead k j (by omega) hj
    apply And.intro hj'.1
    have hne : j.uid ≠ i.uid := by
      intro heq
      have := uid_inj (h.nodup hd) hj hi heq
      omega
    rw [he, List.mem_append]
    intro hmem
    obtain hmem | hmem := hmem
    · exact hj'.2 hmem
    · exact hne (eq_of_mem_if hmem)
  · intro k j hk hj hwas
    rw [hf] at hj
    rw [he, List.mem_append]
    by_cases hlt : k < s.nextMsgNum
    · exact Or.inl (h.behind k j hlt hj hwas)
    · have heq : k = s.nextMsgNum := by omega
      rw [heq, hi, Option.some.injEq] at hj
      rw [← hj, ← hscope.1] at hwas
      rw [hwas, if_pos rfl, hj]
      exact Or.inr List.mem_cons_self
  · rw [he]
    split
    · exact List.nodup_append'.mpr ⟨h.once, List.nodup_singleton _,
        List.disjoint_singleton.mpr hscope.2⟩
    · rw [List.append_nil]
      exact h.once

omit [DecidableEq U] in
theorem Exhausted.mono (h : Exhausted p s) (hf : s'.folder = s.folder)
    (hn : s.nextMsgNum ≤ s'.nextMsgNum) : Exhausted p s' := by
  intro k j hk hj
  rw [hf] at hj
  exact h k j (Nat.le_trans hn hk) hj

omit [DecidableEq U] in
theorem append_if (b : Bool) (l : List U) (u : U) :
    (if b then l ++ [u] else l) = l ++ if b then [u] else [] := by
  cases b with
  | true => rfl
  | false => exact (List.append_nil l).symm

theorem FoundBut.next {gone : List U} {m : Nat} (h : FoundBut p reads folder₀ gone s m)
    (hi : s.folder[m]? = some i) (hgone : wanted p reads folder₀ i = true → gone = [])
    (hf : s'.folder = s.folder)
    (hs : s'.successArray =
      s.successArray ++ if wanted p reads folder₀ i then [i.uid] else []) :
    FoundBut p reads folder₀ gone s' (m + 1) := by
  rw [FoundBut, hf, List.take_add_one, hi, Option.toList_some, List.filter_append,
    List.map_append, hs, h]
  by_cases hw : wanted p reads folder₀ i = true
  · rw [hgone hw, if_pos hw, List.filter_cons_of_pos hw, List.filter_nil, List.append_nil,
      List.append_nil, List.map_singleton]
  · rw [if_neg hw, List.filter_cons_of_neg hw, List.filter_nil, List.map_nil, List.append_nil,
      List.append_nil]

omit [DecidableEq U] in
theorem gone_eq_nil {gone : List U} (hi : s.folder[s.nextMsgNum]? = some i)
    (hin : inScope p s.nextMsgNum i = true) (hex : gone ≠ [] → Exhausted p s) : gone = [] := by
  by_contra hne
  have hout := hex hne _ i (Nat.le_refl _) hi
  rw [hin] at hout
  cases hout

theorem Found.next (h : Found p reads folder₀ s) (hi : s.folder[s.nextMsgNum]? = some i)
    (hscope : inScope p s.nextMsgNum i = wasInScope p folder₀ i) (hf : s'.folder = s.folder)
    (hn : s'.nextMsgNum = s.nextMsgNum + 1)
    (hs : s'.successArray =
      s.successArray ++ if wanted p reads folder₀ i then [i.uid] else []) :
    Found p reads folder₀ s' := by
  obtain ⟨gone, hbut, hgone, hex⟩ := h
  have hnil : wanted p reads folder₀ i = true → gone = [] := by
    intro hw
    rw [wanted, Bool.and_eq_true] at hw
    exact gone_eq_nil hi (hscope.trans hw.1) hex
  apply Exists.intro gone
  constructor
  · rw [hn]
    exact hbut.next hi hnil hf hs
  · rw [hf]
    exact ⟨hgone, fun hne => (hex hne).mono hf (by omega)⟩

/-- What the loop of `RunningLater` leaves. -/
structure Scanned (p : SearchParams) (reads : U → List Bool) (folder₀ : List (MessageInfo U))
    (s : State U) (r : State U × Option (MessageInfo U)) : Prop where
  going : Going p folder₀ r.1
  found : Found p reads folder₀ r.1
  folder : r.1.folder = s.folder
  runLater : r.1.runLater = s.runLater
  one : r.1.one = s.one
  result : r.1.result = s.result
  finished : r.2 = none → r.1.folder.length ≤ r.1.nextMsgNum
  next : ∀ i, r.2 = some i → r.1.folder[r.1.nextMsgNum]? = some i ∧
    inScope p r.1.nextMsgNum i = true ∧ flagOf p i = none ∧ r.1.uid = some i.uid

theorem Scanned.trans {r : State U × Option (MessageInfo U)}
    (h : Scanned p reads folder₀ s' r) (hf : s'.folder = s.folder)
    (hr : s'.runLater = s.runLater) (ho : s'.one = s.one) (hres : s'.result = s.result) :
    Scanned p reads folder₀ s r :=
  ⟨h.going, h.found, h.folder.trans hf, h.runLater.trans hr, h.one.trans ho, h.result.trans hres,
    h.finished, h.next⟩

theorem scan_spec {messages : List (MessageInfo U)} (hd : (folder₀.map MessageInfo.uid).Nodup)
    (hg : Going p folder₀ s) (hfound : Found p reads folder₀ s)
    (hm : messages = s.folder.drop s.nextMsgNum) :
    Scanned p reads folder₀ s (scan p messages s) := by
  induction messages generalizing s with
  | nil =>
      constructor
      case going => exact hg
      case found => exact hfound
      case folder | runLater | one | result => rfl
      case finished =>
        intro _
        exact List.drop_eq_nil_iff.mp hm.symm
      case next =>
        intro i hi
        cases hi
  | cons i messages ih =>
      have hi : s.folder[s.nextMsgNum]? = some i := by
        have hhead := congrArg List.head? hm
        rw [List.head?_cons, List.head?_drop] at hhead
        exact hhead.symm
      have htail : messages = s.folder.drop (s.nextMsgNum + 1) := by
        have := congrArg List.tail hm
        rw [List.tail_cons, List.tail_drop] at this
        exact this
      have hscope := (hg.ahead _ i (Nat.le_refl _) hi).1
      rw [scan]
      by_cases hin : inScope p s.nextMsgNum i = true
      · rw [if_pos hin]
        cases hflag : flagOf p i with
        | some flag =>
            have hw : wanted p reads folder₀ i = if p.searchNot then !flag else flag := by
              rw [wanted, ← hscope, hin, Bool.true_and, satisfied, hflag]
            dsimp only
            refine Scanned.trans (ih ?_ ?_ htail) rfl rfl rfl rfl
            · refine hg.next hd hi rfl rfl ?_
              rw [if_pos hin]
            · refine hfound.next hi hscope rfl rfl ?_
              rw [hw]
              exact append_if _ _ _
        | none =>
            constructor
            case going => exact ⟨hg.sub, hg.ahead, hg.behind, hg.once⟩
            case found => exact hfound
            case folder | runLater | one | result => rfl
            case finished =>
              intro h
              cases h
            case next =>
              intro j hj
              cases hj
              exact ⟨hi, hin, hflag, rfl⟩
      · have hw : wanted p reads folder₀ i = false := by
          rw [wanted, ← hscope, Bool.of_not_eq_true hin, Bool.false_and]
        rw [if_neg hin]
        refine Scanned.trans (ih ?_ ?_ htail) rfl rfl rfl rfl
        · refine hg.next hd hi rfl rfl ?_
          rw [if_neg hin, List.append_nil]
        · refine hfound.next hi hscope rfl rfl ?_
          rw [hw, if_neg Bool.false_ne_true, List.append_nil]

theorem sanityCheck_iff {folder : List (MessageInfo U)} {one : SearchOneMessage U} :
    sanityCheck folder one = true ↔
      ∃ i, folder[one.messageNum]? = some i ∧ one.uid = i.uid := by
  rw [sanityCheck]
  cases folder[one.messageNum]? with
  | none => simp
  | some i => simp

theorem inv_runningLater (hd : (folder₀.map MessageInfo.uid).Nodup)
    (h : Inv p reads folder₀ s) (hr : s.result = none) (hl : s.runLater = true) :
    Inv p reads folder₀ (runningLater p reads s) := by
  have hnone := h.later hl
  have hg : Going p folder₀ { s with runLater := false } := ⟨h.sub, h.ahead, h.behind, h.once⟩
  have hscan := scan_spec (s := { s with runLater := false }) hd hg (h.found hr hnone) rfl
  rw [runningLater]
  generalize scan p (s.folder.drop s.nextMsgNum) { s with runLater := false } = r at hscan
  obtain ⟨t, found⟩ := r
  have hone : t.one = none := hscan.one.trans hnone
  cases found with
  | none =>
      have hover := hscan.finished rfl
      obtain ⟨gone, hbut, hgone, hex⟩ := hscan.found
      constructor
      case toGoing =>
        exact ⟨hscan.going.sub, hscan.going.ahead, hscan.going.behind, hscan.going.once⟩
      case later => exact fun _ => hone
      case found => exact fun h' => nomatch h'
      case waits =>
        intro one h'
        rw [hone] at h'
        cases h'
      case done =>
        intro found hdone
        apply And.intro _ hover
        have hmerge : found = merge t.folder 0 t.successArray := by
          cases hdone
          rfl
        rw [FoundBut, List.take_of_length_le hover] at hbut
        rw [hmerge, hbut, merge_found (hscan.going.nodup hd) hgone]
        exact List.map_id' _
  | some i =>
      obtain ⟨hi, hin, hflag, huid⟩ := hscan.next i rfl
      have hscope := (hscan.going.ahead _ i (Nat.le_refl _) hi).1
      constructor
      case toGoing =>
        refine hscan.going.next hd hi rfl rfl ?_
        rw [if_pos hin]
      case later =>
        intro h'
        rw [show t.runLater = false from hscan.runLater] at h'
        cases h'
      case found =>
        intro _ h'
        cases h'
      case waits =>
        intro one h'
        cases h'
        have hsane : sanityCheck t.folder ⟨t.nextMsgNum, i.uid, false, reads i.uid⟩ = true :=
          sanityCheck_iff.mpr ⟨i, hi, rfl⟩
        constructor
        case uid => exact huid
        case next => rfl
        case flag => exact Bool.false_or _
        case sane =>
          intro _
          constructor
          · obtain ⟨gone, hbut, _, hex⟩ := hscan.found
            rw [gone_eq_nil hi hin hex] at hbut
            exact hbut
          · intro j hj
            rw [hi] at hj
            cases hj
            exact ⟨hscope ▸ hin, hflag⟩
        case lost =>
          intro h'
          rw [hsane] at h'
          cases h'
      case done =>
        intro found hdone
        rw [show t.result = none from hscan.result.trans hr] at hdone
        cases hdone

theorem inv_checkSearch {one : SearchOneMessage U} {searchFlag : Bool}
    (h : Inv p reads folder₀ s) (hr : s.result = none) (hone : s.one = some one)
    (hflag : sanityCheck s.folder one = true → searchFlag = (reads one.uid).any id) :
    Inv p reads folder₀ (checkSearch p searchFlag s) := by
  have hw := h.waits one hone
  constructor
  case toGoing => exact ⟨h.sub, h.ahead, h.behind, h.once⟩
  case later => exact fun _ => rfl
  case waits => exact fun _ h' => nomatch h'
  case done =>
    intro found hdone
    have hdone' : s.result = some (.success found) := hdone
    rw [hr] at hdone'
    cases hdone'
  case found =>
    intro _ _
    by_cases hs : sanityCheck s.folder one = true
    · obtain ⟨hbut, hmsg⟩ := hw.sane hs
      obtain ⟨i, hi, hu⟩ := sanityCheck_iff.mp hs
      obtain ⟨hwas, hcrit⟩ := hmsg i hi
      have hwanted : wanted p reads folder₀ i =
          if p.searchNot then !searchFlag else searchFlag := by
        rw [wanted, hwas, Bool.true_and, satisfied, hcrit, ← hu, hflag hs]
      have hnext : FoundBut p reads folder₀ [] (checkSearch p searchFlag s)
          (one.messageNum + 1) := by
        refine hbut.next hi (fun _ => rfl) rfl ?_
        rw [hwanted, checkSearch, hw.uid, hu]
        exact append_if _ _ _
      rw [hw.next] at hnext
      exact ⟨[], hnext, fun _ _ => List.not_mem_nil, fun hne => absurd rfl hne⟩
    · obtain ⟨hother, hex, gone, hbut, hgone, _⟩ := hw.lost (Bool.of_not_eq_true hs)
      -- the message is no longer there, and with `searchNot` its uid is kept all the same
      apply Exists.intro
        (gone ++ if (if p.searchNot then !searchFlag else searchFlag) then [one.uid] else [])
      constructor
      · have hs' : (checkSearch p searchFlag s).successArray = s.successArray ++
            if (if p.searchNot then !searchFlag else searchFlag) then [one.uid] else [] := by
          rw [checkSearch, hw.uid]
          exact append_if _ _ _
        rw [FoundBut, hs', hbut, List.append_assoc]
        rfl
      · apply And.intro _ (fun _ => hex)
        intro j hj hmem
        rw [List.mem_append] at hmem
        obtain hmem | hmem := hmem
        · exact hgone j hj hmem
        · exact hother j hj (eq_of_mem_if hmem)

theorem inv_completed {one : SearchOneMessage U} (h : Inv p reads folder₀ s)
    (hr : s.result = none) (hone : s.one = some one) :
    Inv p reads folder₀ (completed p one s) := by
  have hw := h.waits one hone
  have hflag := hw.flag
  have hrest : (one.searchFlag || one.pending.head?.getD false || one.pending.tail.any id) =
      (reads one.uid).any id := by
    rw [← hflag]
    cases one.pending with
    | nil => simp
    | cons b bs => simp [Bool.or_assoc]
  rw [completed]
  by_cases hs : sanityCheck s.folder one = true
  · rw [hs, Bool.not_true, if_neg Bool.false_ne_true]
    split
    · rename_i hover
      apply inv_checkSearch h hr hone
      intro _
      rw [← hrest]
      rw [Bool.or_eq_true] at hover
      obtain hover | hover := hover
      · rw [hover, Bool.true_or]
      · rw [List.isEmpty_iff.mp hover, List.any_nil, Bool.or_false]
    · constructor
      case toGoing => exact ⟨h.sub, h.ahead, h.behind, h.once⟩
      case later =>
        intro hl
        rw [h.later hl] at hone
        cases hone
      case found => exact fun _ h' => nomatch h'
      case done =>
        intro found hdone
        exact h.done found hdone
      case waits =>
        intro one' h'
        cases h'
        exact ⟨hw.uid, hw.next, hrest, hw.sane, hw.lost⟩
  · rw [Bool.of_not_eq_true hs, Bool.not_false, if_pos rfl]
    apply inv_checkSearch h hr hone
    intro h'
    exact absurd h' hs

end Steps

section Removals
variable {U : Type} [DecidableEq U] {p : SearchParams} {reads : U → List Bool}
variable {folder₀ : List (MessageInfo U)} {s : State U} {n : Nat}

def State.removed (s : State U) (n : Nat) : State U := { s with folder := s.folder.eraseIdx n }

theorem exhausted_removed (hsp : Spares p s n) (h : Exhausted p s) : Exhausted p (s.removed n) := by
  intro k i hk hi
  rw [State.removed, List.getElem?_eraseIdx] at hi
  split at hi
  · exact h k i hk hi
  · rw [hsp.scope k i hk (by omega) hi]
    exact h (k + 1) i (Nat.le_succ_of_le hk) hi

theorem going_removed (hsp : Spares p s n) (h : Going p folder₀ s) :
    Going p folder₀ (s.removed n) := by
  constructor
  · exact (List.eraseIdx_sublist _ _).trans h.sub
  · intro k i hk hi
    rw [State.removed, List.getElem?_eraseIdx] at hi
    split at hi
    · exact h.ahead k i hk hi
    · rw [hsp.scope k i hk (by omega) hi]
      exact h.ahead (k + 1) i (Nat.le_succ_of_le hk) hi
  · intro k i hk hi hwas
    have hk' : k < s.nextMsgNum := hk
    rw [State.removed, List.getElem?_eraseIdx] at hi
    split at hi
    · exact h.behind k i hk' hi hwas
    · by_cases hslip : k + 1 < s.nextMsgNum
      · exact h.behind (k + 1) i hslip hi hwas
      · have hlast : k + 1 = s.nextMsgNum := by omega
        rw [hlast] at hi
        rw [← (h.ahead _ i (Nat.le_refl _) hi).1, hsp.passed (by omega) i hi] at hwas
        cases hwas
  · exact h.once

variable (reads) in
theorem not_wanted_passed (hsp : Spares p s n) (h : Going p folder₀ s) (hn : n < s.nextMsgNum)
    (i : MessageInfo U) (hi : s.folder[s.nextMsgNum]? = some i) :
    wanted p reads folder₀ i = false := by
  rw [wanted, ← (h.ahead _ i (Nat.le_refl _) hi).1, hsp.passed hn i hi, Bool.false_and]

theorem found_removed (hd : (folder₀.map MessageInfo.uid).Nodup) (hsp : Spares p s n)
    (hg : Going p folder₀ s) (h : Found p reads folder₀ s) :
    Found p reads folder₀ (s.removed n) := by
  obtain ⟨gone, hbut, hgone, hex⟩ := h
  have hgone' : ∀ i ∈ (s.removed n).folder, i.uid ∉ gone :=
    fun i hi => hgone i (List.mem_of_mem_eraseIdx hi)
  have hex' : gone ≠ [] → Exhausted p (s.removed n) :=
    fun hne => exhausted_removed hsp (hex hne)
  by_cases hn : n < s.nextMsgNum
  · have hpass := not_wanted_passed reads hsp hg hn
    have htake : ((s.folder.take (s.nextMsgNum + 1)).filter (wanted p reads folder₀)) =
        (s.folder.take s.nextMsgNum).filter (wanted p reads folder₀) := filter_take_succ hpass
    cases hi : s.folder[n]? with
    | none =>
        have hlen := List.getElem?_eq_none_iff.mp hi
        have hsame : (s.removed n).folder = s.folder := List.eraseIdx_of_length_le hlen
        apply Exists.intro gone
        apply And.intro _ ⟨hgone', hex'⟩
        rw [FoundBut, hsame]
        exact hbut
    | some i =>
        have hi' : (s.folder.take (s.nextMsgNum + 1))[n]? = some i := by
          rw [List.getElem?_take_of_lt (by omega), hi]
        by_cases hw : wanted p reads folder₀ i = true
        · have hmem {k : Nat} {j : MessageInfo U} (hk : k < s.nextMsgNum)
              (hj : s.folder[k]? = some j) (hwj : wanted p reads folder₀ j = true) :
              j.uid ∈ s.successArray := by
            rw [hbut, List.mem_append, List.mem_map]
            apply Or.inl
            apply Exists.intro j
            rw [List.mem_filter]
            apply And.intro (And.intro _ hwj) rfl
            rw [List.mem_iff_getElem?]
            exact ⟨k, by rw [List.getElem?_take_of_lt hk, hj]⟩
          obtain ⟨hexh, hlast⟩ := hsp.matched i hi (hmem hn hi hw)
          have hlater : ∀ k y, n < k → (s.folder.take (s.nextMsgNum + 1))[k]? = some y →
              wanted p reads folder₀ y = false := by
            intro k y hk hy
            rw [List.getElem?_take] at hy
            split at hy
            · by_cases hk' : k < s.nextMsgNum
              · by_contra hwy
                exact hlast k y hk hy (hmem hk' hy (Bool.of_not_eq_false hwy))
              · have heq : k = s.nextMsgNum := by omega
                exact hpass y (heq ▸ hy)
            · cases hy
          have hsplit := filter_eraseIdx_last hi' hw hlater
          apply Exists.intro (i.uid :: gone)
          constructor
          · rw [FoundBut, State.removed]
            dsimp only
            rw [take_eraseIdx_of_lt hn, hbut, ← htake, hsplit, List.map_append,
              List.append_assoc]
            rfl
          · apply And.intro _ (fun _ => exhausted_removed hsp hexh)
            intro j hj hmemj
            rw [List.mem_cons] at hmemj
            obtain hmemj | hmemj := hmemj
            · obtain ⟨k, hk⟩ := List.mem_iff_getElem?.mp hj
              rw [State.removed, List.getElem?_eraseIdx] at hk
              split at hk
              · have := uid_inj (hg.nodup hd) hk hi hmemj
                omega
              · have := uid_inj (hg.nodup hd) hk hi hmemj
                omega
            · exact hgone' j hj hmemj
        · apply Exists.intro gone
          apply And.intro _ ⟨hgone', hex'⟩
          rw [FoundBut, State.removed]
          dsimp only
          rw [take_eraseIdx_of_lt hn, filter_eraseIdx hi' (Bool.of_not_eq_true hw), htake]
          exact hbut
  · apply Exists.intro gone
    apply And.intro _ ⟨hgone', hex'⟩
    rw [FoundBut, State.removed]
    dsimp only
    rw [take_eraseIdx_of_le (by omega)]
    exact hbut

theorem waits_removed (hd : (folder₀.map MessageInfo.uid).Nodup) (hsp : Spares p s n)
    (hg : Going p folder₀ s) {one : SearchOneMessage U} (hone : s.one = some one)
    (h : Waits p reads folder₀ s one) : Waits p reads folder₀ (s.removed n) one := by
  have hnext := h.next
  refine ⟨h.uid, h.next, h.flag, ?_, ?_⟩
  · intro hs
    obtain ⟨i, hi, hu⟩ := sanityCheck_iff.mp hs
    rw [State.removed, List.getElem?_eraseIdx] at hi
    by_cases hs' : sanityCheck s.folder one = true
    · by_cases hn : n < s.nextMsgNum
      · -- the message itself was removed, so another one cannot have its uid
        obtain ⟨hn', _⟩ := hsp.waiting one hone hs' hn
        obtain ⟨j, hj, hju⟩ := sanityCheck_iff.mp hs'
        rw [if_neg (by omega)] at hi
        have := uid_inj (hg.nodup hd) hi hj (hu.symm.trans hju)
        omega
      · obtain ⟨hbut, hmsg⟩ := h.sane hs'
        rw [if_pos (by omega)] at hi
        constructor
        · rw [FoundBut, State.removed]
          dsimp only
          rw [take_eraseIdx_of_le (by omega)]
          exact hbut
        · intro j hj
          rw [State.removed, List.getElem?_eraseIdx_of_lt (by omega)] at hj
          exact hmsg j hj
    · obtain ⟨hother, _⟩ := h.lost (Bool.of_not_eq_true hs')
      split at hi
      · exact absurd hu.symm (hother i (List.mem_of_getElem? hi))
      · exact absurd hu.symm (hother i (List.mem_of_getElem? hi))
  · intro hs
    by_cases hs' : sanityCheck s.folder one = true
    · obtain ⟨i, hi, hu⟩ := sanityCheck_iff.mp hs'
      by_cases hn : n < s.nextMsgNum
      · obtain ⟨hn', hexh⟩ := hsp.waiting one hone hs' hn
        obtain ⟨hbut, _⟩ := h.sane hs'
        have hslip : ∀ y, (s.folder.eraseIdx n)[n]? = some y →
            wanted p reads folder₀ y = false := by
          intro y hy
          rw [List.getElem?_eraseIdx_of_ge (Nat.le_refl n), hn', hnext] at hy
          exact not_wanted_passed reads hsp hg hn y hy
        constructor
        · intro j hj heq
          obtain ⟨k, hk⟩ := List.mem_iff_getElem?.mp hj
          rw [State.removed, List.getElem?_eraseIdx] at hk
          split at hk
          · have := uid_inj (hg.nodup hd) hk hi (heq.trans hu)
            omega
          · have := uid_inj (hg.nodup hd) hk hi (heq.trans hu)
            omega
        · apply And.intro (exhausted_removed hsp hexh)
          apply Exists.intro []
          apply And.intro _ ⟨fun _ _ => List.not_mem_nil, fun hne => absurd rfl hne⟩
          rw [FoundBut, State.removed]
          dsimp only
          rw [← hnext, ← hn', filter_take_succ hslip, take_eraseIdx_of_le (Nat.le_refl n), hn']
          exact hbut
      · have hs'' : sanityCheck (s.removed n).folder one = true := by
          apply sanityCheck_iff.mpr
          apply Exists.intro i
          rw [State.removed, List.getElem?_eraseIdx_of_lt (by omega)]
          exact ⟨hi, hu⟩
        rw [hs''] at hs
        cases hs
    · obtain ⟨hother, hexh, hfound⟩ := h.lost (Bool.of_not_eq_true hs')
      constructor
      · exact fun j hj => hother j (List.mem_of_mem_eraseIdx hj)
      · exact ⟨exhausted_removed hsp hexh, found_removed hd hsp hg hfound⟩

theorem inv_removed (hd : (folder₀.map MessageInfo.uid).Nodup) (hsp : Spares p s n)
    (h : Inv p reads folder₀ s) (hr : s.result = none) : Inv p reads folder₀ (s.removed n) := by
  constructor
  case toGoing => exact going_removed hsp h.toGoing
  case later => exact h.later
  case found =>
    intro _ hone
    exact found_removed hd hsp h.toGoing (h.found hr hone)
  case waits =>
    intro one hone
    exact waits_removed hd hsp h.toGoing hone (h.waits one hone)
  case done =>
    intro found hdone
    have hdone' : s.result = some (.success found) := hdone
    rw [hr] at hdone'
    cases hdone'

end Removals

section Search
variable {U : Type} [DecidableEq U] {p : SearchParams} {reads : U → List Bool}
variable {folder₀ : List (MessageInfo U)} {s s' : State U}

theorem inv_search (hd : (folder₀.map MessageInfo.uid).Nodup) :
    Inv p reads folder₀ (search folder₀) := by
  constructor
  case toGoing =>
    constructor
    · exact List.Sublist.refl _
    · intro k i _ hi
      apply And.intro _ List.not_mem_nil
      have hi' : folder₀[k]? = some i := hi
      have hmap : (folder₀.map MessageInfo.uid)[k]? = some i.uid := by
        rw [List.getElem?_map, hi', Option.map_some]
      obtain ⟨hlt, hk⟩ := List.getElem?_eq_some_iff.mp hmap
      rw [wasInScope, ← hk, hd.idxOf_getElem]
    · intro k i hk
      exact absurd hk (Nat.not_lt_zero k)
    · exact List.nodup_nil
  case later => exact fun _ => rfl
  case found =>
    intro _ _
    exact ⟨[], rfl, fun _ _ => List.not_mem_nil, fun hne => absurd rfl hne⟩
  case waits => exact fun _ h => nomatch h
  case done => exact fun _ h => nomatch h

theorem inv_step (hd : (folder₀.map MessageInfo.uid).Nodup) (h : Inv p reads folder₀ s) {e : Event}
    (hstep : step p reads s e = some s') (hsp : ∀ n, e = .removed n → Spares p s n) :
    Inv p reads folder₀ s' := by
  unfold step at hstep
  split at hstep
  · cases hstep
  · rename_i hres
    have hr : s.result = none := by
      rw [Bool.not_eq_true, Option.isSome_eq_false_iff, Option.isNone_iff_eq_none] at hres
      exact hres
    cases e with
    | runningLater =>
        obtain ⟨hl, hs⟩ := Option.ite_none_right_eq_some.mp hstep
        cases hs
        exact inv_runningLater hd h hr hl
    | completed =>
        obtain ⟨one, hone, rfl⟩ := Option.map_eq_some_iff.mp hstep
        exact inv_completed h hr hone
    | failed =>
        obtain ⟨one, hone, rfl⟩ := Option.map_eq_some_iff.mp hstep
        constructor
        case toGoing => exact ⟨h.sub, h.ahead, h.behind, h.once⟩
        case later => exact fun _ => rfl
        case found => exact fun h' => nomatch h'
        case waits => exact fun _ h' => nomatch h'
        case done => exact fun _ h' => nomatch h'
    | removed n =>
        obtain ⟨_, hs⟩ := Option.ite_none_right_eq_some.mp hstep
        cases hs
        exact inv_removed hd (hsp n rfl) h hr

theorem inv_reaches (hd : (folder₀.map MessageInfo.uid).Nodup) (h : Reaches p reads folder₀ s) :
    Inv p reads folder₀ s := by
  induction h with
  | search => exact inv_search hd
  | step _ hstep hsp ih => exact inv_step hd ih hstep hsp

/-- The result is the positions of the messages found, and of those that are left none that was in
scope is passed over or examined twice. -/
theorem search_finds (hd : (folder₀.map MessageInfo.uid).Nodup) (h : Reaches p reads folder₀ s)
    {found : List Nat} (hdone : s.result = some (.success found)) :
    found = positions (wanted p reads folder₀) s.folder ∧ s.examined.Nodup ∧
      ∀ i ∈ s.folder, wasInScope p folder₀ i = true → i.uid ∈ s.examined := by
  have hinv := inv_reaches hd h
  obtain ⟨hfound, hover⟩ := hinv.done found hdone
  apply And.intro hfound
  apply And.intro hinv.once
  intro i hi hwas
  obtain ⟨k, hk⟩ := List.mem_iff_getElem?.mp hi
  have hlt := (List.getElem?_eq_some_iff.mp hk).1
  exact hinv.behind k i (by omega) hk hwas

end Search

section Three

def three : List (MessageInfo Nat) :=
  [⟨0, false, false, false, false, true⟩, ⟨1, false, false, false, false, true⟩,
    ⟨2, false, false, false, false, true⟩]

def bySubject : SearchParams := ⟨false, .subject, .search_all, 0, 0⟩

/-- The last message goes while the first one is examined. -/
theorem search_finds_shortened :
    [0, 1] = positions (wanted bySubject (fun _ => [true]) three) (three.take 2) ∧
      [0, 1].Nodup ∧ ∀ i ∈ three.take 2, wasInScope bySubject three i = true →
        i.uid ∈ [0, 1] := by
  have hspares : Spares bySubject
      (runningLater bySubject (fun _ => [true]) (search three)) 2 :=
    ⟨fun _ _ _ _ _ => rfl, fun h => absurd h (by decide), fun _ _ _ h => absurd h (by decide),
      fun _ _ h => absurd h List.not_mem_nil⟩
  have h₁ : Reaches bySubject (fun _ => [true]) three _ :=
    .step (e := .runningLater) .search rfl fun _ h => nomatch h
  have h₂ : Reaches bySubject (fun _ => [true]) three _ :=
    .step (e := .removed 2) h₁ rfl fun _ h => by cases h; exact hspares
  have h₃ : Reaches bySubject (fun _ => [true]) three _ :=
    .step (e := .completed) h₂ rfl fun _ h => nomatch h
  have h₄ : Reaches bySubject (fun _ => [true]) three _ :=
    .step (e := .runningLater) h₃ rfl fun _ h => nomatch h
  have h₅ : Reaches bySubject (fun _ => [true]) three _ :=
    .step (e := .completed) h₄ rfl fun _ h => nomatch h
  have h₆ : Reaches bySubject (fun _ => [true]) three _ :=
    .step (e := .runningLater) h₅ rfl fun _ h => nomatch h
  exact search_finds (by decide) h₆ rfl

/-- The first message, which does not match, goes while it is examined; the second one is passed
over. -/
theorem search_skips_shifted :
    (run bySubject (fun uid => [uid != 0]) (search three)
      [.runningLater, .removed 0, .completed, .runningLater, .completed, .runningLater]).map
        (fun s => (s.result, s.examined,
          positions (wanted bySubject (fun uid => [uid != 0]) three) s.folder)) =
      some (some (.success [1]), [0, 2], [0, 1]) := by
  decide

end Three

end Cone.SearchMessages
