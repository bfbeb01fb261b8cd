import Cone.MaildirfilterList

/-! # Names of rules, over sequences of calls -/
set_option autoImplicit false
namespace Cone.Maildirfilter
open Cone.Ctype Cone.Lib.LinkedList

/-! ## The loop over the names -/

section Exists
variable {s : Filter} {p : Nat} {name : List UInt8}

theorem rulename_eq {q : Nat} {c : Maildirfilterrule} (rule : s.rules q = some c) :
    rulename s q = c.rulename := by
  unfold rulename fields
  rw [rule]
  rfl

theorem existsLoop_eq {before : Option Nat} {l : List Nat} {x : Nat}
    (seg : Seg (links s) before none (x :: l))
    (named : ∀ q ∈ (x :: l).dropLast, (rulename s q).isSome = true) {fuel : Nat}
    (enough : l.length < fuel) :
    existsLoop s p name fuel (some x) =
      some (decide (∃ q ∈ (x :: l).dropLast, q ≠ p ∧ rulename s q = some name)) := by
  induction l generalizing before x fuel with
  | nil =>
      obtain ⟨fuel, rfl⟩ : ∃ n, fuel = n + 1 := ⟨fuel - 1, by omega⟩
      obtain ⟨link, -⟩ := seg
      rw [links, Option.map_eq_some_iff] at link
      obtain ⟨c, rule, eq⟩ := link
      have next : c.next = none := congrArg Prod.fst eq
      unfold existsLoop
      simp [rule, next]
  | cons y l ih =>
      obtain ⟨fuel, rfl⟩ : ∃ n, fuel = n + 1 := ⟨fuel - 1, by omega⟩
      obtain ⟨link, rest⟩ := seg
      rw [links, Option.map_eq_some_iff] at link
      obtain ⟨c, rule, eq⟩ := link
      have next : c.next = some y := congrArg Prod.fst eq
      rw [List.dropLast_cons_cons] at named ⊢
      obtain ⟨rname, hname⟩ := Option.isSome_iff_exists.mp (named x List.mem_cons_self)
      have hc : c.rulename = some rname := (rulename_eq rule).symm.trans hname
      have tail := ih rest (fun q mem => named q (List.mem_cons_of_mem _ mem))
        (show l.length < fuel by rw [List.length_cons] at enough; omega)
      unfold existsLoop
      rw [rule]
      simp only [next, hc, tail]
      by_cases same : p = x
      · rw [if_pos same]
        simp [same]
      · rw [if_neg same]
        by_cases taken : rname = name
        · rw [if_pos taken]
          simp [Ne.symm same, hname, taken]
        · rw [if_neg taken]
          simp [hname, taken]

end Exists

/-! ## Update -/

section Update
variable {mdirsep : UInt8} {pcreCompile : List UInt8 → Bool}
variable {s : Filter} {l : List Nat} {p : Nat} {a : RuleArgs} {f : Fields}

theorem setRule_chain (h : Chain s l) :
    Chain (setRule s p fun c => { c with toFields := f }) l :=
  h.of_links (by
    funext q
    exact modify_frame (f := fun c => { c with toFields := f }) s.rules p (fun _ => rfl) q) rfl rfl

theorem fields_setRule : fields (setRule s p fun c => { c with toFields := f }) =
    modify (fields s) p fun _ => f :=
  modify_view (f := fun c => { c with toFields := f }) (g := fun _ => f) s.rules p fun _ => rfl

theorem newFields_rulename (h : newFields mdirsep pcreCompile a = some (.ok f)) :
    f.rulename = a.name := by
  unfold newFields at h
  split at h
  · exact absurd h (by simp)
  split at h
  · exact absurd h (by simp)
  split at h
  · exact absurd h (by simp)
  simp only [] at h
  split at h
  · exact absurd h (by simp)
  split at h
  · exact absurd h (by simp)
  simp only [Option.some.injEq, Except.ok.injEq] at h
  rw [← h]

theorem newFields_eq_none (h : newFields mdirsep pcreCompile a = none) : a.fromhdr = none := by
  unfold newFields at h
  split at h
  · exact absurd h (by simp)
  split at h
  · exact absurd h (by simp)
  split at h
  · assumption
  simp only [] at h
  split at h
  · exact absurd h (by simp)
  split at h
  · exact absurd h (by simp)
  · exact absurd h (by simp)

theorem name_of_not_bad (h : badRulename (a.name.getD []) = false) :
    a.name = some (a.name.getD []) := by
  rcases name : a.name with _ | n
  · rw [name] at h
    exact absurd h (by decide)
  · rfl

abbrev Taken (s : Filter) (l : List Nat) (p : Nat) (a : RuleArgs) : Prop :=
  ∃ q ∈ l.dropLast, q ≠ p ∧ rulename s q = some (a.name.getD [])

theorem Chain.length_le (h : Chain s l) : l.length ≤ s.brk := by
  have sub : l ⊆ List.range s.brk := fun q mem => List.mem_range.mpr (h.bound q mem)
  have := (List.subperm_of_subset h.nodup sub).length_le
  rwa [List.length_range] at this

theorem Chain.existsLoop_eq (h : Chain s l) (mem : p ∈ l)
    (named : ∀ q ∈ l.dropLast, (rulename s q).isSome = true) :
    existsLoop s p (a.name.getD []) (s.brk + 1) s.first = some (decide (Taken s l p a)) := by
  have short := h.length_le
  cases l with
  | nil => exact absurd mem List.not_mem_nil
  | cons x l =>
      rw [h.first]
      rw [List.length_cons] at short
      exact Maildirfilter.existsLoop_eq h.seg named (by omega)

/-- What an update can do. -/
theorem ruleupdate_cases (mdirsep : UInt8) (pcreCompile : List UInt8 → Bool) (a : RuleArgs)
    (h : Chain s l) (mem : p ∈ l)
    (named : ∀ q ∈ l.dropLast, (rulename s q).isSome = true) :
    (∃ e, ruleupdate s mdirsep pcreCompile p a = some (some e, s) ∧
      (badRulename (a.name.getD []) = true ∨ Taken s l p a ∨
        ∀ f, newFields mdirsep pcreCompile a ≠ some (.ok f))) ∨
    (ruleupdate s mdirsep pcreCompile p a = none ∧ a.fromhdr = none ∧
      newFields mdirsep pcreCompile a = none) ∨
    (∃ f, badRulename (a.name.getD []) = false ∧ ¬ Taken s l p a ∧
      newFields mdirsep pcreCompile a = some (.ok f) ∧
      ruleupdate s mdirsep pcreCompile p a =
        some (none, setRule s p fun c => { c with toFields := f })) := by
  unfold ruleupdate
  by_cases bad : badRulename (a.name.getD []) = true
  · rw [if_pos bad]
    exact Or.inl ⟨_, rfl, Or.inl bad⟩
  rw [if_neg bad, h.existsLoop_eq mem named]
  by_cases clash : Taken s l p a
  · rw [decide_eq_true clash]
    exact Or.inl ⟨_, rfl, Or.inr (Or.inl clash)⟩
  · rw [decide_eq_false clash]
    rcases new : newFields mdirsep pcreCompile a with _ | e | f
    · exact Or.inr (Or.inl ⟨rfl, newFields_eq_none new, rfl⟩)
    · exact Or.inl ⟨e, rfl, Or.inr (Or.inr fun f => by simp)⟩
    · exact Or.inr (Or.inr ⟨f, by simpa using bad, clash, rfl, rfl⟩)

end Update

/-! ## Calls -/

inductive Call where
  | appendrule (a : RuleArgs)
  | ruleupdate (p : Nat) (a : RuleArgs)
  | ruledel (p : Nat)
  | ruleup (p : Nat)
  | ruledown (p : Nat)

section Calls
variable (mdirsep : UInt8) (pcreCompile : List UInt8 → Bool) (s : Filter)

def step : Call → Option (Option Errcode × Filter)
  | .appendrule a => appendrule s mdirsep pcreCompile a
  | .ruleupdate p a =>
    if (s.rules p).isSome then Maildirfilter.ruleupdate s mdirsep pcreCompile p a else none
  | .ruledel p => (Maildirfilter.ruledel s p).map fun s => (none, s)
  | .ruleup p => (Maildirfilter.ruleup s p).map fun s => (none, s)
  | .ruledown p => (Maildirfilter.ruledown s p).map fun s => (none, s)

def Sensible : Call → Prop
  | .appendrule a => a.fromhdr.isSome = true
  | .ruleupdate p a => (s.rules p).isSome = true ∧ a.fromhdr.isSome = true
  | .ruledel p => (s.rules p).isSome = true
  | .ruleup p => (s.rules p).isSome = true
  | .ruledown p => (s.rules p).isSome = true

def Applied (l : List Nat) (s' : Filter) (l' : List Nat) : Call → Prop
  | .appendrule a => ∃ f, newFields mdirsep pcreCompile a = some (.ok f) ∧
      l' = l ++ [s.brk] ∧ fields s' = store (fields s) s.brk f
  | .ruleupdate p a => ∃ f, newFields mdirsep pcreCompile a = some (.ok f) ∧
      l' = l ∧ fields s' = modify (fields s) p fun _ => f
  | .ruledel p => (∃ a b, l = a ++ p :: b ∧ l' = a ++ b) ∧ fields s' = free (fields s) p
  | .ruleup p => ((∃ a q b, l = a ++ q :: p :: b ∧ l' = a ++ p :: q :: b) ∨
      l.head? = some p ∧ l' = l) ∧ fields s' = fields s
  | .ruledown p => ((∃ a q b, l = a ++ p :: q :: b ∧ l' = a ++ q :: p :: b) ∨
      l.getLast? = some p ∧ l' = l) ∧ fields s' = fields s

def Effect (c : Call) (e : Option Errcode) (s' : Filter) : Prop :=
  ∃ l l', Chain s l ∧ Chain s' l' ∧
    match e with
    | some _ => l' = l ∧ fields s' = fields s
    | none => Applied mdirsep pcreCompile s l s' l' c

def DistinctNames : Prop :=
  ∀ p q, (s.rules p).isSome = true → (s.rules q).isSome = true →
    rulename s p = rulename s q → p = q

def Clash (c : Call) : Prop :=
  ∃ p a q f, c = .ruleupdate p a ∧ (s.rules p).isSome = true ∧ s.last = some q ∧ q ≠ p ∧
    rulename s q = a.name ∧ badRulename (a.name.getD []) = false ∧
    newFields mdirsep pcreCompile a = some (.ok f)

def Keeps (s : Filter) : List Call → Prop
  | [] => (∃ l, Chain s l) ∧ DistinctNames s
  | c :: calls => ((∃ l, Chain s l) ∧ DistinctNames s) ∧
      (Sensible s c → (step mdirsep pcreCompile s c).isSome = true) ∧
      ∀ e s', step mdirsep pcreCompile s c = some (e, s') →
        Effect mdirsep pcreCompile s c e s' ∧ Keeps s' calls

def NoClash (s : Filter) : List Call → Prop
  | [] => True
  | c :: calls => ¬ Clash mdirsep pcreCompile s c ∧
      ∀ e s', step mdirsep pcreCompile s c = some (e, s') → NoClash s' calls

end Calls

/-! ## One call -/

section Step
variable {mdirsep : UInt8} {pcreCompile : List UInt8 → Bool}
variable {s s' : Filter} {l l' : List Nat} {p : Nat} {a : RuleArgs} {f : Fields}

structure Good (s : Filter) (l : List Nat) : Prop where
  chain : Chain s l
  named : ∀ p ∈ l, (rulename s p).isSome = true
  distinct : ∀ p ∈ l, ∀ q ∈ l, rulename s p = rulename s q → p = q

theorem good_nulled : Good nulled [] where
  chain := chain_nulled
  named := by simp
  distinct := by simp

theorem Chain.distinctNames_iff (h : Chain s l) :
    DistinctNames s ↔ ∀ p ∈ l, ∀ q ∈ l, rulename s p = rulename s q → p = q := by
  unfold DistinctNames
  simp only [h.rule_iff]
  exact ⟨fun distinct p memp q memq => distinct p q memp memq,
    fun distinct p q memp memq => distinct p memp q memq⟩

theorem Good.distinctNames (h : Good s l) : DistinctNames s :=
  h.chain.distinctNames_iff.mpr h.distinct

theorem rulename_congr (h : fields s' = fields s) : rulename s' = rulename s := by
  unfold rulename
  rw [h]

/-- Rules that say what they said, fewer of them or in another order. -/
theorem Good.of_subset (h : Good s l) (chain : Chain s' l') (sub : ∀ q ∈ l', q ∈ l)
    (same : ∀ q ∈ l', rulename s' q = rulename s q) : Good s' l' where
  chain := chain
  named := fun q mem => by
    rw [same q mem]
    exact h.named q (sub q mem)
  distinct := fun p memp q memq eq => by
    rw [same p memp, same q memq] at eq
    exact h.distinct p (sub p memp) q (sub q memq) eq

theorem Good.of_fields (h : Good s l) (chain : Chain s' l') (same : fields s' = fields s) :
    Good s' l' := by
  refine h.of_subset chain (fun q mem => ?_) fun q _ => congrFun (rulename_congr same) q
  rwa [← h.chain.fields_isSome_iff, ← same, chain.fields_isSome_iff]

theorem ruleupdate_good (mdirsep : UInt8) (pcreCompile : List UInt8 → Bool) (a : RuleArgs)
    (h : Good s l) (mem : p ∈ l) :
    (∃ e, ruleupdate s mdirsep pcreCompile p a = some (some e, s) ∧
      (badRulename (a.name.getD []) = true ∨ Taken s l p a ∨
        ∀ f, newFields mdirsep pcreCompile a ≠ some (.ok f))) ∨
    (ruleupdate s mdirsep pcreCompile p a = none ∧ a.fromhdr = none ∧
      newFields mdirsep pcreCompile a = none) ∨
    (∃ f s', ruleupdate s mdirsep pcreCompile p a = some (none, s') ∧
      badRulename (a.name.getD []) = false ∧ ¬ Taken s l p a ∧
      newFields mdirsep pcreCompile a = some (.ok f) ∧ Chain s' l ∧
      fields s' = modify (fields s) p fun _ => f) := by
  rcases ruleupdate_cases mdirsep pcreCompile a h.chain mem
    fun q memq => h.named q (List.mem_of_mem_dropLast memq) with
    error | none | ⟨f, good, free, new, run⟩
  · exact Or.inl error
  · exact Or.inr (Or.inl none)
  · exact Or.inr (Or.inr ⟨f, _, run, good, free, new, setRule_chain h.chain, fields_setRule⟩)

theorem linkNew_named (h : Good s l) :
    ∀ q ∈ l, rulename (linkNew s).2 q = rulename s q := by
  intro q mem
  have ne : q ≠ s.brk := fun eq => h.chain.brk_not_mem (eq ▸ mem)
  unfold rulename
  rw [fields_linkNew, store_ne _ ne]

theorem appendrule_cases (mdirsep : UInt8) (pcreCompile : List UInt8 → Bool) (a : RuleArgs)
    (h : Good s l) :
    (∃ e s', appendrule s mdirsep pcreCompile a = some (some e, s') ∧ Chain s' l ∧
      fields s' = fields s) ∨
    (appendrule s mdirsep pcreCompile a = none ∧ a.fromhdr = none) ∨
    (∃ f s', appendrule s mdirsep pcreCompile a = some (none, s') ∧
      newFields mdirsep pcreCompile a = some (.ok f) ∧ a.name.isSome = true ∧
      (∀ q ∈ l, rulename s q ≠ a.name) ∧ Chain s' (l ++ [s.brk]) ∧
      fields s' = store (fields s) s.brk f) := by
  have chain := linkNew_chain h.chain
  have named := linkNew_named h
  have new := h.chain.brk_not_mem
  have mem : s.brk ∈ l ++ [s.brk] := by simp
  have notAllocated : fields s s.brk = none := by
    rw [← Option.not_isSome_iff_eq_none, h.chain.fields_isSome_iff]
    exact new
  have address : (linkNew s).1 = s.brk := rfl
  unfold appendrule
  simp only [address]
  rcases ruleupdate_cases mdirsep pcreCompile a chain mem
    (fun q memq => by
      rw [List.dropLast_concat] at memq
      rw [named q memq]
      exact h.named q memq) with
    ⟨e, run, -⟩ | ⟨run, null, -⟩ | ⟨f, good, free, ok, run⟩
  · obtain ⟨s', del, chain', fields'⟩ := ruledel_chain chain
    rw [run]
    refine Or.inl ⟨e, s', ?_, by simpa using chain', ?_⟩
    · simp only [del]
      rfl
    · rw [fields', fields_linkNew]
      funext q
      by_cases here : q = s.brk
      · rw [here, free_self, notAllocated]
      · rw [free_ne _ here, store_ne _ here]
  · rw [run]
    exact Or.inr (Or.inl ⟨rfl, null⟩)
  · have name := name_of_not_bad good
    rw [run]
    refine Or.inr (Or.inr ⟨f, _, rfl, ok, by rw [name]; rfl, fun q memq eq => ?_,
      setRule_chain chain, ?_⟩)
    · refine free ⟨q, by rwa [List.dropLast_concat], fun eq => new (eq ▸ memq), ?_⟩
      rw [named q memq, eq]
      exact name
    · rw [fields_setRule, fields_linkNew, modify_store]

theorem rulename_modify (chain : Chain s l) (mem : p ∈ l)
    (same : fields s' = modify (fields s) p fun _ => f) (q : Nat) :
    rulename s' q = if q = p then f.rulename else rulename s q := by
  unfold rulename
  rw [same]
  by_cases here : q = p
  · obtain ⟨g, eq⟩ := Option.isSome_iff_exists.mp ((chain.fields_isSome_iff p).mpr mem)
    rw [if_pos here, here, modify_self, eq]
    rfl
  · rw [if_neg here, modify_ne _ here]

theorem Good.rename (h : Good s l) (chain : Chain s' l) (mem : p ∈ l)
    (same : fields s' = modify (fields s) p fun _ => f) (name : f.rulename.isSome = true)
    (other : ∀ q ∈ l, q ≠ p → rulename s q ≠ f.rulename) : Good s' l where
  chain := chain
  named := fun q memq => by
    rw [rulename_modify h.chain mem same]
    split
    · exact name
    · exact h.named q memq
  distinct := fun q memq r memr eq => by
    rw [rulename_modify h.chain mem same, rulename_modify h.chain mem same] at eq
    by_cases hq : q = p
    · by_cases hr : r = p
      · rw [hq, hr]
      · rw [if_pos hq, if_neg hr] at eq
        exact absurd eq.symm (other r memr hr)
    · by_cases hr : r = p
      · rw [if_neg hq, if_pos hr] at eq
        exact absurd eq (other q memq hq)
      · rw [if_neg hq, if_neg hr] at eq
        exact h.distinct q memq r memr eq

theorem Good.append (h : Good s l) (chain : Chain s' (l ++ [s.brk]))
    (same : fields s' = store (fields s) s.brk f) (name : f.rulename.isSome = true)
    (other : ∀ q ∈ l, rulename s q ≠ f.rulename) : Good s' (l ++ [s.brk]) := by
  have new := h.chain.brk_not_mem
  have old : ∀ q ∈ l, rulename s' q = rulename s q := fun q mem => by
    have ne : q ≠ s.brk := fun eq => new (eq ▸ mem)
    unfold rulename
    rw [same, store_ne _ ne]
  have here : rulename s' s.brk = f.rulename := by
    unfold rulename
    rw [same, store_self]
    rfl
  refine { chain := chain, named := fun q mem => ?_, distinct := fun q memq r memr eq => ?_ }
  · rcases List.mem_append.mp mem with mem | mem
    · rw [old q mem]
      exact h.named q mem
    · rw [List.mem_singleton.mp mem, here]
      exact name
  · rcases List.mem_append.mp memq with memq | memq
    · rcases List.mem_append.mp memr with memr | memr
      · rw [old q memq, old r memr] at eq
        exact h.distinct q memq r memr eq
      · rw [old q memq, List.mem_singleton.mp memr, here] at eq
        exact absurd eq (other q memq)
    · rcases List.mem_append.mp memr with memr | memr
      · rw [old r memr, List.mem_singleton.mp memq, here] at eq
        exact absurd eq.symm (other r memr)
      · rw [List.mem_singleton.mp memq, List.mem_singleton.mp memr]

theorem ruleup_cases (h : Chain s l) (mem : p ∈ l) :
    ∃ s' l', ruleup s p = some s' ∧ Chain s' l' ∧ fields s' = fields s ∧
      ((∃ a q b, l = a ++ q :: p :: b ∧ l' = a ++ p :: q :: b) ∨ l.head? = some p ∧ l' = l) := by
  obtain ⟨a, b, rfl⟩ := List.append_of_mem mem
  rcases List.eq_nil_or_concat a with rfl | ⟨a, q, rfl⟩
  · exact ⟨s, _, ruleup_first h, h, rfl, Or.inr ⟨rfl, rfl⟩⟩
  · rw [List.concat_eq_append, List.append_assoc] at h ⊢
    obtain ⟨s', run, chain, same⟩ := ruleup_chain h
    exact ⟨s', _, run, chain, same, Or.inl ⟨a, q, b, rfl, rfl⟩⟩

theorem ruledown_cases (h : Chain s l) (mem : p ∈ l) :
    ∃ s' l', ruledown s p = some s' ∧ Chain s' l' ∧ fields s' = fields s ∧
      ((∃ a q b, l = a ++ p :: q :: b ∧ l' = a ++ q :: p :: b) ∨ l.getLast? = some p ∧ l' = l) := by
  obtain ⟨a, b, rfl⟩ := List.append_of_mem mem
  cases b with
  | nil => exact ⟨s, _, ruledown_last h, h, rfl, Or.inr ⟨List.getLast?_concat, rfl⟩⟩
  | cons q b =>
      obtain ⟨s', run, chain, same⟩ := ruledown_chain h
      exact ⟨s', _, run, chain, same, Or.inl ⟨a, q, b, rfl, rfl⟩⟩

theorem mem_dropLast_of_ne {q : Nat} (mem : q ∈ l) (ne : l.getLast? ≠ some q) : q ∈ l.dropLast := by
  obtain ⟨a, x, rfl⟩ := List.eq_nil_or_concat l |>.resolve_left (List.ne_nil_of_mem mem)
  rw [List.concat_eq_append, List.getLast?_concat] at ne
  rw [List.concat_eq_append, List.mem_append, List.mem_singleton] at mem
  rw [List.concat_eq_append, List.dropLast_concat]
  rcases mem with left | rfl
  · exact left
  · exact absurd rfl ne

theorem last_not_mem_dropLast {q : Nat} (nodup : l.Nodup) (last : l.getLast? = some q) :
    q ∉ l.dropLast := by
  obtain ⟨a, x, rfl⟩ := List.eq_nil_or_concat l |>.resolve_left fun nil => by simp [nil] at last
  rw [List.concat_eq_append, List.getLast?_concat, Option.some.injEq] at last
  subst last
  rw [List.concat_eq_append] at nodup ⊢
  rw [List.dropLast_concat]
  exact fun mem => (List.nodup_append.mp nodup).2.2 x mem x (by simp) rfl

theorem step_good (h : Good s l) {c : Call} {e : Option Errcode}
    (run : step mdirsep pcreCompile s c = some (e, s')) :
    Effect mdirsep pcreCompile s c e s' ∧
      (¬ Clash mdirsep pcreCompile s c → ∃ l', Good s' l') := by
  cases c with
  | appendrule a =>
      rcases appendrule_cases mdirsep pcreCompile a h with
        ⟨e', s'', run', chain, same⟩ | ⟨run', -⟩ | ⟨f, s'', run', ok, name, other, chain, same⟩
      · obtain ⟨rfl, rfl⟩ : some e' = e ∧ s'' = s' := by simpa [step, run'] using run
        exact ⟨⟨l, l, h.chain, chain, rfl, same⟩, fun _ => ⟨l, h.of_fields chain same⟩⟩
      · rw [step, run'] at run
        exact absurd run (by simp)
      · obtain ⟨rfl, rfl⟩ : none = e ∧ s'' = s' := by simpa [step, run'] using run
        have rule := newFields_rulename ok
        refine ⟨⟨l, _, h.chain, chain, f, ok, rfl, same⟩, fun _ => ⟨_, h.append chain same ?_ ?_⟩⟩
        · rwa [rule]
        · rwa [rule]
  | ruleupdate p a =>
      by_cases rule : (s.rules p).isSome = true
      · rw [step, if_pos rule] at run
        have mem := (h.chain.rule_iff p).mp rule
        rcases ruleupdate_good mdirsep pcreCompile a h mem with
          ⟨e', run', -⟩ | ⟨run', -, -⟩ | ⟨f, s'', run', good, free, ok, chain, same⟩
        · obtain ⟨rfl, rfl⟩ : some e' = e ∧ s = s' := by simpa [run'] using run
          exact ⟨⟨l, l, h.chain, h.chain, rfl, rfl⟩, fun _ => ⟨l, h⟩⟩
        · rw [run'] at run
          exact absurd run (by simp)
        · obtain ⟨rfl, rfl⟩ : none = e ∧ s'' = s' := by simpa [run'] using run
          have hname := newFields_rulename ok
          refine ⟨⟨l, l, h.chain, chain, f, ok, rfl, same⟩, fun noClash => ⟨l, ?_⟩⟩
          have name := name_of_not_bad good
          refine h.rename chain mem same (by rw [hname, name]; rfl) fun q memq ne eq => ?_
          rw [hname] at eq
          -- a rule with the name can only be the last one, which the loop does not meet
          have last : s.last = some q := by
            rw [h.chain.last]
            by_contra notLast
            exact free ⟨q, mem_dropLast_of_ne memq notLast, ne, eq.trans name⟩
          exact noClash ⟨p, a, q, f, rfl, rule, last, ne, eq, good, ok⟩
      · rw [step, if_neg rule] at run
        exact absurd run (by simp)
  | ruledel p =>
      by_cases mem : p ∈ l
      · obtain ⟨a, b, rfl⟩ := List.append_of_mem mem
        obtain ⟨s'', run', chain, same⟩ := ruledel_chain h.chain
        obtain ⟨rfl, rfl⟩ : none = e ∧ s'' = s' := by simpa [step, run'] using run
        refine ⟨⟨_, _, h.chain, chain, ⟨a, b, rfl, rfl⟩, same⟩,
          fun _ => ⟨_, h.of_subset chain ?_ ?_⟩⟩
        · intro q memq
          rcases List.mem_append.mp memq with left | right
          · exact List.mem_append_left _ left
          · exact List.mem_append_right _ (List.mem_cons_of_mem _ right)
        · intro q memq
          have ne : q ≠ p := by
            rintro rfl
            have := h.chain.nodup
            rw [List.nodup_middle, List.nodup_cons] at this
            exact this.1 memq
          unfold rulename
          rw [same, free_ne _ ne]
      · rw [← h.chain.rule_iff, Option.not_isSome_iff_eq_none] at mem
        rw [step, ruledel, mem] at run
        exact absurd run (by simp)
  | ruleup p =>
      by_cases mem : p ∈ l
      · obtain ⟨s'', l', run', chain, same, order⟩ := ruleup_cases h.chain mem
        obtain ⟨rfl, rfl⟩ : none = e ∧ s'' = s' := by simpa [step, run'] using run
        refine ⟨⟨l, l', h.chain, chain, order, same⟩, fun _ => ⟨l', h.of_fields chain same⟩⟩
      · rw [← h.chain.rule_iff, Option.not_isSome_iff_eq_none] at mem
        rw [step, ruleup, mem] at run
        exact absurd run (by simp)
  | ruledown p =>
      by_cases mem : p ∈ l
      · obtain ⟨s'', l', run', chain, same, order⟩ := ruledown_cases h.chain mem
        obtain ⟨rfl, rfl⟩ : none = e ∧ s'' = s' := by simpa [step, run'] using run
        refine ⟨⟨l, l', h.chain, chain, order, same⟩, fun _ => ⟨l', h.of_fields chain same⟩⟩
      · rw [← h.chain.rule_iff, Option.not_isSome_iff_eq_none] at mem
        rw [step, ruledown, mem] at run
        exact absurd run (by simp)

theorem step_sensible (h : Good s l) {c : Call} (sensible : Sensible s c) :
    (step mdirsep pcreCompile s c).isSome = true := by
  cases c with
  | appendrule a =>
      rcases appendrule_cases mdirsep pcreCompile a h with
        ⟨e, s', run, -⟩ | ⟨-, null⟩ | ⟨f, s', run, -⟩
      · rw [step, run, Option.isSome_some]
      · exact absurd (show a.fromhdr.isSome = true from sensible) (by simp [null])
      · rw [step, run, Option.isSome_some]
  | ruleupdate p a =>
      obtain ⟨rule, from'⟩ := sensible
      have mem := (h.chain.rule_iff p).mp rule
      rw [step, if_pos rule]
      rcases ruleupdate_good mdirsep pcreCompile a h mem with
        ⟨e, run, -⟩ | ⟨-, null, -⟩ | ⟨f, s', run, -⟩
      · rw [run, Option.isSome_some]
      · rw [null] at from'
        exact absurd from' (by simp)
      · rw [run, Option.isSome_some]
  | ruledel p =>
      obtain ⟨a, b, rfl⟩ := List.append_of_mem ((h.chain.rule_iff p).mp sensible)
      obtain ⟨s', run, -⟩ := ruledel_chain h.chain
      rw [step, run]
      rfl
  | ruleup p =>
      obtain ⟨s', l', run, -⟩ := ruleup_cases h.chain ((h.chain.rule_iff p).mp sensible)
      rw [step, run]
      rfl
  | ruledown p =>
      obtain ⟨s', l', run, -⟩ := ruledown_cases h.chain ((h.chain.rule_iff p).mp sensible)
      rw [step, run]
      rfl

/-- The update goes through, and two rules have one name. -/
theorem step_clash (h : Good s l) {c : Call} (clash : Clash mdirsep pcreCompile s c) :
    ∃ s', step mdirsep pcreCompile s c = some (none, s') ∧ ¬ DistinctNames s' := by
  obtain ⟨p, a, q, f, rfl, rule, last, ne, eq, good, ok⟩ := clash
  have mem := (h.chain.rule_iff p).mp rule
  have memq : q ∈ l := by
    rw [h.chain.last] at last
    exact List.mem_of_getLast? last
  rw [step, if_pos rule]
  rcases ruleupdate_good mdirsep pcreCompile a h mem with
    ⟨e, -, bad | ⟨r, memr, -, taken⟩ | no⟩ | ⟨-, -, none⟩ | ⟨f', s', run, -, -, ok', chain, same⟩
  · rw [good] at bad
    exact absurd bad (by simp)
  · -- the last rule is not among those the loop meets
    rw [name_of_not_bad good, ← taken] at eq
    have same := h.distinct q memq r (List.mem_of_mem_dropLast memr) (by rw [eq])
    rw [h.chain.last] at last
    exact absurd (same ▸ memr) (last_not_mem_dropLast h.chain.nodup last)
  · exact absurd ok (no f)
  · rw [ok] at none
    exact absurd none (by simp)
  · refine ⟨s', run, fun distinct => ne ?_⟩
    have name := newFields_rulename ok'
    refine chain.distinctNames_iff.mp distinct q memq p mem ?_
    rw [rulename_modify h.chain mem same, rulename_modify h.chain mem same, if_neg ne, if_pos rfl,
      name, eq]

end Step

/-! ## Sequences of calls -/

section Runs
variable {mdirsep : UInt8} {pcreCompile : List UInt8 → Bool}

theorem keeps_iff_of_good {s : Filter} {l : List Nat} (h : Good s l) (calls : List Call) :
    Keeps mdirsep pcreCompile s calls ↔ NoClash mdirsep pcreCompile s calls := by
  induction calls generalizing s l with
  | nil => exact iff_of_true ⟨⟨l, h.chain⟩, h.distinctNames⟩ trivial
  | cons c calls ih =>
      constructor
      · rintro ⟨-, -, after⟩
        have noClash : ¬ Clash mdirsep pcreCompile s c := by
          intro clash
          obtain ⟨s', run, collide⟩ := step_clash h clash
          have later := (after none s' run).2
          cases calls with
          | nil => exact collide later.2
          | cons d calls => exact collide later.1.2
        refine ⟨noClash, fun e s' run => ?_⟩
        obtain ⟨l', good⟩ := (step_good h run).2 noClash
        exact (ih good).mp (after e s' run).2
      · rintro ⟨noClash, after⟩
        refine ⟨⟨⟨l, h.chain⟩, h.distinctNames⟩, step_sensible h, fun e s' run => ?_⟩
        obtain ⟨effect, kept⟩ := step_good h run
        obtain ⟨l', good⟩ := kept noClash
        exact ⟨effect, (ih good).mpr (after e s' run)⟩

theorem keeps_iff (mdirsep : UInt8) (pcreCompile : List UInt8 → Bool) (calls : List Call) :
    Keeps mdirsep pcreCompile nulled calls ↔ NoClash mdirsep pcreCompile nulled calls :=
  keeps_iff_of_good good_nulled calls

def exitRule (name : String) : RuleArgs where
  name := some (str name)
  type := .anymessage
  flags := 0
  header := none
  value := none
  folder := some (str "exit")
  fromhdr := some []

/-- The first of two rules gets the name of the second one. -/
theorem update_collides : ¬ Keeps (byte ':') (fun _ => true) nulled
    [.appendrule (exitRule "a"), .appendrule (exitRule "b"), .ruleupdate 0 (exitRule "b")] := by
  intro keeps
  have first := (keeps.2.2 none _ rfl).2
  have second := (first.2.2 none _ rfl).2
  have third := (second.2.2 none _ rfl).2
  exact absurd (third.2 0 1 rfl rfl rfl) (by decide)

end Runs

end Cone.Maildirfilter
