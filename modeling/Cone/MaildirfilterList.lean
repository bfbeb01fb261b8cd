import Cone.Maildirfilter

/-! # What the calls do to the list of rules

`Chain s l`: the rules of `s` are those of `l`, linked in this order in both directions. -/
set_option autoImplicit false
namespace Cone.Maildirfilter
open Cone.Lib.LinkedList

/-! ## Links and contents -/

section View
variable (s : Filter)

def links (p : Nat) : Option (Option Nat × Option Nat) := (s.rules p).map fun c => (c.next, c.prev)

def fields (p : Nat) : Option Fields := (s.rules p).map fun c => c.toFields

def ends : Option Nat × Option Nat := (s.first, s.last)

def rulename (p : Nat) : Option (List UInt8) := (fields s p).bind fun f => f.rulename

theorem links_isSome (p : Nat) : (links s p).isSome = (s.rules p).isSome := Option.isSome_map

theorem fields_isSome (p : Nat) : (fields s p).isSome = (s.rules p).isSome := Option.isSome_map

theorem links_setNext (p next : Option Nat) :
    links (setNext s p next) = modifyAt (links s) p fun r => (next, r.2) := by
  cases p with
  | none => rfl
  | some p =>
      exact modify_view (f := fun c => { c with next := next }) (g := fun r => (next, r.2)) s.rules p
        fun _ => rfl

theorem links_setPrev (p prev : Option Nat) :
    links (setPrev s p prev) = modifyAt (links s) p fun r => (r.1, prev) := by
  cases p with
  | none => rfl
  | some p =>
      exact modify_view (f := fun c => { c with prev := prev }) (g := fun r => (r.1, prev)) s.rules p
        fun _ => rfl

theorem links_setNextOrFirst (p next : Option Nat) :
    links (setNextOrFirst s p next) = modifyAt (links s) p fun r => (next, r.2) := by
  cases p with
  | none => rfl
  | some p => exact links_setNext s (some p) next

theorem links_setPrevOrLast (p prev : Option Nat) :
    links (setPrevOrLast s p prev) = modifyAt (links s) p fun r => (r.1, prev) := by
  cases p with
  | none => rfl
  | some p => exact links_setPrev s (some p) prev

theorem fields_setNext (p next : Option Nat) : fields (setNext s p next) = fields s := by
  funext q
  cases p with
  | none => rfl
  | some p => exact modify_frame (f := fun c => { c with next := next }) s.rules p (fun _ => rfl) q

theorem fields_setPrev (p prev : Option Nat) : fields (setPrev s p prev) = fields s := by
  funext q
  cases p with
  | none => rfl
  | some p => exact modify_frame (f := fun c => { c with prev := prev }) s.rules p (fun _ => rfl) q

theorem fields_setNextOrFirst (p next : Option Nat) :
    fields (setNextOrFirst s p next) = fields s := by
  cases p with
  | none => rfl
  | some p => exact fields_setNext s (some p) next

theorem fields_setPrevOrLast (p prev : Option Nat) :
    fields (setPrevOrLast s p prev) = fields s := by
  cases p with
  | none => rfl
  | some p => exact fields_setPrev s (some p) prev

theorem ends_setNextOrFirst (p next : Option Nat) :
    ends (setNextOrFirst s p next) = (p.elim next fun _ => (ends s).1, (ends s).2) := by
  cases p <;> rfl

theorem ends_setPrevOrLast (p prev : Option Nat) :
    ends (setPrevOrLast s p prev) = ((ends s).1, p.elim prev fun _ => (ends s).2) := by
  cases p <;> rfl

@[simp] theorem brk_setNextOrFirst (p next : Option Nat) : (setNextOrFirst s p next).brk = s.brk := by
  cases p <;> rfl

@[simp] theorem brk_setPrevOrLast (p prev : Option Nat) : (setPrevOrLast s p prev).brk = s.brk := by
  cases p <;> rfl

@[simp] theorem brk_setNext (p next : Option Nat) : (setNext s p next).brk = s.brk := rfl

@[simp] theorem brk_setPrev (p prev : Option Nat) : (setPrev s p prev).brk = s.brk := rfl

theorem ends_setNext (p next : Option Nat) : ends (setNext s p next) = ends s := rfl

theorem ends_setPrev (p prev : Option Nat) : ends (setPrev s p prev) = ends s := rfl

end View

/-! ## One consistent list -/

structure Chain (s : Filter) (l : List Nat) : Prop where
  nodup : l.Nodup
  seg : Seg (links s) none none l
  ends : ends s = (l.head?, l.getLast?)
  rule_iff : ∀ p, (s.rules p).isSome = true ↔ p ∈ l
  bound : ∀ p ∈ l, p < s.brk

theorem chain_nulled : Chain nulled [] where
  nodup := List.nodup_nil
  seg := trivial
  ends := rfl
  rule_iff := by simp [nulled]
  bound := by simp

section Chain
variable {s s' : Filter} {l a b : List Nat} {p q : Nat}

theorem Chain.first (h : Chain s l) : s.first = l.head? := congrArg Prod.fst h.ends

theorem Chain.last (h : Chain s l) : s.last = l.getLast? := congrArg Prod.snd h.ends

theorem Chain.fields_isSome_iff (h : Chain s l) (p : Nat) : (fields s p).isSome = true ↔ p ∈ l := by
  rw [fields_isSome]
  exact h.rule_iff p

theorem Chain.rule_mid (h : Chain s (a ++ p :: b)) :
    ∃ c, s.rules p = some c ∧ c.next = b.head? ∧ c.prev = a.getLast? := by
  have mid := h.seg.links_mid
  rw [Option.or_none, Option.or_none, links, Option.map_eq_some_iff] at mid
  obtain ⟨c, rule, eq⟩ := mid
  exact ⟨c, rule, congrArg Prod.fst eq, congrArg Prod.snd eq⟩

theorem Chain.of_links (h : Chain s l) (hlinks : links s' = links s)
    (hends : Maildirfilter.ends s' = Maildirfilter.ends s) (hbrk : s'.brk = s.brk) :
    Chain s' l where
  nodup := h.nodup
  seg := hlinks ▸ h.seg
  ends := hends.trans h.ends
  rule_iff := fun p => by
    rw [← links_isSome, hlinks, links_isSome]
    exact h.rule_iff p
  bound := hbrk ▸ h.bound

end Chain

/-! ## Append and delete -/

section Append
variable {s : Filter} {l : List Nat}

/-- What `memset` leaves in a new rule. -/
def emptyFields : Fields where
  rulename := none
  type := .startswith
  flags := 0
  fieldname := none
  fieldvalue := none
  tofolder := none
  fromhdr := none

theorem Chain.brk_not_mem (h : Chain s l) : s.brk ∉ l := fun mem =>
  Nat.lt_irrefl _ (h.bound _ mem)

theorem fields_linkNew (s : Filter) :
    fields (linkNew s).2 = store (fields s) s.brk emptyFields := by
  have linked := fields_setNextOrFirst
    { s with
      rules := store s.rules s.brk { emptyFields with next := none, prev := s.last }
      brk := s.brk + 1 } s.last (some s.brk)
  have stored := map_store s.rules s.brk { emptyFields with next := none, prev := s.last }
    fun c => c.toFields
  exact linked.trans stored

theorem links_linkNew (s : Filter) :
    links (linkNew s).2 =
      modifyAt (store (links s) s.brk (none, s.last)) s.last fun r => (some s.brk, r.2) := by
  have linked := links_setNextOrFirst
    { s with
      rules := store s.rules s.brk { emptyFields with next := none, prev := s.last }
      brk := s.brk + 1 } s.last (some s.brk)
  have stored := map_store s.rules s.brk { emptyFields with next := none, prev := s.last }
    fun c => (c.next, c.prev)
  exact linked.trans (congrArg (fun g => modifyAt g s.last fun r => (some s.brk, r.2)) stored)

theorem ends_linkNew (s : Filter) :
    ends (linkNew s).2 = (s.last.elim (some s.brk) fun _ => s.first, some s.brk) := by
  unfold linkNew ends
  cases s.last <;> rfl

theorem brk_linkNew (s : Filter) : (linkNew s).2.brk = s.brk + 1 := by
  unfold linkNew
  cases s.last <;> rfl

theorem linkNew_chain (h : Chain s l) : Chain (linkNew s).2 (l ++ [s.brk]) := by
  have new := h.brk_not_mem
  have spliced : links (linkNew s).2 = splice (links s) l.getLast? none s.brk := by
    have last : l.getLast? ≠ some s.brk := fun eq => new (List.mem_of_getLast? eq)
    rw [links_linkNew, h.last, ← modifyAt_store_eq_splice last (by simp) (by simp)]
    rfl
  refine
    { nodup := ?_
      seg := ?_
      ends := ?_
      rule_iff := fun p => ?_
      bound := fun p mem => ?_ }
  · rw [List.nodup_append_comm, List.singleton_append, List.nodup_cons]
    exact ⟨new, h.nodup⟩
  · have seg := Seg.splice (m := []) (x := s.brk) (by simpa using h.seg) (by simpa using h.nodup)
      (by simpa using new)
    rw [spliced]
    exact seg
  · have append := spliceEnds_append l [] s.brk
    rw [List.append_nil] at append
    rw [← append, ends_linkNew, h.first, h.last]
    rfl
  · rw [← fields_isSome, fields_linkNew, store, List.mem_append, List.mem_singleton]
    by_cases eq : p = s.brk
    · simp [eq]
    · rw [if_neg eq, h.fields_isSome_iff]
      simp [eq]
  · rw [brk_linkNew]
    rcases List.mem_append.mp mem with old | here
    · have := h.bound p old
      omega
    · obtain rfl := List.mem_singleton.mp here
      omega

end Append

section Delete
variable {s : Filter} {a b : List Nat} {p : Nat}

theorem ruledel_chain (h : Chain s (a ++ p :: b)) :
    ∃ s', ruledel s p = some s' ∧ Chain s' (a ++ b) ∧ fields s' = free (fields s) p := by
  obtain ⟨c, rule, next, prev⟩ := h.rule_mid
  have nodup : (a ++ b).Nodup := h.nodup.sublist (by simp)
  have notMem : p ∉ a ++ b := by
    have := h.nodup
    rw [List.nodup_middle, List.nodup_cons] at this
    exact this.1
  obtain ⟨s₂, eq⟩ : ∃ s₂, s₂ = setPrevOrLast (setNextOrFirst s c.prev c.next) c.next c.prev := ⟨_, rfl⟩
  have hlinks : links s₂ = cut (links s) a.getLast? b.head? := by
    rw [eq, links_setPrevOrLast, links_setNextOrFirst, next, prev]
    exact modifyAt_eq_cut' fun q => ends_disjoint nodup
  have hfields : fields s₂ = fields s := by
    rw [eq, fields_setPrevOrLast, fields_setNextOrFirst]
  have hfree : fields { s₂ with rules := free s₂.rules p } = free (fields s) p := by
    rw [← hfields]
    exact map_free s₂.rules p fun c => c.toFields
  refine ⟨{ s₂ with rules := free s₂.rules p }, ?_, ?_, hfree⟩
  · unfold ruledel
    rw [rule, eq]
  · refine
      { nodup := nodup
        seg := ?_
        ends := ?_
        rule_iff := fun q => ?_
        bound := fun q mem => ?_ }
    · have seg := h.seg.cut h.nodup
      refine seg.congr fun q mem => ?_
      have ne : q ≠ p := fun eq => notMem (eq ▸ mem)
      rw [← hlinks]
      exact congrArg (Option.map _) (free_ne s₂.rules ne)
    · rw [← cutEnds_append a b p, ← h.ends]
      show ends s₂ = _
      rw [eq, ends_setPrevOrLast, next, prev]
      unfold cutEnds
      cases a.getLast? <;> rfl
    · rw [← fields_isSome, hfree, free]
      have mem := h.fields_isSome_iff q
      by_cases here : q = p
      · subst here
        rw [if_pos rfl]
        exact iff_of_false (by simp) notMem
      · rw [if_neg here, mem]
        simp [here]
    · have : s₂.brk = s.brk := by rw [eq, brk_setPrevOrLast, brk_setNextOrFirst]
      show q < s₂.brk
      rw [this]
      refine h.bound q ?_
      rcases List.mem_append.mp mem with left | right
      · exact List.mem_append_left _ left
      · exact List.mem_append_right _ (List.mem_cons_of_mem _ right)

end Delete

/-! ## Up and down -/

section Exchange
variable {s s' : Filter} {a b : List Nat} {p q : Nat}

theorem Chain.exchanged (h : Chain s (a ++ q :: p :: b))
    (hlinks : links s' = exchange (links s) a.getLast? b.head? p q)
    (hends : Maildirfilter.ends s' = exchangeEnds a.getLast? b.head? p q (Maildirfilter.ends s))
    (hfields : fields s' = fields s) (hbrk : s'.brk = s.brk) : Chain s' (a ++ p :: q :: b) := by
  have perm : (a ++ q :: p :: b).Perm (a ++ p :: q :: b) :=
    List.Perm.append_left a (List.Perm.swap p q b)
  refine
    { nodup := perm.nodup_iff.mp h.nodup
      seg := ?_
      ends := ?_
      rule_iff := fun r => ?_
      bound := fun r mem => ?_ }
  · rw [hlinks]
    exact h.seg.exchange h.nodup
  · rw [hends, h.ends]
    exact exchangeEnds_append a b p q
  · rw [← fields_isSome, hfields, h.fields_isSome_iff]
    exact perm.mem_iff
  · rw [hbrk]
    exact h.bound r (perm.mem_iff.mpr mem)

/-- Two neighbours, and the rules before and behind them, are four different rules. -/
theorem Chain.apart (h : Chain s (a ++ q :: p :: b)) :
    p ≠ q ∧ (a.getLast? ≠ some p ∧ a.getLast? ≠ some q) ∧ (b.head? ≠ some p ∧ b.head? ≠ some q) ∧
      ∀ r, a.getLast? = some r → b.head? ≠ some r := by
  have nodup := h.nodup
  simp only [List.nodup_append, List.nodup_cons, List.mem_cons, not_or] at nodup
  obtain ⟨-, ⟨⟨ne, notq⟩, notp, -⟩, disjoint⟩ := nodup
  refine ⟨fun eq => ne eq.symm, ⟨fun eq => ?_, fun eq => ?_⟩, ⟨fun eq => ?_, fun eq => ?_⟩,
    fun r eq eq' => ?_⟩
  · exact disjoint p (List.mem_of_getLast? eq) p (by simp) rfl
  · exact disjoint q (List.mem_of_getLast? eq) q (by simp) rfl
  · exact notp (List.mem_of_mem_head? eq)
  · exact notq (List.mem_of_mem_head? eq)
  · exact disjoint r (List.mem_of_getLast? eq) r (by simp [List.mem_of_mem_head? eq']) rfl

theorem ruleup_chain (h : Chain s (a ++ q :: p :: b)) :
    ∃ s', ruleup s p = some s' ∧ Chain s' (a ++ p :: q :: b) ∧ fields s' = fields s := by
  obtain ⟨hpq, hbefore, hafter, hne⟩ := h.apart
  obtain ⟨d, ruleq, -, prevq⟩ := h.rule_mid
  have h' : Chain s ((a ++ [q]) ++ p :: b) := by simpa using h
  obtain ⟨c, rulep, next, prev⟩ := h'.rule_mid
  rw [List.getLast?_concat] at prev
  have someq : (links s q).isSome = true := by rw [links_isSome, ruleq, Option.isSome_some]
  have somep : (links s p).isSome = true := by rw [links_isSome, rulep, Option.isSome_some]
  obtain ⟨s', eq⟩ : ∃ s', s' = setPrev (setNext (setNextOrFirst (setPrev (setPrevOrLast (setNext s
      (some q) c.next) c.next (some q)) (some p) d.prev) d.prev (some p)) (some p) (some q))
      (some q) (some p) := ⟨_, rfl⟩
  have hfields : fields s' = fields s := by
    rw [eq, fields_setPrev, fields_setNext, fields_setNextOrFirst, fields_setPrev,
      fields_setPrevOrLast, fields_setNext]
  have hlinks : links s' = exchange (links s) a.getLast? b.head? p q := by
    rw [eq, links_setPrev, links_setNext, links_setNextOrFirst, links_setPrev,
      links_setPrevOrLast, links_setNext, next, prevq]
    exact modify_eq_exchange_up somep someq hpq hbefore hafter hne
  have hends : ends s' = exchangeEnds a.getLast? b.head? p q (ends s) := by
    rw [eq, ends_setPrev, ends_setNext, ends_setNextOrFirst, ends_setPrev, ends_setPrevOrLast,
      ends_setNext, next, prevq]
    rfl
  refine ⟨s', ?_, h.exchanged hlinks hends hfields (by simp [eq]), hfields⟩
  unfold ruleup
  rw [rulep]
  simp only [prev, ruleq]
  rw [eq]

theorem ruledown_chain (h : Chain s (a ++ p :: q :: b)) :
    ∃ s', ruledown s p = some s' ∧ Chain s' (a ++ q :: p :: b) ∧ fields s' = fields s := by
  obtain ⟨hqp, hbefore, hafter, hne⟩ := h.apart
  obtain ⟨c, rulep, next, prev⟩ := h.rule_mid
  have h' : Chain s ((a ++ [p]) ++ q :: b) := by simpa using h
  obtain ⟨d, ruleq, nextq, -⟩ := h'.rule_mid
  rw [List.head?_cons] at next
  have someq : (links s q).isSome = true := by rw [links_isSome, ruleq, Option.isSome_some]
  have somep : (links s p).isSome = true := by rw [links_isSome, rulep, Option.isSome_some]
  obtain ⟨s', eq⟩ : ∃ s', s' = setNext (setPrev (setPrevOrLast (setNext (setNextOrFirst (setPrev s
      (some q) c.prev) c.prev (some q)) (some p) d.next) d.next (some p)) (some p) (some q))
      (some q) (some p) := ⟨_, rfl⟩
  have hfields : fields s' = fields s := by
    rw [eq, fields_setNext, fields_setPrev, fields_setPrevOrLast, fields_setNext,
      fields_setNextOrFirst, fields_setPrev]
  have hlinks : links s' = exchange (links s) a.getLast? b.head? q p := by
    rw [eq, links_setNext, links_setPrev, links_setPrevOrLast, links_setNext,
      links_setNextOrFirst, links_setPrev, nextq, prev]
    exact modify_eq_exchange_down someq somep hqp hbefore hafter hne
  have hends : ends s' = exchangeEnds a.getLast? b.head? q p (ends s) := by
    rw [eq, ends_setNext, ends_setPrev, ends_setPrevOrLast, ends_setNext, ends_setNextOrFirst,
      ends_setPrev, nextq, prev]
    rfl
  refine ⟨s', ?_, h.exchanged hlinks hends hfields (by simp [eq]), hfields⟩
  unfold ruledown
  rw [rulep]
  simp only [next, ruleq]
  rw [eq]

theorem ruleup_first (h : Chain s (p :: b)) : ruleup s p = some s := by
  obtain ⟨c, rule, -, prev⟩ := Chain.rule_mid (a := []) h
  unfold ruleup
  rw [rule]
  simp only [prev, List.getLast?_nil]

theorem ruledown_last (h : Chain s (a ++ [p])) : ruledown s p = some s := by
  obtain ⟨c, rule, next, -⟩ := h.rule_mid
  unfold ruledown
  rw [rule]
  simp only [next, List.head?_nil]

end Exchange

end Cone.Maildirfilter
