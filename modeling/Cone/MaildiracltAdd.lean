import Cone.MaildiracltReread

/-! # A failed call of `maildir_aclt_list_add`

The rights of an entry are freed before the new ones are looked at.  If these are refused the
entry stays without any. -/
set_option autoImplicit false
namespace Cone.MaildiracltAdd

open Cone.Ctype Cone.Maildiraclt Cone.MaildiracltRights Cone.MaildiracltReread

structure Holds (list list' : List Node) (identifier : List UInt8) (acl : Aclt) : Prop where
  entry : list'.filter (fun p => p.identifier = identifier) = [⟨identifier, acl⟩]
  others : list'.filter (fun p => p.identifier ≠ identifier) =
    list.filter fun p => p.identifier ≠ identifier
  order : list'.map Node.identifier = if identifier ∈ list.map Node.identifier then
    list.map Node.identifier else list.map Node.identifier ++ [identifier]

structure Promise (list : List Node) (identifier : List UInt8) (acltStr : Option (List UInt8)) :
    Prop where
  codes : (listAdd list identifier acltStr).1 = 0 ∨ (listAdd list identifier acltStr).1 = -1
  refused : (listAdd list identifier acltStr).1 = -1 → (listAdd list identifier acltStr).2 = list
  stored : (listAdd list identifier acltStr).1 = 0 →
    Holds list (listAdd list identifier acltStr).2 identifier (acltInit acltStr).2

/-- The call takes away the rights of an entry: it has some, and the new ones are refused. -/
def Destroys (list : List Node) (identifier : List UInt8) (acltStr : Option (List UInt8)) : Prop :=
  (∃ p ∈ list, p.identifier = identifier ∧ p.acl ≠ none) ∧
    ∃ rights ∈ acltStr, ∃ c ∈ rights, c ≤ SP

section Add
variable {list : List Node} {identifier : List UInt8} {acltStr : Option (List UInt8)}

theorem acltInit_code : ((acltInit acltStr).1 = 0 ∧ ∀ rights ∈ acltStr, ∀ c ∈ rights, SP < c) ∨
    (acltInit acltStr = (-1, none) ∧ ∃ rights ∈ acltStr, ∃ c ∈ rights, c ≤ SP) := by
  cases acltStr with
  | none => exact Or.inl ⟨rfl, by simp⟩
  | some rights =>
      cases rights with
      | nil => exact Or.inl ⟨rfl, by simp⟩
      | cons c p =>
          rw [acltInit]
          by_cases valid : validacl (c :: p) = true
          · rw [if_pos valid]
            refine Or.inl ⟨rfl, fun rights hr => ?_⟩
            obtain rfl := Option.some.inj hr
            exact (validacl_iff _).mp valid
          · rw [if_neg valid]
            refine Or.inr ⟨rfl, c :: p, rfl, ?_⟩
            rw [validacl_iff] at valid
            push Not at valid
            obtain ⟨d, hd, le⟩ := valid
            exact ⟨d, hd, UInt8.not_lt.mp le⟩

theorem filter_notMem (new : identifier ∉ list.map Node.identifier) :
    list.filter (fun p => p.identifier = identifier) = [] := by
  rw [List.filter_eq_nil_iff]
  intro p hp same
  exact new (by simpa using ⟨p, hp, by simpa using same⟩)

theorem others_setAcl (acl : Aclt) (list : List Node) :
    (mapAcl (setAcl identifier acl) list).filter (fun p => p.identifier ≠ identifier) =
      list.filter fun p => p.identifier ≠ identifier := by
  induction list with
  | nil => rfl
  | cons p list ih =>
      rw [mapAcl, List.map_cons, ← mapAcl]
      by_cases same : p.identifier = identifier
      · rw [List.filter_cons_of_neg (by simpa using same),
          List.filter_cons_of_neg (by simpa using same), ih]
      · rw [List.filter_cons_of_pos (by simpa using same),
          List.filter_cons_of_pos (by simpa using same), ih, setAcl, if_neg same]

theorem entry_setAcl (acl : Aclt) (mem : identifier ∈ list.map Node.identifier)
    (distinct : (list.map Node.identifier).Nodup) :
    (mapAcl (setAcl identifier acl) list).filter (fun p => p.identifier = identifier) =
      [⟨identifier, acl⟩] := by
  induction list with
  | nil => simp at mem
  | cons p list ih =>
      obtain ⟨notMem, tail⟩ := List.nodup_cons.mp distinct
      rw [mapAcl, List.map_cons, ← mapAcl]
      by_cases same : p.identifier = identifier
      · subst same
        rw [List.filter_cons_of_pos (by simp), setAcl_notMem notMem, filter_notMem notMem, setAcl,
          if_pos rfl]
      · have later : identifier ∈ list.map Node.identifier :=
          (List.mem_cons.mp mem).resolve_left (Ne.symm same)
        rw [List.filter_cons_of_neg (by simpa using same), ih later tail]

theorem holds_setAcl (acl : Aclt) (mem : identifier ∈ list.map Node.identifier)
    (distinct : (list.map Node.identifier).Nodup) :
    Holds list (mapAcl (setAcl identifier acl) list) identifier acl where
  entry := entry_setAcl acl mem distinct
  others := others_setAcl acl list
  order := by rw [if_pos mem, mapAcl_identifiers]

theorem holds_append (acl : Aclt) (new : identifier ∉ list.map Node.identifier) :
    Holds list (list ++ [⟨identifier, acl⟩]) identifier acl where
  entry := by simp [List.filter_append, filter_notMem new]
  others := by simp [List.filter_append]
  order := by rw [if_neg new, List.map_append, List.map_singleton]

/-- The rights of one entry are all that a failed call can change. -/
theorem mapAcl_eq_iff :
    mapAcl (setAcl identifier none) list = list ↔
      ¬ ∃ p ∈ list, p.identifier = identifier ∧ p.acl ≠ none := by
  constructor
  · intro same ⟨p, hp, name, rights⟩
    rw [← same] at hp
    obtain ⟨q, -, rfl⟩ := List.mem_map.mp hp
    exact rights (if_pos name)
  · intro none'
    refine mapAcl_self fun p hp => ?_
    rw [setAcl]
    by_cases name : p.identifier = identifier
    · rw [if_pos name]
      by_contra rights
      exact none' ⟨p, hp, name, Ne.symm rights⟩
    · rw [if_neg name]

/-- A call keeps its promise if and only if it does not destroy the rights of an entry. -/
theorem promise_iff (reached : ListReached list) :
    Promise list identifier acltStr ↔ ¬ Destroys list identifier acltStr := by
  have ok := reached.ok
  by_cases valid : ValidIdentifier identifier
  · have add := listAdd_valid valid list acltStr
    by_cases mem : identifier ∈ list.map Node.identifier
    · have store := listStore_mem mem ok.distinct acltStr
      have result := add.trans store
      rcases @acltInit_code acltStr with ⟨code, fine⟩ | ⟨code, bad⟩
      · have kept : ¬ Destroys list identifier acltStr := by
          intro ⟨_, rights, hr, c, hc, le⟩
          exact absurd (fine rights hr c hc) (UInt8.not_lt.mpr le)
        refine iff_of_true ⟨?_, ?_, ?_⟩ kept
        · rw [result]
          exact Or.inl code
        · rw [result]
          intro failed
          rw [code] at failed
          cases failed
        · rw [result]
          intro _
          exact holds_setAcl _ mem ok.distinct
      · rw [code] at result
        constructor
        · intro promise ⟨entry, _⟩
          have same := promise.refused (by rw [result])
          rw [result] at same
          exact mapAcl_eq_iff.mp same entry
        · intro kept
          refine ⟨?_, ?_, ?_⟩
          · rw [result]
            exact Or.inr rfl
          · rw [result]
            intro _
            exact mapAcl_eq_iff.mpr fun entry => kept ⟨entry, bad⟩
          · rw [result]
            intro stored
            cases stored
    · have store := listStore_notMem mem acltStr
      have result := add.trans store
      have kept : ¬ Destroys list identifier acltStr := by
        intro ⟨⟨p, hp, name, _⟩, _⟩
        exact mem (name ▸ List.mem_map_of_mem hp)
      refine iff_of_true ?_ kept
      rcases @acltInit_code acltStr with ⟨code, -⟩ | ⟨code, -⟩
      · rw [code, if_neg (by decide)] at result
        refine ⟨?_, ?_, ?_⟩
        · rw [result]
          exact Or.inl rfl
        · rw [result]
          intro failed
          cases failed
        · rw [result]
          intro _
          exact holds_append _ mem
      · rw [code, if_pos (by decide)] at result
        refine ⟨?_, ?_, ?_⟩
        · rw [result]
          exact Or.inr rfl
        · rw [result]
          intro _
          rfl
        · rw [result]
          intro stored
          cases stored
  · have result : listAdd list identifier acltStr = (-1, list) := by
      rw [listAdd]
      by_cases refused : validacl identifier = false
      · rw [if_pos refused]
      · rw [if_neg refused]
        by_cases empty : identifier = []
        · rw [if_pos empty]
        · exact absurd ⟨empty, (validacl_iff _).mp (by simpa using refused)⟩ valid
    have kept : ¬ Destroys list identifier acltStr := by
      intro ⟨⟨p, hp, name, _⟩, _⟩
      exact valid (name ▸ ok.identifiers p hp)
    refine iff_of_true ⟨?_, ?_, ?_⟩ kept
    · rw [result]
      exact Or.inr rfl
    · rw [result]
      intro _
      rfl
    · rw [result]
      intro stored
      cases stored

end Add

theorem promise_sample : Promise [⟨anyone, some [aclLookup]⟩] owner (some [SP]) :=
  (promise_iff (.add anyone (some [aclLookup]) .init)).mpr (by
    intro ⟨⟨p, hp, name, _⟩, _⟩
    obtain rfl : p = ⟨anyone, some [aclLookup]⟩ := List.mem_singleton.mp hp
    exact absurd name (by decide))

/-- Rights with a blank for somebody who can look up take that away. -/
theorem blank_destroys :
    ¬ ∀ (list : List Node) (identifier : List UInt8) (acltStr : Option (List UInt8)),
      ListReached list → Promise list identifier acltStr := by
  intro all
  have promise := all _ anyone (some [SP]) (.add anyone (some [aclLookup]) .init)
  exact absurd (promise.refused (by decide)) (by decide)

end Cone.MaildiracltAdd
