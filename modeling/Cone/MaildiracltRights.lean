import Cone.Maildiraclt

/-! # What a rights string is, and which rights are computed -/
set_option autoImplicit false
namespace Cone.MaildiracltRights

open Cone.Ctype Cone.Maildiraclt

/-! ## The strings -/

/-- Rights in collating order, each once, and a null pointer for no rights. -/
structure Canonical (aclt : Aclt) : Prop where
  sorted : (ascstr aclt).Pairwise (· < ·)
  valid : ∀ c ∈ ascstr aclt, SP < c
  null : aclt = none ↔ ascstr aclt = []

/-- The values that the functions of a `maildir_aclt` leave behind. -/
inductive Reached : Aclt → Prop where
  | init (initvalue : Option (List UInt8)) : Reached (acltInit initvalue).2
  | add {aclt : Aclt} (addStrs : Option (List UInt8)) (h : Reached aclt) :
      Reached (acltAdd aclt addStrs).2
  | del {aclt : Aclt} (delStrs : Option (List UInt8)) (h : Reached aclt) :
      Reached (acltDel aclt delStrs)

theorem collate_mem (aclt : List UInt8) (c : UInt8) : c ∈ collate aclt ↔ c ∈ aclt ∧ SP < c := by
  induction aclt using collate.induct with
  | case1 => simp [collate]
  | case2 a ha =>
      rw [collate, if_pos ha]
      simp only [List.not_mem_nil, List.mem_singleton, false_iff, not_and]
      rintro rfl
      exact UInt8.not_lt.mpr ha
  | case3 a ha =>
      rw [collate, if_neg ha, List.mem_singleton]
      constructor
      · rintro rfl
        exact ⟨rfl, UInt8.not_le.mp ha⟩
      · exact And.left
  | case4 b aclt ih =>
      rw [collate, if_pos rfl, ih]
      simp
  | case5 a b aclt hne ha ih =>
      rw [collate, if_neg hne, if_pos ha, ih, List.mem_cons (a := c) (b := a)]
      constructor
      · exact fun h => ⟨.inr h.1, h.2⟩
      · rintro ⟨rfl | hc, hsp⟩
        · exact absurd ha (UInt8.not_le.mpr hsp)
        · exact ⟨hc, hsp⟩
  | case6 a b aclt hne ha ih =>
      rw [collate, if_neg hne, if_neg ha, List.mem_cons, ih, List.mem_cons (a := c) (b := a)]
      constructor
      · rintro (rfl | h)
        · exact ⟨.inl rfl, UInt8.not_le.mp ha⟩
        · exact ⟨.inr h.1, h.2⟩
      · rintro ⟨rfl | hc, hsp⟩
        · exact .inl rfl
        · exact .inr ⟨hc, hsp⟩

theorem collate_sorted (aclt : List UInt8) (h : aclt.Pairwise (· ≤ ·)) :
    (collate aclt).Pairwise (· < ·) := by
  induction aclt using collate.induct with
  | case1 => exact List.Pairwise.nil
  | case2 a ha => rw [collate, if_pos ha]; exact List.Pairwise.nil
  | case3 a ha => rw [collate, if_neg ha]; exact List.pairwise_singleton _ _
  | case4 b aclt ih => rw [collate, if_pos rfl]; exact ih h.of_cons
  | case5 a b aclt hne ha ih => rw [collate, if_neg hne, if_pos ha]; exact ih h.of_cons
  | case6 a b aclt hne ha ih =>
      rw [collate, if_neg hne, if_neg ha]
      refine List.pairwise_cons.mpr ⟨fun c hc => ?_, ih h.of_cons⟩
      -- the next byte is greater than `a`, and nothing behind it is less
      obtain ⟨hle, htail⟩ := List.pairwise_cons.mp h
      have hab : a < b := UInt8.lt_of_le_of_ne (hle b (by simp)) hne
      rcases List.mem_cons.mp ((collate_mem _ _).mp hc).1 with rfl | hmem
      · exact hab
      · exact UInt8.lt_of_lt_of_le hab ((List.pairwise_cons.mp htail).1 c hmem)

theorem fixup_mem (aclt : List UInt8) (c : UInt8) : c ∈ fixup aclt ↔ c ∈ aclt ∧ SP < c := by
  rw [fixup, collate_mem, List.mem_insertionSort]

theorem fixup_canonical {aclt : List UInt8} (hne : aclt ≠ []) (hvalid : ∀ c ∈ aclt, SP < c) :
    Canonical (some (fixup aclt)) := by
  refine ⟨collate_sorted _ (List.pairwise_insertionSort _ _), fun c hc => ?_, ?_⟩
  · exact ((fixup_mem aclt c).mp hc).2
  · obtain ⟨c, hc⟩ := List.exists_mem_of_ne_nil _ hne
    have hmem := (fixup_mem aclt c).mpr ⟨hc, hvalid c hc⟩
    constructor
    · exact nofun
    · intro hnil
      simp only [ascstr, Option.getD_some] at hnil
      simp [hnil] at hmem

theorem canonical_none : Canonical none := ⟨List.Pairwise.nil, by simp [ascstr], by simp [ascstr]⟩

theorem validacl_iff (p : List UInt8) : validacl p = true ↔ ∀ c ∈ p, SP < c := by
  simp [validacl]

theorem acltAdd_spec {aclt : Aclt} (h : Canonical aclt) (addStrs : Option (List UInt8))
    (hvalid : ∀ c ∈ ascstr addStrs, SP < c) :
    (acltAdd aclt addStrs).1 = 0 ∧ Canonical (acltAdd aclt addStrs).2 ∧
      ∀ c, c ∈ ascstr (acltAdd aclt addStrs).2 ↔ c ∈ ascstr aclt ∨ c ∈ ascstr addStrs := by
  match addStrs with
  | none => exact ⟨rfl, h, by simp [acltAdd, ascstr]⟩
  | some [] => exact ⟨rfl, h, by simp [acltAdd, ascstr]⟩
  | some (d :: p) =>
      have hall : ∀ c ∈ ascstr aclt ++ d :: p, SP < c := by
        intro c hc
        rcases List.mem_append.mp hc with hc | hc
        · exact h.valid c hc
        · exact hvalid c hc
      rw [acltAdd, if_pos ((validacl_iff (d :: p)).mpr hvalid)]
      refine ⟨rfl, fixup_canonical (by simp) hall, fun c => ?_⟩
      rw [ascstr, Option.getD_some, fixup_mem, List.mem_append]
      exact ⟨And.left, fun hc => ⟨hc, hall c (List.mem_append.mpr hc)⟩⟩

theorem acltAdd_invalid (aclt : Aclt) {addStrs : Option (List UInt8)}
    (hvalid : ¬ ∀ c ∈ ascstr addStrs, SP < c) : acltAdd aclt addStrs = (-1, aclt) := by
  match addStrs with
  | none => simp [ascstr] at hvalid
  | some [] => simp [ascstr] at hvalid
  | some (d :: p) => rw [acltAdd, if_neg (fun h => hvalid ((validacl_iff (d :: p)).mp h))]

theorem acltInit_eq (initvalue : Option (List UInt8)) : acltInit initvalue = acltAdd none initvalue := by
  match initvalue with
  | none => rfl
  | some [] => rfl
  | some (d :: p) => rfl

theorem acltDel_spec {aclt : Aclt} (h : Canonical aclt) (delStrs : Option (List UInt8)) :
    Canonical (acltDel aclt delStrs) ∧
      ∀ c, c ∈ ascstr (acltDel aclt delStrs) ↔ c ∈ ascstr aclt ∧ c ∉ ascstr delStrs := by
  match delStrs, aclt with
  | none, aclt => exact ⟨h, by simp [acltDel, ascstr]⟩
  | some _, none => exact ⟨h, by simp [acltDel, ascstr]⟩
  | some del, some a =>
      have hmem : ∀ c, c ∈ ascstr (acltDel (some a) (some del)) ↔ c ∈ a ∧ c ∉ del := by
        intro c
        simp only [acltDel]
        split
        · next hnil =>
            simp only [ascstr, Option.getD_none, List.not_mem_nil, false_iff]
            intro hc
            have hfilter : c ∈ a.filter fun c => !del.contains c :=
              List.mem_filter.mpr ⟨hc.1, by simpa using hc.2⟩
            rw [hnil] at hfilter
            exact List.not_mem_nil hfilter
        · simp [ascstr]
      refine ⟨⟨?_, fun c hc => h.valid c ((hmem c).mp hc).1, ?_⟩, hmem⟩
      · simp only [acltDel]
        split
        · exact List.Pairwise.nil
        · exact h.sorted.filter _
      · simp only [acltDel]
        split
        · simp [ascstr]
        · next hne => simpa [ascstr] using hne

theorem acltAdd_canonical {aclt : Aclt} (h : Canonical aclt) (addStrs : Option (List UInt8)) :
    Canonical (acltAdd aclt addStrs).2 := by
  by_cases hvalid : ∀ c ∈ ascstr addStrs, SP < c
  · exact (acltAdd_spec h addStrs hvalid).2.1
  · rw [acltAdd_invalid aclt hvalid]
    exact h

theorem Reached.canonical {aclt : Aclt} (h : Reached aclt) : Canonical aclt := by
  induction h with
  | init initvalue =>
      rw [acltInit_eq]
      exact acltAdd_canonical canonical_none initvalue
  | add addStrs _ ih => exact acltAdd_canonical ih addStrs
  | del delStrs _ ih => exact (acltDel_spec ih delStrs).1

theorem Canonical.ext {a b : Aclt} (ha : Canonical a) (hb : Canonical b)
    (h : ∀ c, c ∈ ascstr a ↔ c ∈ ascstr b) : a = b := by
  have hstr : ascstr a = ascstr b := ha.sorted.eq_of_mem_iff hb.sorted h
  cases a with
  | none => exact (hb.null.mpr (hstr ▸ ha.null.mp rfl)).symm
  | some a =>
      cases b with
      | none => exact ha.null.mpr (hstr.trans (hb.null.mp rfl))
      | some b => exact congrArg some hstr

/-! ## The rights that a list gives -/

def member (identities : List UInt8 → Bool) (isme : List UInt8) : Int :=
  if identities isme then 1 else 0

def Matches (identities : List UInt8 → Bool) (identifier : List UInt8) : Prop :=
  identifier = anyone ∨ identifier = anonymous ∨
    if identifier = administrators ∨ identifier = groupAdministrators then
      identities administrators = true ∨ identities groupAdministrators = true
    else identities identifier = true

def Negative (p : Node) : Prop := p.identifier.head? = some (byte '-')

def Granted (identities : List UInt8 → Bool) (list : List Node) (c : UInt8) : Prop :=
  ∃ p ∈ list, ¬Negative p ∧ Matches identities p.identifier ∧ c ∈ ascstr p.acl

def Revoked (identities : List UInt8 → Bool) (list : List Node) (c : UInt8) : Prop :=
  ∃ p ∈ list, Negative p ∧ Matches identities p.identifier.tail ∧ c ∈ ascstr p.acl

section Compute
variable (identities : List UInt8 → Bool)

theorem member_cases (isme : List UInt8) :
    (member identities isme = 1 ∧ identities isme = true) ∨
      (member identities isme = 0 ∧ ¬identities isme = true) := by
  by_cases h : identities isme = true
  · exact .inl ⟨if_pos h, h⟩
  · exact .inr ⟨if_neg h, h⟩

theorem isIdent_cases (s : List UInt8) :
    (isIdent (member identities) s = 1 ∧ Matches identities s) ∨
      (isIdent (member identities) s = 0 ∧ ¬Matches identities s) := by
  by_cases hany : s = anonymous ∨ s = anyone
  · rw [isIdent, if_pos hany, Matches]
    exact .inl ⟨rfl, hany.elim (fun h => .inr (.inl h)) .inl⟩
  · have hne : s ≠ anyone ∧ s ≠ anonymous := ⟨fun h => hany (.inr h), fun h => hany (.inl h)⟩
    rw [isIdent, if_neg hany, chkAdmin, Matches]
    simp only [hne.1, hne.2, false_or]
    by_cases hadmin : s = administrators ∨ s = groupAdministrators
    · rw [if_pos hadmin, if_pos hadmin]
      rcases member_cases identities administrators with ⟨h1, h2⟩ | ⟨h1, h2⟩ <;>
        rcases member_cases identities groupAdministrators with ⟨h3, h4⟩ | ⟨h3, h4⟩ <;>
        simp [h1, h2, h3, h4]
    · rw [if_neg hadmin, if_neg hadmin]
      exact member_cases identities s

theorem computeAdd_spec {list : List Node} (hlist : ∀ p ∈ list, Canonical p.acl) {aclt : Aclt}
    (h : Canonical aclt) :
    ∃ r, computeAdd (member identities) list aclt = .ok r ∧ Canonical r ∧
      ∀ c, c ∈ ascstr r ↔ c ∈ ascstr aclt ∨ Granted identities list c := by
  induction list generalizing aclt with
  | nil => exact ⟨aclt, rfl, h, by simp [Granted]⟩
  | cons p list ih =>
      have htail : ∀ p ∈ list, Canonical p.acl := fun q hq => hlist q (List.mem_cons_of_mem _ hq)
      rw [computeAdd]
      by_cases hneg : p.identifier.head? = some (byte '-')
      · rw [if_pos hneg]
        obtain ⟨r, hr, hcanonical, hmem⟩ := ih htail h
        refine ⟨r, hr, hcanonical, fun c => ?_⟩
        rw [hmem]
        simp [Granted, Negative, hneg]
      · rw [if_neg hneg]
        dsimp only
        rcases isIdent_cases identities p.identifier with ⟨hrc, hmatch⟩ | ⟨hrc, hmatch⟩
        · obtain ⟨hzero, hadd, hunion⟩ := acltAdd_spec h p.acl (hlist p (by simp)).valid
          rw [hrc, if_neg (by decide), if_neg (by decide), hzero, if_neg (by decide)]
          obtain ⟨r, hr, hcanonical, hmem⟩ := ih htail hadd
          refine ⟨r, hr, hcanonical, fun c => ?_⟩
          rw [hmem, hunion]
          simp [Granted, Negative, hneg, hmatch, or_assoc]
        · rw [hrc, if_neg (by decide), if_pos rfl]
          obtain ⟨r, hr, hcanonical, hmem⟩ := ih htail h
          refine ⟨r, hr, hcanonical, fun c => ?_⟩
          rw [hmem]
          simp [Granted, hmatch]

theorem computeDel_spec (list : List Node) {aclt : Aclt} (h : Canonical aclt) :
    ∃ r, computeDel (member identities) list aclt = .ok r ∧ Canonical r ∧
      ∀ c, c ∈ ascstr r ↔ c ∈ ascstr aclt ∧ ¬Revoked identities list c := by
  induction list generalizing aclt with
  | nil => exact ⟨aclt, rfl, h, by simp [Revoked]⟩
  | cons p list ih =>
      rw [computeDel]
      by_cases hneg : p.identifier.head? = some (byte '-')
      · rw [if_neg (by simp [hneg])]
        dsimp only
        rcases isIdent_cases identities p.identifier.tail with ⟨hrc, hmatch⟩ | ⟨hrc, hmatch⟩
        · obtain ⟨hdel, hdiff⟩ := acltDel_spec h p.acl
          rw [hrc, if_neg (by decide), if_neg (by decide)]
          obtain ⟨r, hr, hcanonical, hmem⟩ := ih hdel
          refine ⟨r, hr, hcanonical, fun c => ?_⟩
          rw [hmem, hdiff]
          simp [Revoked, Negative, hneg, hmatch, and_assoc]
        · rw [hrc, if_neg (by decide), if_pos rfl]
          obtain ⟨r, hr, hcanonical, hmem⟩ := ih h
          refine ⟨r, hr, hcanonical, fun c => ?_⟩
          rw [hmem]
          simp [Revoked, hmatch]
      · rw [if_pos hneg]
        obtain ⟨r, hr, hcanonical, hmem⟩ := ih h
        refine ⟨r, hr, hcanonical, fun c => ?_⟩
        rw [hmem]
        simp [Revoked, Negative, hneg]

theorem computeChkowner_spec (disabled : Bool) {list : List Node}
    (hlist : ∀ p ∈ list, Canonical p.acl) (chkowner : Bool) :
    ∃ aclt, computeChkowner (member identities) disabled list chkowner = .ok aclt ∧
      Canonical aclt ∧
      ∀ c, c ∈ ascstr aclt ↔ (Granted identities list c ∧ ¬Revoked identities list c) ∨
        (c = aclAdminister ∧ chkowner = true ∧ identities owner = true ∧ disabled = false) := by
  obtain ⟨added, hadd, hadded, hgranted⟩ := computeAdd_spec identities hlist canonical_none
  obtain ⟨aclt, hdel, haclt, hmem⟩ := computeDel_spec identities list hadded
  have hrights : ∀ c, c ∈ ascstr aclt ↔ Granted identities list c ∧ ¬Revoked identities list c := by
    intro c
    rw [hmem, hgranted]
    simp [ascstr]
  have howner : ∀ c ∈ ascstr (some [aclAdminister]), SP < c :=
    List.forall_mem_singleton.mpr (by decide)
  obtain ⟨hzero, hcanonical, hunion⟩ := acltAdd_spec haclt _ howner
  simp only [computeChkowner, hadd, hdel]
  by_cases hrule : chkowner = true ∧ identities owner = true ∧ disabled = false
  · obtain ⟨hchk, hid, hdis⟩ := hrule
    simp only [hchk, hdis, member, hid, if_true, Bool.false_eq_true, if_false, hzero]
    exact ⟨_, rfl, hcanonical, fun c => by rw [hunion, hrights]; simp [ascstr]⟩
  · have hrc : (if disabled = true then (0 : Int) else
        if chkowner = true then member identities owner else 0) = 0 := by
      cases disabled <;> cases chkowner <;> simp_all [member]
    rw [hrc]
    exact ⟨aclt, rfl, haclt, fun c => by rw [hrights]; simp [hrule]⟩

end Compute

theorem Granted.perm {identities : List UInt8 → Bool} {list list' : List Node}
    (h : list.Perm list') {c : UInt8} : Granted identities list c ↔ Granted identities list' c := by
  simp [Granted, h.mem_iff]

theorem Revoked.perm {identities : List UInt8 → Bool} {list list' : List Node}
    (h : list.Perm list') {c : UInt8} : Revoked identities list c ↔ Revoked identities list' c := by
  simp [Revoked, h.mem_iff]

/-- `maildir_acl_compute`, and the strings it works on. -/
theorem aclCompute_spec :
    (∀ aclt, Reached aclt →
      (ascstr aclt).Pairwise (· < ·) ∧ (aclt = none ↔ ascstr aclt = [])) ∧
    ∀ (disabled : Bool) (list : List Node) (identities : List UInt8 → Bool),
      (∀ p ∈ list, Reached p.acl) →
      (∃ aclt, aclCompute (member identities) disabled list = .ok aclt ∧
        (ascstr aclt).Pairwise (· < ·) ∧ (aclt = none ↔ ascstr aclt = []) ∧
        ∀ c, c ∈ ascstr aclt ↔ (Granted identities list c ∧ ¬Revoked identities list c) ∨
          (c = aclAdminister ∧ identities owner = true ∧ disabled = false)) ∧
      ∀ list', list.Perm list' → aclCompute (member identities) disabled list' =
        aclCompute (member identities) disabled list := by
  refine ⟨fun aclt h => ⟨h.canonical.sorted, h.canonical.null⟩, ?_⟩
  intro disabled list identities hlist
  have hcanonical : ∀ p ∈ list, Canonical p.acl := fun p hp => (hlist p hp).canonical
  obtain ⟨aclt, haclt, hcanon, hmem⟩ := computeChkowner_spec identities disabled hcanonical true
  refine ⟨⟨aclt, haclt, hcanon.sorted, hcanon.null, fun c => by rw [hmem]; simp⟩, ?_⟩
  intro list' hperm
  obtain ⟨aclt', haclt', hcanon', hmem'⟩ := computeChkowner_spec identities disabled
    (fun p hp => hcanonical p (hperm.mem_iff.mpr hp)) true
  rw [aclCompute, aclCompute, haclt, haclt']
  refine congrArg Except.ok (hcanon'.ext hcanon fun c => ?_)
  rw [hmem, hmem', Granted.perm hperm, Revoked.perm hperm]

/-- An owner whose own entry comes before or after one that takes rights from everybody. -/
theorem aclCompute_spec_sample :
    aclCompute (member (· = owner)) false
        [⟨byte '-' :: anyone, some [byte 'r']⟩, ⟨owner, some [byte 'l', byte 'r']⟩] =
      aclCompute (member (· = owner)) false
        [⟨owner, some [byte 'l', byte 'r']⟩, ⟨byte '-' :: anyone, some [byte 'r']⟩] := by
  refine (aclCompute_spec.2 false _ (· = owner) ?_).2 _ (List.Perm.swap _ _ _)
  intro p hp
  rcases List.mem_pair.mp hp with rfl | rfl
  · exact Reached.init (some [byte 'r', byte 'l'])
  · exact Reached.init (some [byte 'r'])

end Cone.MaildiracltRights
