import Cone.MaildiracltFile
import Cone.MaildiracltRights

/-! # An ACL file read back

Whatever `maildir_acl_write` accepts is read back with its entries in order, the default
administrator rule applied, and from then on writing and reading change nothing. -/
set_option autoImplicit false
namespace Cone.MaildiracltReread

open Cone.Ctype Cone.Maildiraclt Cone.MaildiracltFile Cone.MaildiracltRights

/-! ## Lists -/

/-- The lists that `maildir_aclt_list_add` and `maildir_aclt_list_del` build. -/
inductive ListReached : List Node → Prop where
  | init : ListReached []
  | add {list : List Node} (identifier : List UInt8) (acltStr : Option (List UInt8))
      (h : ListReached list) : ListReached (listAdd list identifier acltStr).2
  | del {list : List Node} (identifier : List UInt8) (h : ListReached list) :
      ListReached (listDel list identifier)

def ValidIdentifier (identifier : List UInt8) : Prop :=
  identifier ≠ [] ∧ ∀ c ∈ identifier, SP < c

structure ListOk (list : List Node) : Prop where
  canonical : ∀ p ∈ list, Canonical p.acl
  identifiers : ∀ p ∈ list, ValidIdentifier p.identifier
  distinct : (list.map Node.identifier).Nodup

theorem ListOk.of_sublist {list list' : List Node} (h : ListOk list) (hsub : list'.Sublist list) :
    ListOk list' :=
  ⟨fun p hp => h.canonical p (hsub.subset hp), fun p hp => h.identifiers p (hsub.subset hp),
    h.distinct.sublist (hsub.map _)⟩

def mapAcl (acl : Node → Aclt) (list : List Node) : List Node :=
  list.map fun p => ⟨p.identifier, acl p⟩

def setAcl (identifier : List UInt8) (acl : Aclt) (p : Node) : Aclt :=
  if p.identifier = identifier then acl else p.acl

theorem mapAcl_identifiers (acl : Node → Aclt) (list : List Node) :
    (mapAcl acl list).map Node.identifier = list.map Node.identifier := by
  simp [mapAcl]

theorem mapAcl_self {acl : Node → Aclt} {list : List Node} (h : ∀ p ∈ list, acl p = p.acl) :
    mapAcl acl list = list := by
  have hsame : ∀ p ∈ list, (⟨p.identifier, acl p⟩ : Node) = p := fun p hp => by rw [h p hp]
  exact (List.map_congr_left hsame).trans (List.map_id' list)

theorem setAcl_notMem {identifier : List UInt8} {list : List Node}
    (h : identifier ∉ list.map Node.identifier) (acl : Aclt) :
    mapAcl (setAcl identifier acl) list = list := by
  refine mapAcl_self fun p hp => if_neg ?_
  rintro rfl
  exact h (List.mem_map_of_mem hp)

theorem listStore_mem {list : List Node} {identifier : List UInt8}
    (h : identifier ∈ list.map Node.identifier) (hdistinct : (list.map Node.identifier).Nodup)
    (acltStr : Option (List UInt8)) :
    listStore list identifier acltStr =
      ((acltInit acltStr).1, mapAcl (setAcl identifier (acltInit acltStr).2) list) := by
  induction list with
  | nil => simp at h
  | cons p list ih =>
      obtain ⟨hnotMem, htail⟩ := List.nodup_cons.mp hdistinct
      rw [listStore, mapAcl, List.map_cons, setAcl]
      by_cases hp : p.identifier = identifier
      · subst hp
        rw [if_pos rfl, if_pos rfl]
        exact congrArg _ (congrArg _ (setAcl_notMem hnotMem _).symm)
      · rw [if_neg hp, if_neg hp]
        have hmem : identifier ∈ list.map Node.identifier :=
          (List.mem_cons.mp h).resolve_left (Ne.symm hp)
        simp only [ih hmem htail]
        rfl

theorem listStore_notMem {list : List Node} {identifier : List UInt8}
    (h : identifier ∉ list.map Node.identifier) (acltStr : Option (List UInt8)) :
    listStore list identifier acltStr =
      if (acltInit acltStr).1 < 0 then (-1, list)
      else (0, list ++ [⟨identifier, (acltInit acltStr).2⟩]) := by
  induction list with
  | nil => simp [listStore]
  | cons p list ih =>
      rw [List.map_cons, List.mem_cons, not_or] at h
      rw [listStore, if_neg (Ne.symm h.1)]
      simp only [ih h.2]
      split <;> rfl

theorem acltInit_canonical (acltStr : Option (List UInt8)) : Canonical (acltInit acltStr).2 := by
  rw [acltInit_eq]
  exact acltAdd_canonical canonical_none acltStr

theorem ListOk.mapAcl {list : List Node} (h : ListOk list) {acl : Node → Aclt}
    (hacl : ∀ p ∈ list, Canonical (acl p)) : ListOk (mapAcl acl list) := by
  refine ⟨fun p hp => ?_, fun p hp => ?_, by rw [mapAcl_identifiers]; exact h.distinct⟩
  · obtain ⟨q, hq, rfl⟩ := List.mem_map.mp hp
    exact hacl q hq
  · obtain ⟨q, hq, rfl⟩ := List.mem_map.mp hp
    exact h.identifiers q hq

theorem ListOk.setAcl {list : List Node} (h : ListOk list) (identifier : List UInt8) {acl : Aclt}
    (hacl : Canonical acl) : ∀ p ∈ list, Canonical (setAcl identifier acl p) := by
  intro p hp
  rw [MaildiracltReread.setAcl]
  split
  · exact hacl
  · exact h.canonical p hp

theorem ListOk.append {list : List Node} (h : ListOk list) {p : Node} (hacl : Canonical p.acl)
    (hvalid : ValidIdentifier p.identifier) (hnew : p.identifier ∉ list.map Node.identifier) :
    ListOk (list ++ [p]) := by
  refine ⟨fun q hq => ?_, fun q hq => ?_, ?_⟩
  · rcases List.mem_append.mp hq with hq | hq
    · exact h.canonical q hq
    · rw [List.mem_singleton.mp hq]; exact hacl
  · rcases List.mem_append.mp hq with hq | hq
    · exact h.identifiers q hq
    · rw [List.mem_singleton.mp hq]; exact hvalid
  · rw [List.map_append]
    exact List.Nodup.append h.distinct (List.nodup_singleton _) (by simpa using hnew)

theorem listAdd_valid {identifier : List UInt8} (h : ValidIdentifier identifier) (list : List Node)
    (acltStr : Option (List UInt8)) :
    listAdd list identifier acltStr = listStore list identifier acltStr := by
  have hvalid : validacl identifier = true := (validacl_iff _).mpr h.2
  rw [listAdd, if_neg (by simp [hvalid]), if_neg h.1]

theorem ListOk.listAdd {list : List Node} (h : ListOk list) (identifier : List UInt8)
    (acltStr : Option (List UInt8)) : ListOk (listAdd list identifier acltStr).2 := by
  by_cases hvalid : ValidIdentifier identifier
  · rw [listAdd_valid hvalid]
    by_cases hmem : identifier ∈ list.map Node.identifier
    · rw [listStore_mem hmem h.distinct]
      exact h.mapAcl (h.setAcl identifier (acltInit_canonical acltStr))
    · rw [listStore_notMem hmem]
      split
      · exact h
      · exact h.append (acltInit_canonical acltStr) hvalid hmem
  · rw [Maildiraclt.listAdd]
    split
    · exact h
    · split
      · exact h
      · next hnil hne => exact absurd ⟨hne, (validacl_iff _).mp (by simpa using hnil)⟩ hvalid

theorem ListReached.ok {list : List Node} (h : ListReached list) : ListOk list := by
  induction h with
  | init => exact ⟨by simp, by simp, by simp⟩
  | add identifier acltStr _ ih => exact ih.listAdd identifier acltStr
  | del identifier _ ih => exact ih.of_sublist List.eraseP_sublist

theorem listFind_isSome {list : List Node} {identifier : List UInt8} :
    (listFind list identifier).isSome = true ↔ identifier ∈ list.map Node.identifier := by
  simp [listFind, List.find?_isSome, List.mem_map]

theorem listFind_some {list : List Node} {identifier : List UInt8} {acl : Aclt}
    (h : listFind list identifier = some acl) : ⟨identifier, acl⟩ ∈ list := by
  rw [listFind, Option.map_eq_some_iff] at h
  obtain ⟨p, hp, rfl⟩ := h
  have hid : p.identifier = identifier := by simpa using List.find?_some hp
  have hmem := List.mem_of_find?_eq_some hp
  rwa [← hid]

theorem listFind_none {list : List Node} {identifier : List UInt8}
    (h : listFind list identifier = none) : identifier ∉ list.map Node.identifier := by
  rw [← listFind_isSome, h]
  exact Bool.false_ne_true

theorem listDel_filter {list : List Node} (h : (list.map Node.identifier).Nodup)
    (identifier : List UInt8) : listDel list identifier = list.filter (·.identifier ≠ identifier) := by
  induction list with
  | nil => rfl
  | cons p list ih =>
      obtain ⟨hnotMem, htail⟩ := List.nodup_cons.mp h
      rw [listDel]
      by_cases hp : p.identifier = identifier
      · rw [List.eraseP_cons_of_pos (by simpa using hp), List.filter_cons_of_neg (by simpa using hp)]
        refine (List.filter_eq_self.mpr fun q hq => ?_).symm
        have hne : q.identifier ≠ p.identifier := fun heq =>
          hnotMem (heq ▸ List.mem_map_of_mem hq)
        simpa [hp] using hne
      · rw [List.eraseP_cons_of_neg (by simpa using hp), List.filter_cons_of_pos (by simpa using hp)]
        exact congrArg _ (ih htail)

/-! ## The file -/

theorem acltInit_ascstr {acl : Aclt} (h : Canonical acl) : acltInit (some (ascstr acl)) = (0, acl) := by
  obtain ⟨hzero, hcanonical, hmem⟩ := acltAdd_spec canonical_none
    (some (ascstr acl)) (by simpa [ascstr] using h.valid)
  rw [acltInit_eq]
  refine Prod.ext hzero (hcanonical.ext h fun c => ?_)
  rw [hmem]
  simp [ascstr]

theorem fgets_line {line : List UInt8} (hline : NL ∉ line) {n : Nat} (hn : line.length < n)
    (fp : List UInt8) : fgets n (line ++ NL :: fp) = (line ++ [NL], fp) := by
  induction line generalizing n with
  | nil =>
      obtain ⟨m, rfl⟩ := Nat.exists_eq_add_of_lt hn
      rw [List.nil_append, fgets, if_pos rfl]
      rfl
  | cons c line ih =>
      rw [List.mem_cons, not_or] at hline
      cases n with
      | zero => exact absurd hn (Nat.not_lt_zero _)
      | succ n =>
          rw [List.cons_append, fgets, if_neg (Ne.symm hline.1)]
          simp only [ih hline.2 (Nat.lt_of_succ_lt_succ hn), List.cons_append]

theorem above_space : ∀ c, SP < c → c ≠ NUL ∧ c ≠ NL ∧ c ≠ SP := forall_byte (by decide +kernel)

theorem splitLine_saveAcl {p : Node} (hid : ValidIdentifier p.identifier) (hacl : Canonical p.acl) :
    splitLine (saveAcl p) = (p.identifier, ascstr p.acl) := by
  have hline : (saveAcl p).takeWhile (fun c => c ≠ NUL && c ≠ NL) =
      p.identifier ++ SP :: ascstr p.acl := by
    have hkeep : ∀ c ∈ p.identifier ++ SP :: ascstr p.acl,
        (decide (c ≠ NUL) && decide (c ≠ NL)) = true := by
      intro c hc
      rcases List.mem_append.mp hc with hc | hc
      · simp [above_space c (hid.2 c hc)]
      · rcases List.mem_cons.mp hc with rfl | hc
        · decide
        · simp [above_space c (hacl.valid c hc)]
    have hsave : saveAcl p = (p.identifier ++ SP :: ascstr p.acl) ++ [NL] := by
      simp [saveAcl]
    rw [hsave, List.takeWhile_append_of_pos hkeep]
    simp
  have hident : ∀ c ∈ p.identifier, decide (c ≠ SP) = true := fun c hc =>
    decide_eq_true (above_space c (hid.2 c hc)).2.2
  rw [splitLine]
  simp only [hline, List.takeWhile_append_of_pos hident, List.dropWhile_append_of_pos hident]
  rw [List.takeWhile_cons_of_neg (by decide), List.dropWhile_cons_of_neg (by decide),
    List.dropWhile_cons_of_pos (by decide), List.append_nil]
  cases hrights : ascstr p.acl with
  | nil => rfl
  | cons c rights =>
      have hc : SP < c := hacl.valid c (by rw [hrights]; exact List.mem_cons_self)
      rw [List.dropWhile_cons_of_neg (by simpa using (above_space c hc).2.2)]

def ShortLines (list : List Node) : Prop := ∀ p ∈ list, (saveAcl p).length < bufsiz

theorem readLines_saveAcl {fuel : Nat} (done list : List Node) (hok : ListOk (done ++ list))
    (hshort : ShortLines list) (hfuel : (list.flatMap saveAcl).length ≤ fuel) :
    readLines fuel done (list.flatMap saveAcl) = done ++ list := by
  induction list generalizing fuel done with
  | nil => cases fuel <;> simp [readLines]
  | cons p list ih =>
      have hid := hok.identifiers p (by simp)
      have hacl := hok.canonical p (by simp)
      have hsave : saveAcl p = (p.identifier ++ [SP] ++ ascstr p.acl) ++ [NL] := rfl
      have hlen : (saveAcl p).length < bufsiz := hshort p (by simp)
      have hnl : NL ∉ p.identifier ++ [SP] ++ ascstr p.acl := by
        intro hmem
        simp only [List.append_assoc, List.mem_append, List.mem_singleton] at hmem
        rcases hmem with hmem | hmem | hmem
        · exact (above_space NL (hid.2 NL hmem)).2.1 rfl
        · exact absurd hmem (by decide)
        · exact (above_space NL (hacl.valid NL hmem)).2.1 rfl
      have hget : fgets (bufsiz - 1) ((p :: list).flatMap saveAcl) =
          (saveAcl p, list.flatMap saveAcl) := by
        rw [List.flatMap_cons, hsave, List.append_assoc]
        refine fgets_line hnl ?_ _
        rw [hsave, List.length_append, List.length_singleton] at hlen
        omega
      have hfresh : p.identifier ∉ done.map Node.identifier := by
        have hdistinct := hok.distinct
        rw [List.map_append, List.nodup_append] at hdistinct
        exact fun hmem => hdistinct.2.2 _ hmem p.identifier (by simp) rfl
      have hadd : (listAdd done p.identifier (some (ascstr p.acl))).2 = done ++ [p] := by
        rw [listAdd_valid hid, listStore_notMem hfresh, acltInit_ascstr hacl]
        rfl
      cases hfp : (p :: list).flatMap saveAcl with
      | nil => simp [saveAcl] at hfp
      | cons c fp =>
          cases fuel with
          | zero => simp [saveAcl] at hfuel
          | succ fuel =>
              rw [readLines, ← hfp, hget]
              simp only [splitLine_saveAcl hid hacl, hadd]
              have happend : done ++ p :: list = done ++ [p] ++ list := by simp
              rw [happend] at hok ⊢
              refine ih (done ++ [p]) hok (fun q hq => hshort q (List.mem_cons_of_mem _ hq)) ?_
              rw [List.flatMap_cons, List.length_append] at hfuel
              have hpos : 0 < (saveAcl p).length := List.length_pos_of_ne_nil (by simp [saveAcl])
              omega

/-! ## The default administrator rule -/

/-- The entry with all rights besides its own, at the end when there is none. -/
def raised (identifier : List UInt8) (list : List Node) : List Node :=
  if identifier ∈ list.map Node.identifier then
    mapAcl (fun p => if p.identifier = identifier then some (fixup (aclAll ++ ascstr p.acl)) else p.acl)
      list
  else list ++ [⟨identifier, some aclAll⟩]

def adminEntry (list : List Node) : List UInt8 :=
  if groupAdministrators ∈ list.map Node.identifier then groupAdministrators else administrators

def defaultAdmin (list : List Node) : List Node :=
  (raised (adminEntry list) list).filter fun p => p.identifier ∉ dropAcls

theorem acltInit_self {acl : Aclt} (h : Canonical acl) : acltInit acl = (0, acl) := by
  cases acl with
  | none => rfl
  | some a => exact acltInit_ascstr h

theorem names_facts :
    (∀ c ∈ aclAll, SP < c) ∧ fixup aclAll = aclAll ∧ administrators.all (SP < ·) = true ∧
      groupAdministrators.all (SP < ·) = true := by decide +kernel

theorem aclAll_valid : ∀ c ∈ aclAll, SP < c := names_facts.1

theorem canonical_union {acl : Aclt} (h : Canonical acl) :
    Canonical (some (fixup (aclAll ++ ascstr acl))) ∧
      ∀ c, c ∈ fixup (aclAll ++ ascstr acl) ↔ c ∈ aclAll ∨ c ∈ ascstr acl := by
  have hvalid : ∀ c ∈ aclAll ++ ascstr acl, SP < c := by
    intro c hc
    rcases List.mem_append.mp hc with hc | hc
    · exact aclAll_valid c hc
    · exact h.valid c hc
  refine ⟨fixup_canonical (by simp [aclAll]) hvalid, fun c => ?_⟩
  rw [fixup_mem, List.mem_append]
  exact ⟨And.left, fun hc => ⟨hc, hvalid c (List.mem_append.mpr hc)⟩⟩

theorem ascstr_some (acl : List UInt8) : ascstr (some acl) = acl := rfl

theorem aclAll_canonical : Canonical (some aclAll) := acltInit_canonical (some aclAll)

theorem acltAdd_aclAll {acl : Aclt} (h : Canonical acl) :
    acltAdd (acltInit (some aclAll)).2 acl = (0, some (fixup (aclAll ++ ascstr acl))) := by
  obtain ⟨hzero, hcanonical, hmem⟩ := acltAdd_spec aclAll_canonical acl h.valid
  rw [acltInit_self aclAll_canonical]
  refine Prod.ext hzero (hcanonical.ext (canonical_union h).1 fun c => ?_)
  rw [hmem, ascstr_some, ascstr_some]
  exact ((canonical_union h).2 c).symm

theorem addAll_eq {list : List Node} (h : ListOk list) {identifier : List UInt8}
    (hvalid : ValidIdentifier identifier) :
    addAll list identifier (listFind list identifier) = (0, raised identifier list) := by
  rw [addAll, raised]
  cases hfind : listFind list identifier with
  | none =>
      have hnotMem := listFind_none hfind
      simp only [Option.getD_none, acltAdd_aclAll canonical_none, listAdd_valid hvalid,
        listStore_notMem hnotMem, acltInit_self (canonical_union canonical_none).1]
      rw [if_neg hnotMem]
      rfl
  | some acl =>
      have hmem := listFind_some hfind
      have hacl : Canonical acl := h.canonical _ hmem
      have hid : identifier ∈ list.map Node.identifier := List.mem_map_of_mem hmem
      simp only [Option.getD_some, acltAdd_aclAll hacl, listAdd_valid hvalid,
        listStore_mem hid h.distinct, acltInit_self (canonical_union hacl).1]
      rw [if_pos hid]
      refine congrArg (Prod.mk 0) (List.map_congr_left fun p hp => ?_)
      dsimp only
      rw [setAcl]
      split
      · next heq =>
          have hp : p = ⟨identifier, acl⟩ := List.inj_on_of_nodup_map h.distinct hp hmem heq
          rw [hp]
      · rfl

theorem raised_ok {list : List Node} (h : ListOk list) {identifier : List UInt8}
    (hvalid : ValidIdentifier identifier) : ListOk (raised identifier list) := by
  rw [raised]
  split
  · refine h.mapAcl fun p hp => ?_
    split
    · exact (canonical_union (h.canonical p hp)).1
    · exact h.canonical p hp
  · next hnew => exact h.append aclAll_canonical hvalid hnew

theorem adminEntry_valid (list : List Node) : ValidIdentifier (adminEntry list) := by
  obtain ⟨-, -, hadmin, hgroup⟩ := names_facts
  rw [adminEntry]
  split
  · exact ⟨by decide, by simpa using hgroup⟩
  · exact ⟨by decide, by simpa using hadmin⟩

theorem dropAcls_eq {list : List Node} (h : ListOk list) :
    dropAcls.foldl listDel list = list.filter fun p => p.identifier ∉ dropAcls := by
  have hsub : (list.filter (·.identifier ≠ byte '-' :: administrators)).Sublist list :=
    List.filter_sublist
  simp only [dropAcls, List.foldl_cons, List.foldl_nil]
  rw [listDel_filter h.distinct, listDel_filter (h.of_sublist hsub).distinct, List.filter_filter]
  refine List.filter_congr fun p _ => ?_
  simp only [List.mem_cons, List.not_mem_nil, or_false, not_or, Bool.decide_and]
  exact Bool.and_comm _ _

theorem addDefaultAdmin_eq {list : List Node} (h : ListOk list) :
    addDefaultAdmin list = (0, defaultAdmin list) := by
  have hvalid := adminEntry_valid list
  have hadd := addAll_eq h hvalid
  have hdrop := dropAcls_eq (raised_ok h hvalid)
  cases hfind : listFind list groupAdministrators with
  | none =>
      have hentry : adminEntry list = administrators := if_neg (listFind_none hfind)
      rw [hentry] at hadd hdrop
      simp [addDefaultAdmin, defaultAdmin, hfind, hentry, hadd, hdrop]
  | some acl =>
      have hsome : (listFind list groupAdministrators).isSome = true := by rw [hfind]; rfl
      have hentry : adminEntry list = groupAdministrators := if_pos (listFind_isSome.mp hsome)
      rw [hentry] at hadd hdrop
      rw [hfind] at hadd
      simp [addDefaultAdmin, defaultAdmin, hfind, hentry, hadd, hdrop]

theorem defaultAdmin_ok {list : List Node} (h : ListOk list) : ListOk (defaultAdmin list) :=
  (raised_ok h (adminEntry_valid list)).of_sublist List.filter_sublist

theorem adminEntry_kept (list : List Node) :
    adminEntry list ∉ dropAcls ∧ (adminEntry list).head? ≠ some (byte '-') := by
  rw [adminEntry]
  split
  · exact ⟨by decide, by decide⟩
  · exact ⟨by decide, by decide⟩

def adminAcl (list : List Node) : Aclt :=
  some (fixup (aclAll ++ ascstr ((listFind list (adminEntry list)).getD none)))

theorem mem_defaultAdmin {list : List Node} (h : ListOk list) (p : Node) :
    p ∈ defaultAdmin list ↔ p.identifier ∉ dropAcls ∧
      ((p ∈ list ∧ p.identifier ≠ adminEntry list) ∨
        (p.identifier = adminEntry list ∧ p.acl = adminAcl list)) := by
  rw [defaultAdmin, List.mem_filter, and_comm, decide_eq_true_eq]
  refine and_congr_right fun _ => ?_
  rw [raised, adminAcl]
  cases hfind : listFind list (adminEntry list) with
  | none =>
      have hnotMem := listFind_none hfind
      have hall := names_facts.2.1
      rw [if_neg hnotMem, List.mem_append, List.mem_singleton]
      refine or_congr ⟨fun hp => ⟨hp, ?_⟩, And.left⟩ ?_
      · rintro heq
        exact hnotMem (heq ▸ List.mem_map_of_mem hp)
      · simp [Node.ext_iff, ascstr, hall]
  | some acl =>
      have hmem := listFind_some hfind
      rw [if_pos (List.mem_map_of_mem hmem), mapAcl, List.mem_map]
      constructor
      · rintro ⟨q, hq, rfl⟩
        by_cases hid : q.identifier = adminEntry list
        · have hq' : q = ⟨adminEntry list, acl⟩ := List.inj_on_of_nodup_map h.distinct hq hmem hid
          exact .inr ⟨hid, by simp [hq']⟩
        · exact .inl ⟨by simpa [hid] using hq, hid⟩
      · rintro (⟨hp, hne⟩ | ⟨hid, hacl⟩)
        · exact ⟨p, hp, by simp [hne]⟩
        · exact ⟨⟨adminEntry list, acl⟩, hmem, by simp [Node.ext_iff, hid, hacl]⟩

theorem adminEntry_defaultAdmin {list : List Node} (h : ListOk list) :
    adminEntry (defaultAdmin list) = adminEntry list ∧
      adminEntry list ∈ (defaultAdmin list).map Node.identifier := by
  have hmem : adminEntry list ∈ (defaultAdmin list).map Node.identifier := by
    refine List.mem_map.mpr ⟨⟨adminEntry list, adminAcl list⟩, (mem_defaultAdmin h _).mpr ?_, rfl⟩
    exact ⟨(adminEntry_kept list).1, .inr ⟨rfl, rfl⟩⟩
  refine ⟨?_, hmem⟩
  by_cases hgroup : groupAdministrators ∈ list.map Node.identifier
  · have hentry : adminEntry list = groupAdministrators := if_pos hgroup
    rw [hentry] at hmem ⊢
    exact if_pos hmem
  · have hentry : adminEntry list = administrators := if_neg hgroup
    rw [hentry]
    refine if_neg fun hin => ?_
    obtain ⟨p, hp, hid⟩ := List.mem_map.mp hin
    rcases ((mem_defaultAdmin h p).mp hp).2 with ⟨hold, -⟩ | ⟨hadmin, -⟩
    · exact hgroup (hid ▸ List.mem_map_of_mem hold)
    · rw [hid, hentry] at hadmin
      exact absurd hadmin (by decide)

theorem defaultAdmin_admin {list : List Node} (h : ListOk list) {p : Node}
    (hp : p ∈ defaultAdmin list) (hid : p.identifier = adminEntry list) :
    ∀ c ∈ aclAll, c ∈ ascstr p.acl := by
  intro c hc
  rcases ((mem_defaultAdmin h p).mp hp).2 with ⟨-, hne⟩ | ⟨-, hacl⟩
  · exact absurd hid hne
  · have hold : Canonical ((listFind list (adminEntry list)).getD none) := by
      cases hfind : listFind list (adminEntry list) with
      | none => exact canonical_none
      | some acl => exact h.canonical _ (listFind_some hfind)
    rw [hacl, adminAcl, ascstr_some]
    exact ((canonical_union hold).2 c).mpr (.inl hc)

theorem defaultAdmin_idempotent {list : List Node} (h : ListOk list) :
    defaultAdmin (defaultAdmin list) = defaultAdmin list := by
  have hok := defaultAdmin_ok h
  obtain ⟨hentry, hmem⟩ := adminEntry_defaultAdmin h
  have hraised : raised (adminEntry list) (defaultAdmin list) = defaultAdmin list := by
    rw [raised, if_pos hmem]
    refine mapAcl_self fun p hp => ?_
    split
    · next hid =>
        have hcanonical := hok.canonical p hp
        refine (canonical_union hcanonical).1.ext hcanonical fun c => ?_
        rw [ascstr, Option.getD_some, (canonical_union hcanonical).2]
        exact ⟨fun hc => hc.elim (defaultAdmin_admin h hp hid c) id, .inr⟩
    · rfl
  rw [defaultAdmin, hentry, hraised]
  refine List.filter_eq_self.mpr fun p hp => ?_
  exact decide_eq_true ((mem_defaultAdmin h p).mp hp).1

theorem defaultAdmin_short {list : List Node} (h : ListOk list) (hshort : ShortLines list) :
    ShortLines (defaultAdmin list) := by
  intro p hp
  rcases ((mem_defaultAdmin h p).mp hp).2 with ⟨hold, -⟩ | ⟨hid, -⟩
  · exact hshort p hold
  · -- a rights string holds every byte at most once
    have hrights : (ascstr p.acl).length ≤ 256 := by
      have hdistinct : (ascstr p.acl).Nodup :=
        ((defaultAdmin_ok h).canonical p hp).sorted.imp fun hlt => UInt8.ne_of_lt hlt
      have hnodup : ((ascstr p.acl).map UInt8.toNat).Nodup :=
        hdistinct.map fun a b heq => UInt8.toNat_inj.mp heq
      have hsub : (ascstr p.acl).map UInt8.toNat ⊆ List.range 256 := by
        intro n hn
        obtain ⟨c, -, rfl⟩ := List.mem_map.mp hn
        exact List.mem_range.mpr c.toNat_lt
      have hle := (hnodup.subperm hsub).length_le
      simpa using hle
    have hident : (adminEntry list).length ≤ 20 := by
      rw [adminEntry]
      split <;> decide
    simp only [saveAcl, hid, List.length_append, List.length_singleton, bufsiz]
    omega

/-! ## What the rule does to the rights -/

section Rights
variable {list : List Node} (identities : List UInt8 → Bool)

theorem granted_defaultAdmin (h : ListOk list) {c : UInt8} (hc : Granted identities list c) :
    Granted identities (defaultAdmin list) c := by
  obtain ⟨p, hp, hpos, hmatch, hmem⟩ := hc
  have hkept : p.identifier ∉ dropAcls := by
    intro hdrop
    rcases List.mem_pair.mp hdrop with heq | heq
    · exact hpos (by rw [Negative, heq]; rfl)
    · exact hpos (by rw [Negative, heq]; rfl)
  by_cases hid : p.identifier = adminEntry list
  · refine ⟨⟨p.identifier, adminAcl list⟩, (mem_defaultAdmin h _).mpr ⟨hkept, .inr ⟨hid, rfl⟩⟩, hpos,
      hmatch, ?_⟩
    have hfind : listFind list (adminEntry list) = some p.acl := by
      cases hfind : listFind list (adminEntry list) with
      | none => exact absurd (hid ▸ List.mem_map_of_mem hp) (listFind_none hfind)
      | some acl =>
          have heq : p = ⟨adminEntry list, acl⟩ :=
            List.inj_on_of_nodup_map h.distinct hp (listFind_some hfind) hid
          rw [heq]
    rw [adminAcl, hfind, ascstr_some]
    exact ((canonical_union (h.canonical p hp)).2 c).mpr (.inr hmem)
  · exact ⟨p, (mem_defaultAdmin h p).mpr ⟨hkept, .inl ⟨hp, hid⟩⟩, hpos, hmatch, hmem⟩

theorem revoked_defaultAdmin (h : ListOk list) {c : UInt8}
    (hc : Revoked identities (defaultAdmin list) c) : Revoked identities list c := by
  obtain ⟨p, hp, hneg, hmatch, hmem⟩ := hc
  rcases ((mem_defaultAdmin h p).mp hp).2 with ⟨hold, -⟩ | ⟨hid, -⟩
  · exact ⟨p, hold, hneg, hmatch, hmem⟩
  · rw [Negative, hid] at hneg
    exact absurd hneg (adminEntry_kept list).2

end Rights

/-! ## Acceptance -/

def HasRights (identities : List UInt8 → Bool) (list : List Node) (rights : List UInt8) : Prop :=
  ∀ c ∈ rights, Granted identities list c ∧ ¬Revoked identities list c

theorem HasRights.defaultAdmin {identities : List UInt8 → Bool} {list : List Node} (h : ListOk list)
    {rights : List UInt8} (hrights : HasRights identities list rights) :
    HasRights identities (defaultAdmin list) rights := by
  intro c hc
  obtain ⟨hgranted, hrevoked⟩ := hrights c hc
  exact ⟨granted_defaultAdmin identities h hgranted,
    fun hc => hrevoked (revoked_defaultAdmin identities h hc)⟩

theorem checkRights_ok (identities : List UInt8 → Bool) (disabled : Bool) {list : List Node}
    (h : ListOk list) (chkowner : Bool) (hrule : chkowner = true → identities owner = false)
    {check : Aclt → Bool} {rights : List UInt8}
    (hcheck : ∀ aclt, check aclt = true ↔ ∀ c ∈ rights, c ∈ ascstr aclt)
    (name : Option (List UInt8)) :
    checkRights (computeChkowner (member identities) disabled list chkowner) check name = .ok () ↔
      HasRights identities list rights := by
  obtain ⟨aclt, haclt, -, hmem⟩ := computeChkowner_spec identities disabled h.canonical chkowner
  have hplain : ∀ c, c ∈ ascstr aclt ↔ Granted identities list c ∧ ¬Revoked identities list c := by
    intro c
    rw [hmem]
    refine or_iff_left ?_
    rintro ⟨-, hchk, hid, -⟩
    rw [hrule hchk] at hid
    exact Bool.false_ne_true hid
  rw [haclt]
  simp only [checkRights]
  split
  · next htrue =>
      refine ⟨fun _ c hc => (hplain c).mp ((hcheck aclt).mp htrue c hc), fun _ => rfl⟩
  · next hfalse =>
      refine ⟨nofun, fun hrights => absurd ((hcheck aclt).mpr fun c hc => ?_) hfalse⟩
      exact (hplain c).mpr (hrights c hc)

theorem checkAdminrights_iff (aclt : Aclt) :
    checkAdminrights aclt = true ↔ ∀ c ∈ [aclLookup, aclAdminister], c ∈ ascstr aclt := by
  simp [checkAdminrights]

theorem checkAllrights_iff (aclt : Aclt) :
    checkAllrights aclt = true ↔ ∀ c ∈ aclAll, c ∈ ascstr aclt := by
  simp [checkAllrights]

def ownerIs (folderOwner : Option (List UInt8)) (isme : List UInt8) : Bool :=
  folderOwner = some isme || isme = owner

theorem isOwner_eq (folderOwner : Option (List UInt8)) :
    isOwner folderOwner = member (ownerIs folderOwner) := by
  funext isme
  by_cases h1 : folderOwner = some isme <;> by_cases h2 : isme = owner <;>
    simp [isOwner, member, ownerIs, h1, h2]

theorem isAdmin_eq : isAdmin = member (· = administrators) := by
  funext isme
  simp [isAdmin, member]

def PathAccepted (path : List UInt8) : Prop :=
  pathOk (if path = [] then [byte '.'] else path) = true ∧
    ((if path = [] then [byte '.'] else path) ≠ [byte '.'] →
      emptyComponent (if path = [] then [byte '.'] else path) = false)

/-- What `maildir_acl_write` asks of a list. -/
structure Accepted (list : List Node) (folderOwner : Option (List UInt8)) : Prop where
  owner : HasRights (ownerIs none) list [aclLookup, aclAdminister]
  folderOwner : folderOwner ≠ none →
    HasRights (ownerIs folderOwner) list [aclLookup, aclAdminister]
  admin : HasRights (· = administrators) list aclAll

theorem aclWrite_ok (disabled : Bool) {list : List Node} (h : ListOk list) (path : List UInt8)
    (folderOwner : Option (List UInt8)) (file : List UInt8) :
    aclWrite disabled list path folderOwner = .ok file ↔
      PathAccepted path ∧ Accepted list folderOwner ∧ file = list.flatMap saveAcl := by
  have howner : ∀ o name, checkRights (computeChkowner (isOwner o) disabled list false)
      checkAdminrights name = .ok () ↔ HasRights (ownerIs o) list [aclLookup, aclAdminister] := by
    intro o name
    rw [isOwner_eq]
    exact checkRights_ok _ disabled h false nofun checkAdminrights_iff name
  have hadmin : checkRights (aclCompute isAdmin disabled list) checkAllrights none = .ok () ↔
      HasRights (· = administrators) list aclAll := by
    rw [isAdmin_eq]
    exact checkRights_ok _ disabled h true (fun _ => by decide) checkAllrights_iff none
  have haccepted : Accepted list folderOwner ↔
      checkRights (computeChkowner (isOwner none) disabled list false) checkAdminrights
        (some owner) = .ok () ∧
      (folderOwner ≠ none → checkRights (computeChkowner (isOwner folderOwner) disabled list false)
        checkAdminrights folderOwner = .ok ()) ∧
      checkRights (aclCompute isAdmin disabled list) checkAllrights none = .ok () := by
    rw [howner, howner, hadmin]
    exact ⟨fun h => ⟨h.owner, h.folderOwner, h.admin⟩, fun h => ⟨h.1, h.2.1, h.2.2⟩⟩
  rw [haccepted]
  simp only [aclWrite, PathAccepted, bind, Except.bind, pure, Except.pure, throw, throwThe,
    MonadExceptOf.throw]
  generalize (if path = [] then [byte '.'] else path) = path
  generalize checkRights (computeChkowner (isOwner none) disabled list false) checkAdminrights
    (some owner) = first
  generalize checkRights (computeChkowner (isOwner folderOwner) disabled list false)
    checkAdminrights folderOwner = second
  generalize checkRights (aclCompute isAdmin disabled list) checkAllrights none = third
  by_cases hpath : pathOk path = false
  · simp [hpath]
  · by_cases hempty : path ≠ [byte '.'] ∧ emptyComponent path = true
    · rw [if_neg hpath, if_pos hempty]
      exact ⟨nofun, fun h => absurd (h.1.2 hempty.1) (by rw [hempty.2]; exact nofun)⟩
    · have hgood : pathOk path = true ∧ (path ≠ [byte '.'] → emptyComponent path = false) :=
        ⟨by simpa using hpath, fun hne => by simpa [hne] using hempty⟩
      rw [if_neg hpath, if_neg hempty, and_iff_right hgood]
      cases first <;> cases folderOwner <;> cases second <;> cases third <;> simp <;> exact eq_comm

/-- Either name of the administrators stands for the same entries. -/
theorem matches_admin {admin : List UInt8} (h : admin ∈ [administrators, groupAdministrators])
    (s : List UInt8) : Matches (fun t => [admin].contains t) s ↔ Matches (· = administrators) s := by
  have hne : administrators ≠ groupAdministrators := by decide
  rw [Matches, Matches]
  refine or_congr_right (or_congr_right ?_)
  split
  · rcases List.mem_pair.mp h with rfl | rfl <;> simp [hne, Ne.symm hne]
  · next hs =>
      rcases List.mem_pair.mp h with rfl | rfl
      · simp
      · simp only [not_or] at hs
        simp [hs.1, hs.2]

/-- Writing, reading and writing again, with the rights that the default rule leaves. -/
theorem aclWrite_reread (disabled : Bool) {list : List Node} (hlist : ListReached list)
    (path : List UInt8) (folderOwner : Option (List UInt8)) {file : List UInt8}
    (hwrite : aclWrite disabled list path folderOwner = .ok file) (hshort : ShortLines list) :
    aclReadCheck false path (some file) = (0, defaultAdmin list) ∧
    (∃ file', aclWrite disabled (defaultAdmin list) path folderOwner = .ok file' ∧
      aclReadCheck false path (some file') = (0, defaultAdmin list)) ∧
    (∀ admin ∈ [administrators, groupAdministrators], ∃ aclt,
      aclComputeArray disabled (defaultAdmin list) [admin] = .ok aclt ∧
      ∀ c ∈ aclAll, c ∈ ascstr aclt) ∧
    ∃ aclt, aclComputeArray disabled (defaultAdmin list) [owner] = .ok aclt ∧
      aclLookup ∈ ascstr aclt ∧ aclAdminister ∈ ascstr aclt := by
  have h := hlist.ok
  have hok := defaultAdmin_ok h
  obtain ⟨hpath, haccepted, rfl⟩ := (aclWrite_ok disabled h path folderOwner file).mp hwrite
  have haccepted' : Accepted (defaultAdmin list) folderOwner :=
    ⟨haccepted.owner.defaultAdmin h, fun ho => (haccepted.folderOwner ho).defaultAdmin h,
      haccepted.admin.defaultAdmin h⟩
  have hread : ∀ {l : List Node}, ListOk l → ShortLines l →
      aclReadCheck false path (some (l.flatMap saveAcl)) = (0, defaultAdmin l) := by
    intro l hl hs
    have hlines := readLines_saveAcl [] l (by simpa using hl) hs (le_refl _)
    rw [List.nil_append] at hlines
    simp only [aclReadCheck, hpath.1, Bool.true_eq_false, if_false, Bool.false_eq_true, hlines,
      addDefaultAdmin_eq hl]
  have hcompute : ∀ (id : List UInt8) (rights : List UInt8),
      HasRights (fun s => [id].contains s) (defaultAdmin list) rights →
      ∃ aclt, aclComputeArray disabled (defaultAdmin list) [id] = .ok aclt ∧
        ∀ c ∈ rights, c ∈ ascstr aclt := by
    intro id rights hrights
    obtain ⟨aclt, haclt, -, hmem⟩ := computeChkowner_spec (fun s => [id].contains s) disabled
      hok.canonical true
    exact ⟨aclt, haclt, fun c hc => (hmem c).mpr (.inl (hrights c hc))⟩
  refine ⟨hread h hshort, ⟨_, (aclWrite_ok disabled hok path folderOwner _).mpr
    ⟨hpath, haccepted', rfl⟩, ?_⟩, ?_, ?_⟩
  · rw [hread hok (defaultAdmin_short h hshort), defaultAdmin_idempotent h]
  · intro admin hadmin
    refine hcompute admin aclAll fun c hc => ?_
    obtain ⟨hgranted, hrevoked⟩ := haccepted'.admin c hc
    simp only [Granted, Revoked, matches_admin hadmin]
    exact ⟨hgranted, hrevoked⟩
  · obtain ⟨aclt, haclt, hrights⟩ := hcompute owner [aclLookup, aclAdminister] (by
      have hid : (fun s => [owner].contains s) = ownerIs none := by
        funext s
        simp [ownerIs]
      rw [hid]
      exact haccepted'.owner)
    exact ⟨aclt, haclt, hrights _ (by simp), hrights _ (by simp)⟩

def postless : List Node :=
  [⟨owner, some [aclAdminister, aclLookup]⟩, ⟨administrators, some aclAll⟩,
    ⟨byte '-' :: anyone, some [byte 'p']⟩]

theorem aclWrite_reread_sample :
    aclReadCheck false [byte '.'] (some (postless.flatMap saveAcl)) = (0, postless) := by
  have hreached : ListReached postless :=
    .add (byte '-' :: anyone) (some [byte 'p']) (.add administrators (some aclAll)
      (.add owner (some [aclLookup, aclAdminister]) .init))
  have hwrite : aclWrite false postless [byte '.'] none = .ok (postless.flatMap saveAcl) := by
    rfl
  obtain ⟨hshort, hsame⟩ : ShortLines postless ∧ defaultAdmin postless = postless := by
    unfold ShortLines
    decide +kernel
  exact (aclWrite_reread false hreached [byte '.'] none hwrite hshort).1.trans (by rw [hsame])

end Cone.MaildiracltReread
