import Cone.Rfc1035Names
import Cone.Rfc1035Safety

/-! # A query read back

What `rfc1035_mkquery` writes of a name is spelled in the packet from there on: labels, and then
the end or a pointer to a suffix written for an earlier question.  The `j`th question takes `j`
pointers at most, so `rfc1035_replyparse` reads a hundred questions back. -/
set_option autoImplicit false
namespace Cone.Rfc1035Query

open Cone.Ctype Cone.Lib.Checked Cone.Lib.WireNames Cone.Lib.HostNames
open Cone.Rfc1035Reply (replyparse replyuncompress replyuncompress_eq_value Named u16
  parseQuestion parseQuestion_eq_value HeaderFits qdcount rrcount replyparse_eq replyOf)

section Equations
variable (defaultdomain : Option (List UInt8)) (qp : Query) (qs : List Query)
  {nameptr : List UInt8} {compList : List Compresslist} {s : Packet}

/-- The questions behind one that is written. -/
def following (compList : List Compresslist) (s : Packet) : Int × Packet :=
  match qs with
  | [] => (0, s)
  | q :: qs => mkpacketq defaultdomain q qs compList s

theorem mkpacketqFull_root (h : skipDots nameptr = []) :
    mkpacketqFull defaultdomain qp qs nameptr compList s =
      following defaultdomain qs compList (putRoot qp s) := by
  cases qs with
  | nil => rw [mkpacketqFull, dif_pos h, following]
  | cons q qs => rw [mkpacketqFull, dif_pos h, following, mkpacketq]

theorem mkpacketqFull_pointer (h : skipDots nameptr ≠ []) {cp : Compresslist}
    (hcp : search compList (skipDots nameptr) = some cp) :
    mkpacketqFull defaultdomain qp qs nameptr compList s =
      following defaultdomain qs compList (putPointer cp qp (skipDots nameptr) s) := by
  cases qs with
  | nil => rw [mkpacketqFull, dif_neg h, hcp, following]
  | cons q qs => rw [mkpacketqFull, dif_neg h, hcp, following, mkpacketq]

theorem mkpacketqFull_label (h : skipDots nameptr ≠ [])
    (hcp : search compList (skipDots nameptr) = none) :
    mkpacketqFull defaultdomain qp qs nameptr compList s =
      if (firstLabel (skipDots nameptr)).length > 63 then (-1, s)
      else mkpacketqFull defaultdomain qp qs (restOf (skipDots nameptr))
        (⟨s.cnt, skipDots nameptr⟩ :: compList) (putLabel (skipDots nameptr) s) := by
  rw [mkpacketqFull.eq_def, dif_neg h, hcp]

end Equations

section Search
variable {compList : List Compresslist} {name : List UInt8} {cp : Compresslist}

/-- A pointer stands for the same suffix, and its offset fits fourteen bits. -/
theorem search_eq_some (h : search compList name = some cp) :
    cp ∈ compList ∧ hostnamecmp name cp.ptr = 0 ∧ cp.offset < 2 ^ 14 := by
  have hmem := List.mem_of_find?_eq_some h
  have htest := List.find?_some h
  simp only [Bool.and_eq_true, decide_eq_true_eq] at htest
  refine ⟨hmem, htest.1, ?_⟩
  rw [← htest.2, show (0x3FFF : Nat) = 2 ^ 14 - 1 from rfl, Nat.and_two_pow_sub_one_eq_mod]
  exact Nat.mod_lt _ (by decide)

end Search

section Keys
variable {nameptr : List UInt8}

theorem key_nil (h : skipDots nameptr = []) : key nameptr = [] := by
  rw [key, labels_of_nil h, List.map_nil]

theorem key_cons (h : skipDots nameptr ≠ []) :
    key nameptr = capitals (firstLabel (skipDots nameptr)) :: key (restOf (skipDots nameptr)) := by
  rw [key, labels_of_ne_nil h, List.map_cons, key]

@[simp] theorem key_skipDots (s : List UInt8) : key (skipDots s) = key s := by
  rw [key, labels_skipDots, key]

end Keys

section Written
variable {nameptr : List UInt8} {s : Packet} {j : Nat}

def Settled (out : List UInt8) (j : Nat) (e : Compresslist) : Prop :=
  ∃ ls k, Spells out e.offset ls k ∧ k < j ∧ ls.map capitals = key e.ptr

/-- A suffix of the `j`th question, longer than `nameptr`, which is still to be written. -/
def Pending (out : List UInt8) (nameptr : List UInt8) (j : Nat) (e : Compresslist) : Prop :=
  (key nameptr).length < (key e.ptr).length ∧
    ∀ x ls k, Spells (out ++ x) out.length ls k → k ≤ j → ls.map capitals = key nameptr →
      ∃ ls', Spells (out ++ x) e.offset ls' k ∧ ls'.map capitals = key e.ptr

structure Inv (j : Nat) (nameptr : List UInt8) (compList : List Compresslist) (s : Packet) :
    Prop where
  cnt : s.cnt = s.out.length
  skipped : ∀ e ∈ compList, skipDots e.ptr = e.ptr
  entries : ∀ e ∈ compList, Settled s.out j e ∨ Pending s.out nameptr j e

structure Done (j : Nat) (qp : Query) (nameptr : List UInt8) (s t : Packet) : Prop where
  cnt : t.cnt = t.out.length
  spelled : ∃ ls k hd, t.out = s.out ++ (hd ++ qtail qp) ∧ Spells t.out s.out.length ls k ∧
    Ends t.out s.out.length (s.out.length + hd.length) ∧ k ≤ j ∧ ls.map capitals = key nameptr

theorem Settled.append {out x : List UInt8} {e : Compresslist} (h : Settled out j e) :
    Settled (out ++ x) (j + 1) e := by
  obtain ⟨ls, k, hs, hk, hkey⟩ := h
  exact ⟨ls, k, hs.append, by omega, hkey⟩

/-- Once a question is written, all suffixes are spelled. -/
theorem Inv.done {compList : List Compresslist} {t : Packet} {qp : Query} (hs : Inv j nameptr compList s)
    (ht : Done j qp nameptr s t) (name : List UInt8) : Inv (j + 1) name compList t := by
  obtain ⟨ls, k, hd, hout, hspell, -, hk, hkey⟩ := ht.spelled
  refine ⟨ht.cnt, hs.skipped, ?_⟩
  intro e he
  left
  rcases hs.entries e he with hsettled | ⟨-, hpending⟩
  · rw [hout]
    exact hsettled.append
  · rw [hout] at hspell ⊢
    obtain ⟨ls', hs', hkey'⟩ := hpending _ ls k hspell hk hkey
    exact ⟨ls', k, hs', by omega, hkey'⟩

theorem done_root {compList : List Compresslist} (qp : Query) (hs : Inv j nameptr compList s)
    (h : skipDots nameptr = []) : Done j qp nameptr s (putRoot qp s) := by
  have hroot : item (putRoot qp s).out s.out.length = .root := item_root_at s.out (qtail qp)
  constructor
  · simp [putRoot, Packet.put, hs.cnt]
  · refine ⟨[], 0, [0], rfl, .root hroot, .root hroot, Nat.zero_le _, ?_⟩
    rw [key_nil h]
    rfl

theorem done_pointer {compList : List Compresslist} {cp : Compresslist} (qp : Query)
    (hs : Inv j nameptr compList s) (hcp : search compList (skipDots nameptr) = some cp) :
    Done j qp nameptr s (putPointer cp qp (skipDots nameptr) s) := by
  obtain ⟨hmem, hcmp, hoffset⟩ := search_eq_some hcp
  have hkey : key nameptr = key cp.ptr := by
    apply key_eq_of_hostnamecmp
    rw [hs.skipped cp hmem]
    exact hcmp
  have hpointer : item (putPointer cp qp (skipDots nameptr) s).out s.out.length =
      .pointer cp.offset := item_pointer_at s.out (qtail qp) hoffset
  constructor
  · simp [putPointer, Packet.put, Packet.note, hs.cnt]
  · rcases hs.entries cp hmem with ⟨ls, k, hspell, hk, hls⟩ | ⟨hlonger, -⟩
    · refine ⟨ls, k + 1, [_, _], rfl, .pointer hpointer hspell.append, .pointer hpointer, hk, ?_⟩
      rw [hls, hkey]
    · rw [hkey] at hlonger
      exact absurd hlonger (Nat.lt_irrefl _)

end Written

section Label
variable {nameptr : List UInt8} {s : Packet} {j : Nat}

theorem putLabel_out (nameptr : List UInt8) (s : Packet) :
    (putLabel nameptr s).out =
      s.out ++ (firstLabel nameptr).length.toUInt8 :: firstLabel nameptr := rfl

theorem putLabel_length (nameptr : List UInt8) (s : Packet) :
    (putLabel nameptr s).out.length = s.out.length + 1 + (firstLabel nameptr).length := by
  rw [putLabel_out, List.length_append, List.length_cons]
  omega

theorem item_putLabel (hne : firstLabel nameptr ≠ []) (hle : (firstLabel nameptr).length ≤ 63)
    (x : List UInt8) :
    item ((putLabel nameptr s).out ++ x) s.out.length = .label (firstLabel nameptr).length ∧
      (((putLabel nameptr s).out ++ x).drop (s.out.length + 1)).take (firstLabel nameptr).length =
        firstLabel nameptr := by
  rw [putLabel_out, List.append_assoc, List.cons_append]
  apply And.intro (item_label_at s.out _ (List.length_pos_iff.mpr hne) hle)
  rw [List.drop_append, List.drop_of_length_le (by omega), List.nil_append,
    show s.out.length + 1 - s.out.length = 1 by omega, List.drop_succ_cons, List.drop_zero,
    List.take_left']
  rfl

theorem spells_putLabel (hne : firstLabel nameptr ≠ []) (hle : (firstLabel nameptr).length ≤ 63)
    {x : List UInt8} {ls : List (List UInt8)} {k : Nat}
    (h : Spells ((putLabel nameptr s).out ++ x) (putLabel nameptr s).out.length ls k) :
    Spells ((putLabel nameptr s).out ++ x) s.out.length (firstLabel nameptr :: ls) k := by
  obtain ⟨hitem, htext⟩ := item_putLabel (s := s) hne hle x
  rw [putLabel_length] at h
  have hspell := Spells.label hitem h
  rwa [htext] at hspell

theorem ends_putLabel (hne : firstLabel nameptr ≠ []) (hle : (firstLabel nameptr).length ≤ 63)
    {x : List UInt8} {e : Nat}
    (h : Ends ((putLabel nameptr s).out ++ x) (putLabel nameptr s).out.length e) :
    Ends ((putLabel nameptr s).out ++ x) s.out.length e := by
  rw [putLabel_length] at h
  exact .label (item_putLabel hne hle x).1 h

theorem Inv.label {compList : List Compresslist} (hs : Inv j nameptr compList s)
    (hne : skipDots nameptr ≠ []) (hle : (firstLabel (skipDots nameptr)).length ≤ 63) :
    Inv j (restOf (skipDots nameptr)) (⟨s.cnt, skipDots nameptr⟩ :: compList)
      (putLabel (skipDots nameptr) s) := by
  have hlabel := firstLabel_ne_nil hne
  have hkey := key_cons hne
  have hlen : (key (restOf (skipDots nameptr))).length < (key nameptr).length := by
    rw [hkey, List.length_cons]
    omega
  -- what the rest of the name spells, the suffix spells with its label
  have hthis : ∀ x ls k,
      Spells ((putLabel (skipDots nameptr) s).out ++ x) (putLabel (skipDots nameptr) s).out.length ls k →
      ls.map capitals = key (restOf (skipDots nameptr)) →
        Spells ((putLabel (skipDots nameptr) s).out ++ x) s.out.length
          (firstLabel (skipDots nameptr) :: ls) k ∧
          (firstLabel (skipDots nameptr) :: ls).map capitals = key nameptr := by
    intro x ls k hspell hls
    apply And.intro (spells_putLabel hlabel hle hspell)
    rw [List.map_cons, hls, hkey]
  constructor
  · simp [putLabel, Packet.put, Packet.note, hs.cnt]
  · intro e he
    rcases List.mem_cons.mp he with rfl | he
    · exact skipDots_skipDots nameptr
    · exact hs.skipped e he
  · intro e he
    rcases List.mem_cons.mp he with rfl | he
    · right
      constructor
      · rw [key_skipDots]
        exact hlen
      · intro x ls k hspell _ hls
        obtain ⟨hspell', hls'⟩ := hthis x ls k hspell hls
        rw [hs.cnt, key_skipDots]
        exact ⟨_, hspell', hls'⟩
    · rcases hs.entries e he with ⟨ls, k, hspell, hk, hls⟩ | ⟨hlonger, hpending⟩
      · left
        exact ⟨ls, k, hspell.append, hk, hls⟩
      · right
        apply And.intro (Nat.lt_trans hlen hlonger)
        intro x ls k hspell hk hls
        obtain ⟨hspell', hls'⟩ := hthis x ls k hspell hls
        rw [putLabel_out, List.append_assoc] at hspell' ⊢
        exact hpending _ _ k hspell' hk hls'

end Label

section Asked
variable (defaultdomain : Option (List UInt8))

def Asked (b : List UInt8) (j start : Nat) (qp : Query) (name : List UInt8) (next : Nat) : Prop :=
  ∃ ls k e, Spells b start ls k ∧ Ends b start e ∧ k ≤ j ∧ ls.map capitals = key name ∧
    u16 b e = qp.qtype.toNat % 2 ^ 16 ∧ u16 b (e + 2) = qp.qclass.toNat % 2 ^ 16 ∧
    next = e + 4 ∧ next ≤ b.length

def AskedAll (b : List UInt8) : Nat → Nat → List Query → Prop
  | _, start, [] => start = b.length
  | j, start, qp :: qs => ∃ next,
    Asked b j start qp (completed defaultdomain qp.name) next ∧ AskedAll b (j + 1) next qs

theorem u16_be16 (a x : List UInt8) (n : UInt32) :
    u16 (a ++ (be16 n ++ x)) a.length = n.toNat % 2 ^ 16 := by
  have hhi : (n >>> 8).toUInt8.toNat = n.toNat / 2 ^ 8 % 2 ^ 8 := by
    simp [Nat.shiftRight_eq_div_pow]
  have hlo : n.toUInt8.toNat = n.toNat % 2 ^ 8 := by simp
  have h₀ : (a ++ (be16 n ++ x)).getD a.length 0 = (n >>> 8).toUInt8 := by
    rw [List.getD_eq_getElem?_getD, List.getElem?_append_right (Nat.le_refl _), Nat.sub_self]
    rfl
  have h₁ : (a ++ (be16 n ++ x)).getD (a.length + 1) 0 = n.toUInt8 := by
    rw [List.getD_eq_getElem?_getD, List.getElem?_append_right (Nat.le_add_right _ 1),
      Nat.add_sub_cancel_left]
    rfl
  rw [u16, h₀, h₁, hhi, hlo]
  omega

theorem asked_of_done {j : Nat} {qp : Query} {nameptr : List UInt8} {s t : Packet}
    (h : Done j qp nameptr s t) (x : List UInt8) :
    Asked (t.out ++ x) j s.out.length qp nameptr t.out.length := by
  obtain ⟨ls, k, hd, hout, hspell, hend, hk, hkey⟩ := h.spelled
  have hlen : t.out.length = s.out.length + hd.length + 4 := by
    simp [hout, qtail, be16]
    omega
  have htype : t.out ++ x =
      (s.out ++ hd) ++ (be16 qp.qtype ++ (be16 qp.qclass ++ x)) := by
    rw [hout, qtail]
    simp only [List.append_assoc]
  have hclass : t.out ++ x =
      (s.out ++ hd ++ be16 qp.qtype) ++ (be16 qp.qclass ++ x) := by
    rw [htype]
    simp only [List.append_assoc]
  refine ⟨ls, k, s.out.length + hd.length, hspell.append, hend.append, hk, hkey, ?_, ?_, hlen, ?_⟩
  · rw [htype, ← List.length_append]
    exact u16_be16 _ _ _
  · rw [hclass]
    have hplace : s.out.length + hd.length + 2 = (s.out ++ hd ++ be16 qp.qtype).length := by
      simp [be16]
      omega
    rw [hplace]
    exact u16_be16 _ _ _
  · rw [List.length_append]
    omega

def Short (name : List UInt8) : Prop := ∀ l ∈ labels name, l.length ≤ 63

theorem short_restOf {name : List UInt8} (h : Short name) (hne : skipDots name ≠ []) :
    (firstLabel (skipDots name)).length ≤ 63 ∧ Short (restOf (skipDots name)) := by
  rw [Short, labels_of_ne_nil hne] at h
  exact ⟨h _ List.mem_cons_self, fun l hl => h l (List.mem_cons_of_mem _ hl)⟩

def Writes (j : Nat) (qp : Query) (qs : List Query) (nameptr : List UInt8) (s t : Packet) : Prop :=
  ∃ x next, t.out = s.out ++ x ∧ Asked t.out j s.out.length qp nameptr next ∧
    AskedAll defaultdomain t.out (j + 1) next qs

/-- Once a question is written, only the others are left. -/
theorem writes_of_done {j : Nat} {qp : Query} {qs : List Query} {nameptr : List UInt8}
    {compList : List Compresslist} {s s' : Packet} (hs : Inv j nameptr compList s)
    (hdone : Done j qp nameptr s s')
    (hrest : ∀ q qs', qs = q :: qs' → Inv (j + 1) (completed defaultdomain q.name) compList s' →
      ∃ t, mkpacketq defaultdomain q qs' compList s' = (0, t) ∧
        Writes defaultdomain (j + 1) q qs' (completed defaultdomain q.name) s' t) :
    ∃ t, following defaultdomain qs compList s' = (0, t) ∧
      Writes defaultdomain j qp qs nameptr s t := by
  obtain ⟨-, -, hd, hout, -⟩ := hdone.spelled
  cases qs with
  | nil =>
      have hasked := asked_of_done hdone []
      rw [List.append_nil] at hasked
      exact ⟨s', rfl, _, _, hout, hasked, rfl⟩
  | cons q qs =>
      obtain ⟨t, hrun, x, next, hout', hasked', hall⟩ := hrest q qs rfl (hs.done hdone _)
      have hasked := asked_of_done hdone x
      rw [← hout'] at hasked
      refine ⟨t, hrun, hd ++ qtail qp ++ x, s'.out.length, ?_, hasked, next, hasked', hall⟩
      rw [hout', hout]
      simp only [List.append_assoc]

theorem mkpacketqFull_writes {j : Nat} {qp : Query} {qs : List Query} {nameptr : List UInt8}
    {compList : List Compresslist} {s : Packet} (hs : Inv j nameptr compList s)
    (hname : Short nameptr) (hnames : ∀ q ∈ qs, Short (completed defaultdomain q.name)) :
    ∃ t, mkpacketqFull defaultdomain qp qs nameptr compList s = (0, t) ∧
      Writes defaultdomain j qp qs nameptr s t := by
  induction qp, qs, nameptr, compList, s using mkpacketqFull.induct defaultdomain
    generalizing j with
  | case1 qp nameptr compList s h =>
      rw [mkpacketqFull_root defaultdomain qp [] h]
      exact writes_of_done defaultdomain hs (done_root qp hs h) nofun
  | case2 qp nameptr compList s h q qs ih =>
      rw [mkpacketqFull_root defaultdomain qp _ h]
      apply writes_of_done defaultdomain hs (done_root qp hs h)
      intro q' qs' heq hs'
      cases heq
      exact ih hs' (hnames q (by simp)) fun q' hq' => hnames q' (by simp [hq'])
  | case3 qp nameptr compList s h cp hcp =>
      rw [mkpacketqFull_pointer defaultdomain qp [] h hcp]
      exact writes_of_done defaultdomain hs (done_pointer qp hs hcp) nofun
  | case4 qp nameptr compList s h cp hcp q qs ih =>
      rw [mkpacketqFull_pointer defaultdomain qp _ h hcp]
      apply writes_of_done defaultdomain hs (done_pointer qp hs hcp)
      intro q' qs' heq hs'
      cases heq
      exact ih hs' (hnames q (by simp)) fun q' hq' => hnames q' (by simp [hq'])
  | case5 qp qs nameptr compList s h hcp hlong =>
      have := (short_restOf hname h).1
      omega
  | case6 qp qs nameptr compList s h hcp hlong ih =>
      obtain ⟨hle, hrest⟩ := short_restOf hname h
      obtain ⟨t, hrun, x, next, hout, hasked, hall⟩ := ih (hs.label h hle) hrest hnames
      rw [mkpacketqFull_label defaultdomain qp qs h hcp, if_neg hlong]
      refine ⟨t, hrun, (firstLabel (skipDots nameptr)).length.toUInt8 ::
        firstLabel (skipDots nameptr) ++ x, next, ?_, ?_, hall⟩
      · rw [hout, putLabel_out, List.append_assoc]
      · obtain ⟨ls, k, e, hspell, hend, hk, hkey, hrest'⟩ := hasked
        rw [hout] at hspell hend ⊢
        have hlabel := firstLabel_ne_nil h
        refine ⟨_, k, e, spells_putLabel hlabel hle hspell, ends_putLabel hlabel hle hend, hk, ?_, ?_⟩
        · rw [List.map_cons, hkey, key_cons h]
        · rw [← hout]
          exact hrest'

end Asked

section ReadBack
variable (defaultdomain : Option (List UInt8)) {b : List UInt8}

/-- The parsed question has the type and the class of `q`, of which the packet has 16 bits, and
uncompressing its name gives the name of `q`. -/
def ReadBack (b : List UInt8) (a : Rfc1035Reply.Query) (q : Query) : Prop :=
  a.qtype = q.qtype.toNat % 2 ^ 16 ∧ a.qclass = q.qclass.toNat % 2 ^ 16 ∧
    ∃ name p, replyuncompress b a.name true = .value (name, p) ∧
      hostnamecmp name (skipDots (completed defaultdomain q.name)) = 0

theorem askedAll_length {j start : Nat} {qs : List Query} (h : AskedAll defaultdomain b j start qs) :
    start + 5 * qs.length ≤ b.length := by
  induction qs generalizing j start with
  | nil =>
      have hstart : start = b.length := h
      rw [List.length_nil]
      omega
  | cons q qs ih =>
      obtain ⟨next, ⟨ls, k, e, -, hend, -, -, -, -, hnext, -⟩, hrest⟩ := h
      have hlt := hend.lt
      have hle := ih hrest
      rw [List.length_cons]
      omega

theorem named_of_spells {start j k e : Nat} {ls : List (List UInt8)} {name : List UInt8}
    (hspell : Spells b start ls k) (hend : Ends b start e) (hk : k ≤ j) (hj : j ≤ 100)
    (hkey : ls.map capitals = key name) (hlen : name.length ≤ 255) : Named b start e ls := by
  refine ⟨k, hspell, by omega, ?_, hend⟩
  have hdotted : dottedLen 0 ls = dottedLen 0 (labels name) := by
    rw [← dottedLen_map (f := toupper) 0 ls, ← dottedLen_map (f := toupper) 0 (labels name)]
    exact congrArg (dottedLen 0) hkey
  rw [hdotted]
  exact Nat.le_trans (dottedLen_labels_le name) hlen

theorem many_of_askedAll {j start : Nat} {qs : List Query}
    (h : AskedAll defaultdomain b j start qs) (hj : j + qs.length ≤ 100)
    (hlen : ∀ q ∈ qs, (completed defaultdomain q.name).length ≤ 255) :
    ∃ as, many (parseQuestion b) qs.length ⟨.reply, start⟩ = .value (as, ⟨.reply, b.length⟩) ∧
      List.Forall₂ (ReadBack defaultdomain b) as qs := by
  induction qs generalizing j start with
  | nil =>
      have hstart : start = b.length := h
      rw [hstart]
      exact ⟨[], rfl, .nil⟩
  | cons q qs ih =>
      obtain ⟨next, ⟨ls, k, e, hspell, hend, hk, hkey, htype, hclass, hnext, hinside⟩, hrest⟩ := h
      rw [List.length_cons] at hj
      obtain ⟨as, hmany, hall⟩ := ih hrest (by omega) fun q' hq' => hlen q' (by simp [hq'])
      have hnamed := named_of_spells hspell hend hk (by omega) hkey (hlen q (by simp))
      have hquestion : parseQuestion b ⟨.reply, start⟩ =
          .value (⟨⟨.reply, start⟩, u16 b e, u16 b (e + 2)⟩, ⟨.reply, next⟩) := by
        rw [parseQuestion_eq_value]
        exact ⟨e, ls, hnamed, by omega, rfl, by rw [hnext]⟩
      refine ⟨⟨⟨.reply, start⟩, u16 b e, u16 b (e + 2)⟩ :: as, ?_, .cons ⟨htype, hclass, ?_⟩ hall⟩
      · rw [List.length_cons, many, hquestion, value_bind]
        dsimp only
        rw [hmany]
        rfl
      · refine ⟨dotted [] ls, ⟨.reply, e⟩, ?_, hostnamecmp_dotted hkey⟩
        exact replyuncompress_eq_value.mpr ⟨e, ls, hnamed, rfl, rfl⟩

theorem header_counts (id opcode options : Nat) {n : Nat} (hn : n ≤ 100) (x : List UInt8) :
    qdcount (header id opcode options n ++ x) = n ∧
      rrcount (header id opcode options n ++ x) = 0 := by
  have hhi : (n / 2 ^ 8).toUInt8.toNat = 0 := by
    rw [Nat.toUInt8, UInt8.toNat_ofNat']
    omega
  have hlo : n.toUInt8.toNat = n := by
    rw [Nat.toUInt8, UInt8.toNat_ofNat']
    omega
  have hq : qdcount (header id opcode options n ++ x) =
      (n / 2 ^ 8).toUInt8.toNat * 2 ^ 8 + n.toUInt8.toNat := by
    simp [qdcount, u16, header]
  constructor
  · rw [hq, hhi, hlo]
    omega
  · simp [rrcount, u16, header]

theorem replyparse_of_askedAll {id opcode options : Nat} {x : List UInt8} {qs : List Query}
    (hn : qs.length ≤ 100)
    (hb : b = header id opcode options qs.length ++ x)
    (h : AskedAll defaultdomain b 0 12 qs)
    (hlen : ∀ q ∈ qs, (completed defaultdomain q.name).length ≤ 255) :
    ∃ r, replyparse b = .value r ∧ List.Forall₂ (ReadBack defaultdomain b) r.qdptr qs := by
  obtain ⟨hqd, hrr⟩ := header_counts id opcode options hn x
  rw [← hb] at hqd hrr
  have hroom := askedAll_length defaultdomain h
  have hfits : HeaderFits b := ⟨by omega, by omega⟩
  obtain ⟨as, hmany, hall⟩ := many_of_askedAll defaultdomain h (by omega) hlen
  rw [rrcount] at hrr
  have hzero : u16 b 6 = 0 ∧ u16 b 8 = 0 ∧ u16 b 10 = 0 := by omega
  refine ⟨replyOf b as [] [] [], ?_, hall⟩
  rw [replyparse_eq, if_pos hfits, hqd, hmany, value_bind, hzero.1, hzero.2.1, hzero.2.2]
  rfl

end ReadBack

section Log
variable (defaultdomain : Option (List UInt8))

def PointersSound (log : List Event) : Prop :=
  ∀ before offset suffix after, log = before ++ .pointed offset suffix :: after →
    offset < 16384 ∧ ∃ earlier, .wrote offset earlier ∈ before ∧ hostnamecmp suffix earlier = 0

structure Logged (compList : List Compresslist) (s : Packet) : Prop where
  sound : PointersSound s.log
  wrote : ∀ e ∈ compList, .wrote e.offset e.ptr ∈ s.log

theorem pointersSound_append {log : List Event} {e : Event} (h : PointersSound log)
    (he : ∀ offset suffix, e = .pointed offset suffix → offset < 16384 ∧
      ∃ earlier, .wrote offset earlier ∈ log ∧ hostnamecmp suffix earlier = 0) :
    PointersSound (log ++ [e]) := by
  intro before offset suffix after heq
  rcases List.eq_nil_or_concat after with rfl | ⟨after', e', rfl⟩
  · obtain ⟨rfl, hlast⟩ := List.append_inj' heq rfl
    exact he offset suffix (List.cons.inj hlast).1
  · rw [List.concat_eq_append, ← List.cons_append, ← List.append_assoc] at heq
    obtain ⟨hlog, -⟩ := List.append_inj' heq rfl
    exact h before offset suffix after' hlog

theorem Logged.pointer {compList : List Compresslist} {s : Packet} {cp : Compresslist}
    {nameptr : List UInt8} (qp : Query) (h : Logged compList s)
    (hcp : search compList nameptr = some cp) :
    Logged compList (putPointer cp qp nameptr s) := by
  obtain ⟨hmem, hcmp, hoffset⟩ := search_eq_some hcp
  constructor
  · apply pointersSound_append h.sound
    intro offset suffix he
    cases he
    exact ⟨hoffset, cp.ptr, h.wrote cp hmem, hcmp⟩
  · intro e he
    exact List.mem_append_left _ (h.wrote e he)

theorem Logged.label {compList : List Compresslist} {s : Packet} {nameptr : List UInt8}
    (h : Logged compList s) :
    Logged (⟨s.cnt, nameptr⟩ :: compList) (putLabel nameptr s) := by
  constructor
  · apply pointersSound_append h.sound
    intro offset suffix he
    cases he
  · intro e he
    rcases List.mem_cons.mp he with rfl | he
    · exact List.mem_append_right _ List.mem_cons_self
    · exact List.mem_append_left _ (h.wrote e he)

theorem mkpacketqFull_logged {compList : List Compresslist} {s : Packet} (h : Logged compList s)
    (qp : Query) (qs : List Query) (nameptr : List UInt8) :
    PointersSound (mkpacketqFull defaultdomain qp qs nameptr compList s).2.log := by
  induction qp, qs, nameptr, compList, s using mkpacketqFull.induct defaultdomain with
  | case1 qp nameptr compList s hend =>
      rw [mkpacketqFull_root defaultdomain qp [] hend]
      exact h.sound
  | case2 qp nameptr compList s hend q qs ih =>
      rw [mkpacketqFull_root defaultdomain qp _ hend]
      exact ih ⟨h.sound, h.wrote⟩
  | case3 qp nameptr compList s hne cp hcp =>
      rw [mkpacketqFull_pointer defaultdomain qp [] hne hcp]
      exact (h.pointer qp hcp).sound
  | case4 qp nameptr compList s hne cp hcp q qs ih =>
      rw [mkpacketqFull_pointer defaultdomain qp _ hne hcp]
      exact ih (h.pointer qp hcp)
  | case5 qp qs nameptr compList s hne hcp hlong =>
      rw [mkpacketqFull_label defaultdomain qp qs hne hcp, if_pos hlong]
      exact h.sound
  | case6 qp qs nameptr compList s hne hcp hlong ih =>
      rw [mkpacketqFull_label defaultdomain qp qs hne hcp, if_neg hlong]
      exact ih h.label

end Log

section Long
variable (defaultdomain : Option (List UInt8))

def NoLong (nameptr : List UInt8) (compList : List Compresslist) : Prop :=
  ∀ e ∈ compList, skipDots e.ptr = e.ptr ∧ (Short nameptr → Short e.ptr) ∧
    (Short e.ptr ∨ (key nameptr).length < (key e.ptr).length)

theorem NoLong.next {nameptr : List UInt8} {compList : List Compresslist}
    (h : NoLong nameptr compList) (hshort : Short nameptr) (name : List UInt8) :
    NoLong name compList := by
  intro e he
  obtain ⟨hskip, himp, -⟩ := h e he
  exact ⟨hskip, fun _ => himp hshort, Or.inl (himp hshort)⟩

theorem short_of_key {s t : List UInt8} (h : key s = key t) (ht : Short t) : Short s := by
  have hlen : (labels s).map List.length = (labels t).map List.length := by
    have hmap : ∀ s, (key s).map List.length = (labels s).map List.length := by
      intro s
      rw [key, List.map_map]
      congr 1
      funext l
      exact List.length_map _
    rw [← hmap, ← hmap, h]
  intro l hl
  have hmem : l.length ∈ (labels t).map List.length := by
    rw [← hlen]
    exact List.mem_map_of_mem hl
  obtain ⟨l', hl', heq⟩ := List.mem_map.mp hmem
  rw [← heq]
  exact ht l' hl'

theorem short_of_search {nameptr : List UInt8} {compList : List Compresslist} {cp : Compresslist}
    (h : NoLong nameptr compList) (hcp : search compList (skipDots nameptr) = some cp) :
    Short nameptr := by
  obtain ⟨hmem, hcmp, -⟩ := search_eq_some hcp
  obtain ⟨hskip, -, hcases⟩ := h cp hmem
  have hkey : key nameptr = key cp.ptr := by
    apply key_eq_of_hostnamecmp
    rw [hskip]
    exact hcmp
  rcases hcases with hshort | hlonger
  · exact short_of_key hkey hshort
  · rw [hkey] at hlonger
    exact absurd hlonger (Nat.lt_irrefl _)

theorem short_skipDots {s : List UInt8} : Short (skipDots s) ↔ Short s := by
  rw [Short, labels_skipDots, Short]

theorem NoLong.label {nameptr : List UInt8} {compList : List Compresslist}
    (h : NoLong nameptr compList) (hne : skipDots nameptr ≠ [])
    (hle : (firstLabel (skipDots nameptr)).length ≤ 63) (offset : Nat) :
    NoLong (restOf (skipDots nameptr)) (⟨offset, skipDots nameptr⟩ :: compList) := by
  have hshort : Short (restOf (skipDots nameptr)) → Short nameptr := by
    intro hrest
    rw [Short, labels_of_ne_nil hne]
    intro l hl
    rcases List.mem_cons.mp hl with rfl | hl
    · exact hle
    · exact hrest l hl
  have hlen : (key (restOf (skipDots nameptr))).length < (key nameptr).length := by
    rw [key_cons hne, List.length_cons]
    omega
  intro e he
  rcases List.mem_cons.mp he with rfl | he
  · refine ⟨skipDots_skipDots nameptr, fun hrest => short_skipDots.mpr (hshort hrest), Or.inr ?_⟩
    rw [key_skipDots]
    exact hlen
  · obtain ⟨hskip, himp, hcases⟩ := h e he
    refine ⟨hskip, fun hrest => himp (hshort hrest), ?_⟩
    exact hcases.imp_right fun hlonger => Nat.lt_trans hlen hlonger

theorem mkpacketqFull_long {qp : Query} {qs : List Query} {nameptr : List UInt8}
    {compList : List Compresslist} {s : Packet} (h : NoLong nameptr compList)
    (hlong : ¬ Short nameptr ∨ ∃ q ∈ qs, ¬ Short (completed defaultdomain q.name)) :
    (mkpacketqFull defaultdomain qp qs nameptr compList s).1 = -1 := by
  -- once the name at hand is short, the long one is among the questions behind it
  have hlater : ∀ {nameptr : List UInt8} {q : Query} {qs : List Query}, Short nameptr →
      (¬ Short nameptr ∨ ∃ q' ∈ q :: qs, ¬ Short (completed defaultdomain q'.name)) →
        ¬ Short (completed defaultdomain q.name) ∨
          ∃ q' ∈ qs, ¬ Short (completed defaultdomain q'.name) := by
    intro nameptr q qs hshort hlong
    obtain ⟨q', hq', hlong'⟩ := hlong.resolve_left (not_not.mpr hshort)
    rcases List.mem_cons.mp hq' with rfl | hq'
    · exact Or.inl hlong'
    · exact Or.inr ⟨q', hq', hlong'⟩
  induction qp, qs, nameptr, compList, s using mkpacketqFull.induct defaultdomain with
  | case1 qp nameptr compList s hend =>
      have hshort : Short nameptr := by
        rw [Short, labels_of_nil hend]
        nofun
      obtain ⟨q', hq', -⟩ := hlong.resolve_left (not_not.mpr hshort)
      cases hq'
  | case2 qp nameptr compList s hend q qs ih =>
      have hshort : Short nameptr := by
        rw [Short, labels_of_nil hend]
        nofun
      rw [mkpacketqFull_root defaultdomain qp _ hend]
      exact ih (h.next hshort _) (hlater hshort hlong)
  | case3 qp nameptr compList s hne cp hcp =>
      obtain ⟨q', hq', -⟩ := hlong.resolve_left (not_not.mpr (short_of_search h hcp))
      cases hq'
  | case4 qp nameptr compList s hne cp hcp q qs ih =>
      have hshort := short_of_search h hcp
      rw [mkpacketqFull_pointer defaultdomain qp _ hne hcp]
      exact ih (h.next hshort _) (hlater hshort hlong)
  | case5 qp qs nameptr compList s hne hcp hover =>
      rw [mkpacketqFull_label defaultdomain qp qs hne hcp, if_pos hover]
  | case6 qp qs nameptr compList s hne hcp hover ih =>
      rw [mkpacketqFull_label defaultdomain qp qs hne hcp, if_neg hover]
      apply ih (h.label hne (by omega) s.cnt)
      refine hlong.imp_left fun hname hrest => hname ?_
      rw [Short, labels_of_ne_nil hne]
      intro l hl
      rcases List.mem_cons.mp hl with rfl | hl
      · omega
      · exact hrest l hl

end Long

section Query
variable (defaultdomain : Option (List UInt8))

def started (id opcode options : Nat) (qs : List Query) : Packet :=
  ⟨header id opcode options qs.length, 12, []⟩

theorem mkquery_cons (id opcode options : Nat) (qp : Query) (qs : List Query) :
    mkquery defaultdomain id opcode options (qp :: qs) =
      mkpacketqFull defaultdomain qp qs (completed defaultdomain qp.name) []
        (started id opcode options (qp :: qs)) := rfl

theorem inv_started (id opcode options : Nat) (qs : List Query) (name : List UInt8) :
    Inv 0 name [] (started id opcode options qs) := ⟨rfl, nofun, nofun⟩

theorem logged_started (id opcode options : Nat) (qs : List Query) :
    Logged [] (started id opcode options qs) := by
  constructor
  · intro before offset suffix after h
    cases before <;> cases h
  · nofun

theorem noLong_nil (name : List UInt8) : NoLong name [] := nofun

theorem mkquery_parsed (id opcode options : Nat) {qs : List Query} (hpos : 1 ≤ qs.length)
    (hle : qs.length ≤ 100) (hnames : ∀ q ∈ qs, Short (completed defaultdomain q.name) ∧
      (completed defaultdomain q.name).length ≤ Rfc1035Reply.RFC1035_MAXNAMESIZE) :
    ∃ s r, mkquery defaultdomain id opcode options qs = (0, s) ∧ replyparse s.out = .value r ∧
      List.Forall₂ (ReadBack defaultdomain s.out) r.qdptr qs ∧ PointersSound s.log := by
  cases qs with
  | nil => cases hpos
  | cons qp qs =>
      rw [mkquery_cons]
      have hlog := mkpacketqFull_logged defaultdomain
        (logged_started id opcode options (qp :: qs)) qp qs (completed defaultdomain qp.name)
      obtain ⟨t, hrun, x, next, hout, hasked, hall⟩ := mkpacketqFull_writes defaultdomain
        (inv_started id opcode options (qp :: qs) _) (hnames qp List.mem_cons_self).1
        fun q hq => (hnames q (List.mem_cons_of_mem _ hq)).1
      obtain ⟨r, hparse, hback⟩ := replyparse_of_askedAll defaultdomain hle hout
        ⟨next, hasked, hall⟩ fun q hq => (hnames q hq).2
      rw [hrun] at hlog
      exact ⟨t, r, hrun, hparse, hback, hlog⟩

theorem mkquery_overlong (id opcode options : Nat) {qs : List Query}
    (h : ∃ q ∈ qs, ∃ l ∈ labels (completed defaultdomain q.name), 63 < l.length) :
    (mkquery defaultdomain id opcode options qs).1 = -1 := by
  obtain ⟨q, hq, l, hl, hlong⟩ := h
  have hnot : ¬ Short (completed defaultdomain q.name) := by
    intro hshort
    exact absurd (hshort l hl) (Nat.not_le_of_lt hlong)
  cases qs with
  | nil => cases hq
  | cons qp qs =>
      rw [mkquery_cons]
      apply mkpacketqFull_long defaultdomain (noLong_nil _)
      rcases List.mem_cons.mp hq with rfl | hq
      · exact Or.inl hnot
      · exact Or.inr ⟨q, hq, hnot⟩

/-- For 1 to 100 questions whose names have labels of 63 characters at most and 255 in all, the
packet is parsed into the same questions, and every pointer in it is sound; a label of more than
63 characters makes the call fail, whatever the questions are. -/
theorem mkquery_readBack (id opcode options : Nat) :
    (∀ qs : List Query, 1 ≤ qs.length → qs.length ≤ 100 →
      (∀ q ∈ qs, Short (completed defaultdomain q.name) ∧
        (completed defaultdomain q.name).length ≤ Rfc1035Reply.RFC1035_MAXNAMESIZE) →
      ∃ s r, mkquery defaultdomain id opcode options qs = (0, s) ∧ replyparse s.out = .value r ∧
        List.Forall₂ (ReadBack defaultdomain s.out) r.qdptr qs ∧ PointersSound s.log) ∧
    ∀ qs : List Query, (∃ q ∈ qs, ∃ l ∈ labels (completed defaultdomain q.name), 63 < l.length) →
      (mkquery defaultdomain id opcode options qs).1 = -1 :=
  ⟨fun _ hpos hle hnames => mkquery_parsed defaultdomain id opcode options hpos hle hnames,
    fun _ h => mkquery_overlong defaultdomain id opcode options h⟩

/-- Of a type the packet has 16 bits: 65536 comes back as 0. -/
theorem qtype_not_read_back :
    ¬ ∀ (id opcode options : Nat) (qs : List Query), 1 ≤ qs.length → qs.length ≤ 100 →
      (∀ q ∈ qs, Short (completed none q.name) ∧
        (completed none q.name).length ≤ Rfc1035Reply.RFC1035_MAXNAMESIZE) →
      ∃ r, replyparse (mkquery none id opcode options qs).2.out = .value r ∧
        List.Forall₂ (fun a q => a.qtype = q.qtype.toNat) r.qdptr qs := by
  intro h
  let q : Query := ⟨[byte 'a'], 65536, 1⟩
  have hlabel : ∀ l ∈ [[byte 'a']], IsLabel l := by
    intro l hl
    rw [List.mem_singleton] at hl
    rw [hl]
    exact ⟨List.cons_ne_nil _ _, List.forall_mem_singleton.mpr rfl⟩
  have hnames : ∀ q' ∈ [q], Short (completed none q'.name) ∧
      (completed none q'.name).length ≤ Rfc1035Reply.RFC1035_MAXNAMESIZE := by
    intro q' hq'
    rw [List.mem_singleton] at hq'
    subst hq'
    apply And.intro
    · change ∀ l ∈ labels (dotted [] [[byte 'a']]), l.length ≤ 63
      rw [labels_dotted hlabel]
      decide
    · decide
  obtain ⟨s, r, hrun, hparse, hback, -⟩ :=
    mkquery_parsed none 1 0 1 (Nat.le_refl [q].length) (by decide) hnames
  obtain ⟨r', hparse', hsame⟩ := h 1 0 1 [q] (by decide) (by decide) hnames
  rw [hrun, hparse] at hparse'
  cases hparse'
  obtain ⟨a, as, hread, -, hqdptr⟩ := List.forall₂_cons_right_iff.mp hback
  rw [hqdptr] at hsame
  obtain ⟨hqtype, -⟩ := List.forall₂_cons.mp hsame
  rw [hread.1] at hqtype
  exact absurd hqtype (by decide)

end Query
end Cone.Rfc1035Query
