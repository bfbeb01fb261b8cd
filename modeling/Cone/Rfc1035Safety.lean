import Cone.Rfc1035Uncompress

/-! # When a reply is read safely

`QuestionAt` and `RecordAt` are the places in a message where its questions and records start,
by the lengths of what comes before them.  `Readable` says of the bytes that the names read there
fit the message, and that no record that must hold a name is empty; parsing a message, and
reading later what was stored of it, is safe exactly then. -/
set_option autoImplicit false
namespace Cone.Rfc1035Reply

open Cone.Ctype Cone.Lib.Checked Cone.Lib.WireNames

section Layout
variable (b : List UInt8)

def u16 (o : Nat) : Nat := (b.getD o 0).toNat * 2 ^ 8 + (b.getD (o + 1) 0).toNat

def qdcount : Nat := u16 b 4

/-- The records of the three sections. -/
def rrcount : Nat := u16 b 6 + u16 b 8 + u16 b 10

inductive QuestionAt : Nat → Nat → Prop where
  | first : QuestionAt 0 12
  | next {n o e : Nat} {ls : List (List UInt8)} (h : QuestionAt n o) (name : Named b o e ls)
      (inside : e + 4 ≤ b.length) : QuestionAt (n + 1) (e + 4)

inductive RecordAt : Nat → Nat → Prop where
  | first {o : Nat} (h : QuestionAt b (qdcount b) o) : RecordAt 0 o
  | next {n o e : Nat} {ls : List (List UInt8)} (h : RecordAt n o) (name : Named b o e ls)
      (inside : e + 10 + u16 b (e + 8) ≤ b.length) : RecordAt (n + 1) (e + 10 + u16 b (e + 8))

/-- The names that a record of class `IN` is read for are there and fit the message. -/
structure RdataFits (rrtype rd rdlength : Nat) : Prop where
  domainname : isDomainname rrtype = true → 0 < rdlength ∧ Fits b rd
  soa : rrtype = RFC1035_TYPE_SOA → 20 ≤ rdlength → Fits b rd ∧
    ∀ e ls, Named b rd e ls → e ≤ rd + rdlength → Fits b e
  mx : rrtype = RFC1035_TYPE_MX → 2 ≤ rdlength → Fits b (rd + 2)
  minfo : rrtype = RFC1035_TYPE_MINFO → 0 < rdlength ∧ Fits b rd ∧
    ∀ e ls, Named b rd e ls → e ≤ rd + rdlength → Fits b e

/-- The header has all its bytes, and counts fewer items than the message has bytes. -/
def HeaderFits : Prop := 12 ≤ b.length ∧ qdcount b + rrcount b < b.length

structure Readable : Prop where
  question : ∀ n o, n < qdcount b → QuestionAt b n o → Fits b o
  record : ∀ n o, n < rrcount b → RecordAt b n o → Fits b o
  rdata : ∀ n o e ls, n < rrcount b → RecordAt b n o → Named b o e ls →
    e + 10 + u16 b (e + 8) ≤ b.length → u16 b (e + 2) = RFC1035_CLASS_IN →
    RdataFits b (u16 b e) (e + 10) (u16 b (e + 8))

end Layout

section Reads
variable {b : List UInt8}

theorem peek_inside {o : Nat} (h : o < b.length) : peek b ⟨.reply, o⟩ = .value (b.getD o 0) := by
  rw [peek_reply, List.getD_eq_getElem?_getD, List.getElem?_eq_getElem h, Option.getD_some]

theorem be16_inside {o : Nat} (h : o + 2 ≤ b.length) : be16 b ⟨.reply, o⟩ = .value (u16 b o) := by
  rw [be16, peek_inside (by omega), value_bind, Ptr.add_mk, peek_inside (by omega), value_bind, u16]

theorem be32_inside {o : Nat} (h : o + 4 ≤ b.length) :
    be32 b ⟨.reply, o⟩ = .value (u16 b o * 2 ^ 16 + u16 b (o + 2)) := by
  rw [be32, be16_inside (by omega), value_bind, Ptr.add_mk, be16_inside (by omega), value_bind]

theorem safe_skipName {o limit : Nat} :
    Safe (skipName b ⟨.reply, o⟩ limit) ↔ Fits b o := by
  rw [skipName, safe_bind, safe_test, safe_replyuncompress, and_iff_left_iff_imp]
  intro _ x _
  cases x with
  | none => exact safe_value _
  | some y => exact safe_value _

theorem skipName_eq_some {o limit : Nat} {q : Ptr} :
    skipName b ⟨.reply, o⟩ limit = .value (some q) ↔
      ∃ e ls, Named b o e ls ∧ e ≤ limit ∧ q = ⟨.reply, e⟩ := by
  rw [skipName, bind_eq_value]
  constructor
  · intro ⟨x, htest, h⟩
    cases x with
    | none => cases h
    | some y =>
        obtain ⟨name, p⟩ := y
        obtain ⟨e, ls, hnamed, -, rfl⟩ := replyuncompress_eq_value.mp (test_eq_some.mp htest)
        dsimp only at h
        by_cases hlimit : e > limit
        · rw [if_pos hlimit] at h
          cases h
        · rw [if_neg hlimit] at h
          cases h
          exact ⟨e, ls, hnamed, by omega, rfl⟩
  · intro ⟨e, ls, hnamed, hle, hq⟩
    refine ⟨some ([], ⟨.reply, e⟩), ?_, ?_⟩
    · rw [test_eq_some, replyuncompress_eq_value]
      exact ⟨e, ls, hnamed, rfl, rfl⟩
    · rw [hq]
      dsimp only
      rw [if_neg (by omega)]

theorem not_safe_skipName_null {limit : Nat} : ¬ Safe (skipName b .null limit) := by
  have hnull : replyuncompress b .null false = .fault .null := by
    rw [replyuncompress, uncompressLoop_eq, uncompressStep]
    rw [if_neg (by rw [replyEnd]; intro no; cases no)]
    rfl
  rw [skipName, hnull]
  exact not_safe_fault _

theorem nonNull_skipName {p : Ptr} {limit : Nat} : NonNull (skipName b p limit) := by
  apply NonNull.bind
  · cases replyuncompress b p false with
    | fault f => nofun
    | null => nofun
    | value x => nofun
  · intro x
    cases x with
    | none => exact nonNull_value _
    | some y => exact nonNull_value _

end Reads

section Doparse
variable {b : List UInt8} {rd rdlength : Nat}

def rdataPtr (rd rdlength : Nat) : Ptr := if rdlength ≠ 0 then ⟨.reply, rd⟩ else .null

theorem rdataPtr_of_pos (h : 0 < rdlength) : rdataPtr rd rdlength = ⟨.reply, rd⟩ :=
  if_pos (by omega)

def Good (b : List UInt8) (p : Ptr) : Prop := p = .error ∨ ∃ o, p = ⟨.reply, o⟩ ∧ Fits b o

theorem safe_skipName_rdata {limit : Nat} :
    Safe (skipName b (rdataPtr rd rdlength) limit) ↔ 0 < rdlength ∧ Fits b rd := by
  by_cases hzero : rdlength = 0
  · rw [rdataPtr, if_neg (not_not.mpr hzero)]
    exact iff_of_false not_safe_skipName_null (fun h => by omega)
  · rw [rdataPtr_of_pos (by omega), safe_skipName]
    exact (and_iff_right (by omega)).symm

theorem safe_doparseDomainname :
    Safe (doparseDomainname b (rdataPtr rd rdlength) rdlength) ↔ 0 < rdlength ∧ Fits b rd := by
  rw [doparseDomainname, safe_bind, safe_skipName_rdata, and_iff_left_iff_imp]
  intro _ x _
  cases x with
  | none => exact safe_value _
  | some y => exact safe_value _

theorem labels_doparseDomainname {rr : RData}
    (h : doparseDomainname b (rdataPtr rd rdlength) rdlength = .value rr) :
    ∀ p ∈ rr.labels, Good b p := by
  have hsafe : Safe (doparseDomainname b (rdataPtr rd rdlength) rdlength) := by
    rw [h]
    exact safe_value _
  obtain ⟨hpos, hfits⟩ := safe_doparseDomainname.mp hsafe
  obtain ⟨x, -, h⟩ := bind_eq_value.mp h
  cases x with
  | none =>
      cases h
      simp [RData.labels, Good]
  | some y =>
      cases h
      rw [rdataPtr_of_pos hpos]
      simp [RData.labels, Good, hfits]

theorem safe_doparseSoa (hinside : rd + rdlength ≤ b.length) :
    Safe (doparseSoa b (rdataPtr rd rdlength) rdlength) ↔
      (20 ≤ rdlength → Fits b rd ∧ ∀ e ls, Named b rd e ls → e ≤ rd + rdlength → Fits b e) := by
  rw [doparseSoa]
  by_cases hshort : rdlength < 20
  · rw [if_pos hshort]
    exact iff_of_true (safe_value _) (fun h => by omega)
  have hlong : 20 ≤ rdlength := by omega
  rw [if_neg hshort, rdataPtr_of_pos (by omega), safe_bind, safe_skipName]
  constructor
  · intro ⟨hfits, hrest⟩ _
    apply And.intro hfits
    intro e ls hnamed hle
    have hsecond := hrest _ (skipName_eq_some.mpr ⟨e, ls, hnamed, hle, rfl⟩)
    exact safe_skipName.mp (safe_bind.mp hsecond).1
  · intro h
    obtain ⟨hfits, hsecond⟩ := h hlong
    apply And.intro hfits
    intro x hx
    cases x with
    | none => exact safe_value _
    | some q =>
        obtain ⟨e, ls, hnamed, hle, rfl⟩ := skipName_eq_some.mp hx
        apply safe_bind.mpr
        apply And.intro (safe_skipName.mpr (hsecond e ls hnamed hle))
        intro y hy
        cases y with
        | none => exact safe_value _
        | some p =>
            obtain ⟨e', ls', -, hle', rfl⟩ := skipName_eq_some.mp hy
            dsimp only at hle'
            simp only [Ptr.add_mk]
            rw [be32_inside (by omega), value_bind, be32_inside (by omega), value_bind,
              be32_inside (by omega), value_bind, be32_inside (by omega), value_bind,
              be32_inside (by omega), value_bind]
            exact safe_value _

theorem labels_doparseSoa {rr : RData}
    (h : doparseSoa b (rdataPtr rd rdlength) rdlength = .value rr) :
    ∀ p ∈ rr.labels, Good b p := by
  rw [doparseSoa] at h
  by_cases hshort : rdlength < 20
  · rw [if_pos hshort] at h
    cases h
    simp [RData.labels, Good]
  rw [if_neg hshort, rdataPtr_of_pos (by omega)] at h
  obtain ⟨x, hx, h⟩ := bind_eq_value.mp h
  cases x with
  | none =>
      cases h
      simp [RData.labels, Good]
  | some q =>
      have hfits : Fits b rd := by
        apply safe_skipName.mp
        rw [hx]
        exact safe_value _
      obtain ⟨e, ls, -, -, rfl⟩ := skipName_eq_some.mp hx
      obtain ⟨y, hy, h⟩ := bind_eq_value.mp h
      cases y with
      | none =>
          cases h
          simp [RData.labels, Good]
      | some p =>
          have hfits' : Fits b e := by
            apply safe_skipName.mp
            rw [hy]
            exact safe_value _
          obtain ⟨serial, -, h⟩ := bind_eq_value.mp h
          obtain ⟨refresh, -, h⟩ := bind_eq_value.mp h
          obtain ⟨retry, -, h⟩ := bind_eq_value.mp h
          obtain ⟨expire, -, h⟩ := bind_eq_value.mp h
          obtain ⟨minimum, -, h⟩ := bind_eq_value.mp h
          cases h
          simp [RData.labels, Good, hfits, hfits']

theorem safe_doparseMx (hinside : rd + rdlength ≤ b.length) :
    Safe (doparseMx b (rdataPtr rd rdlength) rdlength) ↔ (2 ≤ rdlength → Fits b (rd + 2)) := by
  rw [doparseMx]
  by_cases hshort : rdlength < 2
  · rw [if_pos hshort]
    exact iff_of_true (safe_value _) (fun h => by omega)
  have hlong : 2 ≤ rdlength := by omega
  rw [if_neg hshort, rdataPtr_of_pos (by omega), be16_inside (by omega), value_bind, Ptr.add_mk,
    safe_bind, safe_skipName, and_iff_left]
  · exact ⟨fun h _ => h, fun h => h hlong⟩
  · intro x _
    cases x with
    | none => exact safe_value _
    | some y => exact safe_value _

theorem labels_doparseMx {rr : RData}
    (h : doparseMx b (rdataPtr rd rdlength) rdlength = .value rr) : ∀ p ∈ rr.labels, Good b p := by
  rw [doparseMx] at h
  by_cases hshort : rdlength < 2
  · rw [if_pos hshort] at h
    cases h
    simp [RData.labels, Good]
  rw [if_neg hshort, rdataPtr_of_pos (by omega)] at h
  obtain ⟨preference, -, h⟩ := bind_eq_value.mp h
  obtain ⟨x, hx, h⟩ := bind_eq_value.mp h
  cases x with
  | none =>
      cases h
      simp [RData.labels, Good]
  | some q =>
      have hfits : Fits b (rd + 2) := by
        apply safe_skipName.mp
        rw [← Ptr.add_mk, hx]
        exact safe_value _
      cases h
      simp [RData.labels, Good, hfits]

theorem safe_doparseHinfo (hinside : rd + rdlength ≤ b.length) :
    Safe (doparseHinfo b (rdataPtr rd rdlength) rdlength) := by
  rw [doparseHinfo]
  by_cases hzero : rdlength = 0
  · rw [if_pos hzero]
    exact safe_value _
  rw [if_neg hzero, rdataPtr_of_pos (by omega), peek_inside (by omega), value_bind]
  apply safe_ite
  · intro ⟨_, hsecond⟩
    simp only [Ptr.add_mk] at hsecond ⊢
    rw [peek_inside (by omega), value_bind]
    exact safe_ite (fun _ => safe_value _) fun _ => safe_value _
  · intro _
    exact safe_value _

theorem safe_doparseMinfo :
    Safe (doparseMinfo b (rdataPtr rd rdlength) rdlength) ↔ 0 < rdlength ∧ Fits b rd ∧
      ∀ e ls, Named b rd e ls → e ≤ rd + rdlength → Fits b e := by
  rw [doparseMinfo, safe_bind, safe_skipName_rdata, and_assoc]
  apply and_congr_right
  intro hpos
  rw [rdataPtr_of_pos hpos]
  apply and_congr_right
  intro _
  constructor
  · intro h e ls hnamed hle
    have hsecond := h _ (skipName_eq_some.mpr ⟨e, ls, hnamed, hle, rfl⟩)
    exact safe_skipName.mp (safe_bind.mp hsecond).1
  · intro h x hx
    cases x with
    | none => exact safe_value _
    | some q =>
        obtain ⟨e, ls, hnamed, hle, rfl⟩ := skipName_eq_some.mp hx
        apply safe_bind.mpr
        apply And.intro (safe_skipName.mpr (h e ls hnamed hle))
        intro y _
        cases y with
        | none => exact safe_value _
        | some p => exact safe_value _

theorem labels_doparseMinfo {rr : RData}
    (h : doparseMinfo b (rdataPtr rd rdlength) rdlength = .value rr) :
    ∀ p ∈ rr.labels, Good b p := by
  have hsafe : Safe (doparseMinfo b (rdataPtr rd rdlength) rdlength) := by
    rw [h]
    exact safe_value _
  obtain ⟨hpos, hfits, hsecond⟩ := safe_doparseMinfo.mp hsafe
  rw [rdataPtr_of_pos hpos] at h
  obtain ⟨x, hx, h⟩ := bind_eq_value.mp h
  cases x with
  | none =>
      cases h
      simp [RData.labels, Good]
  | some q =>
      obtain ⟨e, ls, hnamed, hle, rfl⟩ := skipName_eq_some.mp hx
      have hfits' := hsecond e ls hnamed hle
      obtain ⟨y, hy, h⟩ := bind_eq_value.mp h
      cases y with
      | none =>
          cases h
          simp [RData.labels, Good]
      | some p =>
          cases h
          simp [RData.labels, Good, hfits, hfits']

theorem isDomainname_cases {rrtype : Nat} (h : isDomainname rrtype = true) :
    rrtype ≠ RFC1035_TYPE_SOA ∧ rrtype ≠ RFC1035_TYPE_MX ∧ rrtype ≠ RFC1035_TYPE_MINFO := by
  simp only [isDomainname, List.contains_eq_mem, List.mem_cons, List.not_mem_nil, or_false,
    decide_eq_true_eq] at h
  rcases h with rfl | rfl | rfl | rfl | rfl | rfl | rfl | rfl <;> decide

theorem rdataFits_of_other {rrtype : Nat} (hdomain : ¬ isDomainname rrtype = true)
    (hsoa : rrtype ≠ RFC1035_TYPE_SOA) (hmx : rrtype ≠ RFC1035_TYPE_MX)
    (hminfo : rrtype ≠ RFC1035_TYPE_MINFO) : RdataFits b rrtype rd rdlength := by
  constructor
  · intro h
    exact absurd h hdomain
  · intro h
    exact absurd h hsoa
  · intro h
    exact absurd h hmx
  · intro h
    exact absurd h hminfo

theorem copy_rdata {n : Nat} (hinside : rd + rdlength ≤ b.length) (hpos : 0 < n)
    (hle : n ≤ rdlength) : copy b (rdataPtr rd rdlength) n = .value ((b.drop rd).take n) := by
  rw [rdataPtr_of_pos (by omega), copy_inside b n (by omega)]

theorem safe_doparse {rrtype rrclass : Nat} (hinside : rd + rdlength ≤ b.length) :
    Safe (doparse b rrtype rrclass rdlength (rdataPtr rd rdlength)) ↔
      (rrclass = RFC1035_CLASS_IN → RdataFits b rrtype rd rdlength) := by
  rw [doparse]
  by_cases hclass : rrclass = RFC1035_CLASS_IN
  swap
  · rw [if_pos hclass]
    exact iff_of_true (safe_value _) (fun h => absurd h hclass)
  rw [if_neg (not_not.mpr hclass)]
  apply Iff.trans _ ⟨fun h _ => h, fun h => h hclass⟩
  by_cases ha : rrtype = RFC1035_TYPE_A
  · rw [if_pos ha]
    apply iff_of_true
    · apply safe_ite fun _ => safe_value _
      intro hlong
      rw [copy_rdata hinside (by omega) (by omega), value_bind]
      exact safe_value _
    · rw [ha]
      exact rdataFits_of_other (by decide) (by decide) (by decide) (by decide)
  rw [if_neg ha]
  by_cases haaaa : rrtype = RFC1035_TYPE_AAAA
  · rw [if_pos haaaa]
    apply iff_of_true
    · apply safe_ite _ fun _ => safe_value _
      intro hlong
      rw [copy_rdata hinside (by omega) hlong, value_bind]
      exact safe_value _
    · rw [haaaa]
      exact rdataFits_of_other (by decide) (by decide) (by decide) (by decide)
  rw [if_neg haaaa]
  by_cases hdomain : isDomainname rrtype = true
  · rw [if_pos hdomain, safe_doparseDomainname]
    obtain ⟨hsoa, hmx, hminfo⟩ := isDomainname_cases hdomain
    constructor
    · intro h
      exact ⟨fun _ => h, fun h => absurd h hsoa, fun h => absurd h hmx, fun h => absurd h hminfo⟩
    · intro h
      exact h.domainname hdomain
  rw [if_neg hdomain]
  by_cases hsoa : rrtype = RFC1035_TYPE_SOA
  · rw [if_pos hsoa, safe_doparseSoa hinside]
    constructor
    · intro h
      exact ⟨fun h' => absurd h' hdomain, fun _ => h,
        fun h' => absurd (hsoa.symm.trans h') (by decide),
        fun h' => absurd (hsoa.symm.trans h') (by decide)⟩
    · intro h
      exact h.soa hsoa
  rw [if_neg hsoa]
  by_cases hmx : rrtype = RFC1035_TYPE_MX
  · rw [if_pos hmx, safe_doparseMx hinside]
    constructor
    · intro h
      exact ⟨fun h' => absurd h' hdomain, fun h' => absurd h' hsoa, fun _ => h,
        fun h' => absurd (hmx.symm.trans h') (by decide)⟩
    · intro h
      exact h.mx hmx
  rw [if_neg hmx]
  by_cases hhinfo : rrtype = RFC1035_TYPE_HINFO
  · rw [if_pos hhinfo]
    exact iff_of_true (safe_doparseHinfo hinside)
      (rdataFits_of_other hdomain hsoa hmx (by rw [hhinfo]; decide))
  rw [if_neg hhinfo]
  by_cases hminfo : rrtype = RFC1035_TYPE_MINFO
  · rw [if_pos hminfo, safe_doparseMinfo]
    constructor
    · intro h
      exact ⟨fun h' => absurd h' hdomain, fun h' => absurd h' hsoa, fun h' => absurd h' hmx,
        fun _ => h⟩
    · intro h
      exact h.minfo hminfo
  rw [if_neg hminfo]
  exact iff_of_true (safe_value _) (rdataFits_of_other hdomain hsoa hmx hminfo)

theorem labels_doparse {rrtype rrclass : Nat} {rr : RData}
    (h : doparse b rrtype rrclass rdlength (rdataPtr rd rdlength) = .value rr) :
    ∀ p ∈ rr.labels, Good b p := by
  have hnone : ∀ rr : RData, rr.labels = [] → ∀ p ∈ rr.labels, Good b p := by
    intro rr hrr p hp
    rw [hrr] at hp
    cases hp
  rw [doparse] at h
  split_ifs at h
  · cases h
    exact hnone _ rfl
  · cases h
    exact hnone _ rfl
  · obtain ⟨addr, -, h⟩ := bind_eq_value.mp h
    cases h
    exact hnone _ rfl
  · obtain ⟨addr, -, h⟩ := bind_eq_value.mp h
    cases h
    exact hnone _ rfl
  · cases h
    exact hnone _ rfl
  · exact labels_doparseDomainname h
  · exact labels_doparseSoa h
  · exact labels_doparseMx h
  · obtain ⟨hinfoStr, osStr, rfl⟩ : ∃ p q, rr = .hinfo p q := by
      rw [doparseHinfo] at h
      split_ifs at h
      · cases h
        exact ⟨_, _, rfl⟩
      · obtain ⟨l, -, h⟩ := bind_eq_value.mp h
        dsimp only at h
        split_ifs at h
        · obtain ⟨m, -, h⟩ := bind_eq_value.mp h
          split_ifs at h <;> cases h <;> exact ⟨_, _, rfl⟩
        · cases h
          exact ⟨_, _, rfl⟩
    exact hnone _ rfl
  · exact labels_doparseMinfo h
  · cases h
    exact hnone _ rfl

theorem nonNull_peek (p : Ptr) : NonNull (peek b p) := by
  unfold peek
  split
  · nofun
  · split
    · nofun
    · exact nonNull_value _

theorem nonNull_be32 (p : Ptr) : NonNull (be32 b p) := by
  have h16 : ∀ p, NonNull (be16 b p) := fun p =>
    (nonNull_peek p).bind fun _ => (nonNull_peek _).bind fun _ => nonNull_value _
  exact (h16 p).bind fun _ => (h16 _).bind fun _ => nonNull_value _

theorem nonNull_copy (n : Nat) (p : Ptr) : NonNull (copy b p n) := by
  induction n generalizing p with
  | zero => exact nonNull_value _
  | succ n ih =>
      apply (nonNull_peek p).bind
      intro c
      exact (ih _).bind fun _ => nonNull_value _

theorem nonNull_doparse (rrtype rrclass : Nat) (rdata : Ptr) :
    NonNull (doparse b rrtype rrclass rdlength rdata) := by
  apply NonNull.ite (nonNull_value _)
  apply NonNull.ite
  · exact .ite (nonNull_value _) ((nonNull_copy 4 _).bind fun _ => nonNull_value _)
  apply NonNull.ite
  · exact .ite ((nonNull_copy 16 _).bind fun _ => nonNull_value _) (nonNull_value _)
  apply NonNull.ite
  · apply nonNull_skipName.bind
    intro x
    cases x <;> exact nonNull_value _
  apply NonNull.ite
  · apply NonNull.ite (nonNull_value _)
    apply nonNull_skipName.bind
    intro x
    cases x with
    | none => exact nonNull_value _
    | some q =>
        apply nonNull_skipName.bind
        intro y
        cases y with
        | none => exact nonNull_value _
        | some p =>
            apply (nonNull_be32 _).bind
            intro serial
            apply (nonNull_be32 _).bind
            intro refresh
            apply (nonNull_be32 _).bind
            intro retry
            apply (nonNull_be32 _).bind
            intro expire
            exact (nonNull_be32 _).bind fun _ => nonNull_value _
  apply NonNull.ite
  · apply NonNull.ite (nonNull_value _)
    apply NonNull.bind ((nonNull_peek _).bind fun _ => (nonNull_peek _).bind fun _ => nonNull_value _)
    intro preference
    apply nonNull_skipName.bind
    intro x
    cases x <;> exact nonNull_value _
  apply NonNull.ite
  · apply NonNull.ite (nonNull_value _)
    apply (nonNull_peek _).bind
    intro l
    apply NonNull.ite _ (nonNull_value _)
    exact (nonNull_peek _).bind fun _ => .ite (nonNull_value _) (nonNull_value _)
  apply NonNull.ite _ (nonNull_value _)
  apply nonNull_skipName.bind
  intro x
  cases x with
  | none => exact nonNull_value _
  | some q =>
      apply nonNull_skipName.bind
      intro y
      cases y <;> exact nonNull_value _

end Doparse

section Items
variable {b : List UInt8} {o : Nat}

theorem safe_parseQuestion : Safe (parseQuestion b ⟨.reply, o⟩) ↔ Fits b o := by
  rw [parseQuestion, safe_bind, safe_replyuncompress, and_iff_left_iff_imp]
  intro _ (name, p) hname
  obtain ⟨e, ls, -, -, rfl⟩ := replyuncompress_eq_value.mp hname
  apply safe_ite fun _ => safe_null
  intro hinside
  dsimp only at hinside
  rw [be16_inside (by omega), value_bind, Ptr.add_mk, be16_inside (by omega), value_bind]
  exact safe_value _

theorem parseQuestion_eq_value {a : Query} {q : Ptr} :
    parseQuestion b ⟨.reply, o⟩ = .value (a, q) ↔
      ∃ e ls, Named b o e ls ∧ e + 4 ≤ b.length ∧
        a = ⟨⟨.reply, o⟩, u16 b e, u16 b (e + 2)⟩ ∧ q = ⟨.reply, e + 4⟩ := by
  rw [parseQuestion, bind_eq_value]
  constructor
  · intro ⟨(name, p), hname, h⟩
    obtain ⟨e, ls, hnamed, -, rfl⟩ := replyuncompress_eq_value.mp hname
    dsimp only at h
    by_cases hpast : e + 4 > b.length
    · rw [if_pos hpast] at h
      cases h
    rw [if_neg hpast, be16_inside (by omega), value_bind, Ptr.add_mk, be16_inside (by omega),
      value_bind] at h
    cases h
    exact ⟨e, ls, hnamed, by omega, rfl, rfl⟩
  · intro ⟨e, ls, hnamed, hinside, ha, hq⟩
    refine ⟨([], ⟨.reply, e⟩), replyuncompress_eq_value.mpr ⟨e, ls, hnamed, rfl, rfl⟩, ?_⟩
    dsimp only
    rw [if_neg (by omega), be16_inside (by omega), value_bind, Ptr.add_mk, be16_inside (by omega),
      value_bind, ha, hq, Ptr.add_mk]

def recordFields (b : List UInt8) (o e : Nat) (rr : RData) : RR :=
  ⟨⟨.reply, o⟩, u16 b e, u16 b (e + 2), u16 b (e + 4) * 2 ^ 16 + u16 b (e + 6), u16 b (e + 8),
    rdataPtr (e + 10) (u16 b (e + 8)), rr⟩

def doparseAt (b : List UInt8) (e : Nat) : Outcome Fault RData :=
  doparse b (u16 b e) (u16 b (e + 2)) (u16 b (e + 8)) (rdataPtr (e + 10) (u16 b (e + 8)))

theorem parseRR_of_named {e : Nat} {ls : List (List UInt8)} (hnamed : Named b o e ls) :
    parseRR b ⟨.reply, o⟩ =
      if e + 10 + u16 b (e + 8) ≤ b.length then
        doparseAt b e >>= fun rr =>
          .value (recordFields b o e rr, ⟨.reply, e + 10 + u16 b (e + 8)⟩)
      else .null := by
  have hname : replyuncompress b ⟨.reply, o⟩ false = .value ([], ⟨.reply, e⟩) :=
    replyuncompress_eq_value.mpr ⟨e, ls, hnamed, rfl, rfl⟩
  rw [parseRR, hname, value_bind]
  dsimp only
  by_cases hpast : e + 10 > b.length
  · rw [if_pos hpast, if_neg (by omega)]
  rw [if_neg hpast, be16_inside (by omega), value_bind, Ptr.add_mk, be16_inside (by omega),
    value_bind, Ptr.add_mk, be32_inside (by omega), value_bind, Ptr.add_mk,
    be16_inside (by omega), value_bind, Ptr.add_mk]
  dsimp only
  by_cases hinside : e + 10 + u16 b (e + 8) ≤ b.length
  · rw [if_neg (by omega), if_pos hinside]
    rfl
  · rw [if_pos (by omega), if_neg hinside]

theorem parseRR_of_not_named (h : ∀ e ls, ¬ Named b o e ls) {x : RR × Ptr} :
    parseRR b ⟨.reply, o⟩ ≠ .value x := by
  intro hvalue
  obtain ⟨⟨name, p⟩, hname, -⟩ := bind_eq_value.mp hvalue
  obtain ⟨e, ls, hnamed, -⟩ := replyuncompress_eq_value.mp hname
  exact h e ls hnamed

theorem safe_parseRR :
    Safe (parseRR b ⟨.reply, o⟩) ↔ Fits b o ∧ ∀ e ls, Named b o e ls →
      e + 10 + u16 b (e + 8) ≤ b.length → u16 b (e + 2) = RFC1035_CLASS_IN →
        RdataFits b (u16 b e) (e + 10) (u16 b (e + 8)) := by
  have hrest : ∀ e ls, Named b o e ls → (Safe (parseRR b ⟨.reply, o⟩) ↔
      (e + 10 + u16 b (e + 8) ≤ b.length → u16 b (e + 2) = RFC1035_CLASS_IN →
        RdataFits b (u16 b e) (e + 10) (u16 b (e + 8)))) := by
    intro e ls hnamed
    rw [parseRR_of_named hnamed]
    by_cases hinside : e + 10 + u16 b (e + 8) ≤ b.length
    · rw [if_pos hinside, safe_bind, doparseAt, safe_doparse hinside]
      exact ⟨fun h _ => h.1, fun h => ⟨h hinside, fun _ _ => safe_value _⟩⟩
    · rw [if_neg hinside]
      exact iff_of_true safe_null fun h => absurd h hinside
  constructor
  · intro hsafe
    apply And.intro (safe_replyuncompress.mp (safe_bind.mp hsafe).1)
    intro e ls hnamed
    exact (hrest e ls hnamed).mp hsafe
  · intro ⟨hfits, hrdata⟩
    by_cases hname : ∃ e ls, Named b o e ls
    · obtain ⟨e, ls, hnamed⟩ := hname
      exact (hrest e ls hnamed).mpr (hrdata e ls hnamed)
    · rw [parseRR, safe_bind]
      apply And.intro (safe_replyuncompress.mpr hfits)
      intro (name, p) hvalue
      obtain ⟨e, ls, hnamed, -⟩ := replyuncompress_eq_value.mp hvalue
      exact absurd ⟨e, ls, hnamed⟩ hname

theorem parseRR_eq_value {a : RR} {q : Ptr} (h : parseRR b ⟨.reply, o⟩ = .value (a, q)) :
    ∃ e ls rr, Named b o e ls ∧ e + 10 + u16 b (e + 8) ≤ b.length ∧ doparseAt b e = .value rr ∧
      a = recordFields b o e rr ∧ q = ⟨.reply, e + 10 + u16 b (e + 8)⟩ := by
  by_cases hname : ∃ e ls, Named b o e ls
  · obtain ⟨e, ls, hnamed⟩ := hname
    rw [parseRR_of_named hnamed] at h
    by_cases hinside : e + 10 + u16 b (e + 8) ≤ b.length
    · rw [if_pos hinside] at h
      obtain ⟨rr, hrr, h⟩ := bind_eq_value.mp h
      cases h
      exact ⟨e, ls, rr, hnamed, hinside, hrr, rfl, rfl⟩
    · rw [if_neg hinside] at h
      cases h
  · exact absurd h (parseRR_of_not_named fun e ls hnamed => hname ⟨e, ls, hnamed⟩)

end Items

section Places
variable {b : List UInt8}

theorem after_question {n : Nat} {q : Ptr} :
    After (parseQuestion b) n ⟨.reply, 12⟩ q ↔ ∃ o, q = ⟨.reply, o⟩ ∧ QuestionAt b n o := by
  constructor
  · intro h
    generalize hp : (⟨.reply, 12⟩ : Ptr) = p at h
    induction h with
    | zero => exact ⟨12, hp.symm, .first⟩
    | succ _ hitem ih =>
        obtain ⟨o, rfl, ho⟩ := ih hp
        obtain ⟨e, ls, hnamed, hinside, -, rfl⟩ := parseQuestion_eq_value.mp hitem
        exact ⟨e + 4, rfl, .next ho hnamed hinside⟩
  · intro ⟨o, hq, ho⟩
    rw [hq]
    clear hq
    induction ho with
    | first => exact .zero
    | next _ hnamed hinside ih =>
        exact .succ ih (parseQuestion_eq_value.mpr ⟨_, _, hnamed, hinside, rfl, rfl⟩)

theorem recordAt_of_after {n o : Nat} {q : Ptr} (ho : QuestionAt b (qdcount b) o)
    (h : After (parseRR b) n ⟨.reply, o⟩ q) : ∃ o', q = ⟨.reply, o'⟩ ∧ RecordAt b n o' := by
  generalize hp : (⟨.reply, o⟩ : Ptr) = p at h
  induction h with
  | zero => exact ⟨o, hp.symm, .first ho⟩
  | succ _ hitem ih =>
      obtain ⟨o', rfl, ho'⟩ := ih hp
      obtain ⟨e, ls, rr, hnamed, hinside, -, -, rfl⟩ := parseRR_eq_value hitem
      exact ⟨_, rfl, .next ho' hnamed hinside⟩

theorem after_of_recordAt {n o : Nat} (h : RecordAt b n o)
    (hsafe : ∀ o, QuestionAt b (qdcount b) o → ∀ i, i < n → ∀ q,
      After (parseRR b) i ⟨.reply, o⟩ q → Safe (parseRR b q)) :
    ∃ o₀, QuestionAt b (qdcount b) o₀ ∧ After (parseRR b) n ⟨.reply, o₀⟩ ⟨.reply, o⟩ := by
  induction h with
  | first ho => exact ⟨_, ho, .zero⟩
  | @next n o e ls _ hnamed hinside ih =>
      obtain ⟨o₀, ho₀, hafter⟩ := ih fun o ho i hi => hsafe o ho i (by omega)
      have hthis := hsafe o₀ ho₀ n (by omega) _ hafter
      rw [parseRR_of_named hnamed, if_pos hinside, safe_bind] at hthis
      obtain ⟨rr, hrr⟩ := (nonNull_doparse _ _ _).eq_value hthis.1
      refine ⟨o₀, ho₀, .succ (a := recordFields b o e rr) hafter ?_⟩
      rw [parseRR_of_named hnamed, if_pos hinside, doparseAt, hrr, value_bind]

theorem safe_questions :
    Safe (many (parseQuestion b) (qdcount b) ⟨.reply, 12⟩) ↔
      ∀ n o, n < qdcount b → QuestionAt b n o → Fits b o := by
  rw [safe_many]
  constructor
  · intro h n o hn ho
    exact safe_parseQuestion.mp (h n hn _ (after_question.mpr ⟨o, rfl, ho⟩))
  · intro h n hn q hq
    obtain ⟨o, rfl, ho⟩ := after_question.mp hq
    exact safe_parseQuestion.mpr (h n o hn ho)

theorem safe_records :
    (∀ o, QuestionAt b (qdcount b) o → Safe (many (parseRR b) (rrcount b) ⟨.reply, o⟩)) ↔
      ∀ n o, n < rrcount b → RecordAt b n o → Safe (parseRR b ⟨.reply, o⟩) := by
  constructor
  · intro h n o hn ho
    have hsafe : ∀ o, QuestionAt b (qdcount b) o → ∀ i, i < rrcount b → ∀ q,
        After (parseRR b) i ⟨.reply, o⟩ q → Safe (parseRR b q) :=
      fun o ho => safe_many.mp (h o ho)
    obtain ⟨o₀, ho₀, hafter⟩ :=
      after_of_recordAt ho fun o ho i hi => hsafe o ho i (by omega)
    exact hsafe o₀ ho₀ n hn _ hafter
  · intro h o ho
    apply safe_many.mpr
    intro n hn q hq
    obtain ⟨o', rfl, ho'⟩ := recordAt_of_after ho hq
    exact h n o' hn ho'

theorem safe_items :
    (Safe (many (parseQuestion b) (qdcount b) ⟨.reply, 12⟩) ∧
      ∀ x, many (parseQuestion b) (qdcount b) ⟨.reply, 12⟩ = .value x →
        Safe (many (parseRR b) (rrcount b) x.2)) ↔ Readable b := by
  have hplaces : (∀ x, many (parseQuestion b) (qdcount b) ⟨.reply, 12⟩ = .value x →
        Safe (many (parseRR b) (rrcount b) x.2)) ↔
      ∀ o, QuestionAt b (qdcount b) o → Safe (many (parseRR b) (rrcount b) ⟨.reply, o⟩) := by
    constructor
    · intro h o ho
      obtain ⟨qs, hqs⟩ := many_of_after (after_question.mpr ⟨o, rfl, ho⟩)
      exact h _ hqs
    · intro h (qs, q) hq
      obtain ⟨o, rfl, ho⟩ := after_question.mp (after_of_many hq).1
      exact h o ho
  rw [hplaces, safe_questions, safe_records]
  constructor
  · intro ⟨hquestions, hrecords⟩
    constructor
    · exact hquestions
    · intro n o hn ho
      exact (safe_parseRR.mp (hrecords n o hn ho)).1
    · intro n o e ls hn ho hnamed hinside hclass
      exact (safe_parseRR.mp (hrecords n o hn ho)).2 e ls hnamed hinside hclass
  · intro h
    apply And.intro h.question
    intro n o hn ho
    exact safe_parseRR.mpr ⟨h.record n o hn ho, fun e ls => h.rdata n o e ls hn ho⟩

end Places

section Reply
variable (b : List UInt8)

instance : Decidable (HeaderFits b) := inferInstanceAs (Decidable (_ ∧ _))

def replyOf (qdptr : List Query) (anptr nsptr arptr : List RR) : Reply :=
  let c := (b.getD 2 0).toNat
  let d := (b.getD 3 0).toNat
  ⟨c / 2 ^ 0 % 2, c / 2 ^ 1 % 2, c / 2 ^ 2 % 2, c / 2 ^ 3 % 2 ^ 4, c / 2 ^ 7 % 2, d / 2 ^ 7 % 2,
    d % 2 ^ 4, u16 b 4, u16 b 6, u16 b 8, u16 b 10, qdptr, anptr, nsptr, arptr⟩

theorem replyparse_eq :
    replyparse b =
      if HeaderFits b then
        many (parseQuestion b) (qdcount b) ⟨.reply, 12⟩ >>= fun qd =>
          many (parseRR b) (u16 b 6) qd.2 >>= fun an =>
            many (parseRR b) (u16 b 8) an.2 >>= fun ns =>
              many (parseRR b) (u16 b 10) ns.2 >>= fun ar =>
                .value (replyOf b qd.1 an.1 ns.1 ar.1)
      else .null := by
  rw [replyparse]
  by_cases hshort : b.length < 12
  · rw [if_pos hshort, if_neg (fun h => by have := h.1; omega)]
  rw [if_neg hshort, peek_inside (by omega), value_bind, peek_inside (by omega), value_bind,
    be16_inside (by omega), value_bind, be16_inside (by omega), value_bind,
    be16_inside (by omega), value_bind, be16_inside (by omega), value_bind]
  by_cases hcounts : qdcount b + rrcount b < b.length
  · have hfits : HeaderFits b := ⟨by omega, hcounts⟩
    rw [qdcount, rrcount] at hcounts
    rw [if_neg (by omega), if_pos hfits]
    rfl
  · have hfits : ¬ HeaderFits b := fun h => hcounts h.2
    rw [qdcount, rrcount] at hcounts
    rw [if_pos (by omega), if_neg hfits]

variable {b}

theorem error_ne_end (o : Nat) : (⟨.error, o⟩ : Ptr) ≠ replyEnd b := by
  rw [replyEnd]
  intro no
  cases no

/-- The label that stands for a name that went wrong is itself read without fault. -/
theorem safe_error (namebuf : Bool) : Safe (replyuncompress b .error namebuf) := by
  have hfirst : uncompressStep b namebuf ⟨.error, none, 0, [], 0⟩ = .value (.inl
      ⟨⟨.error, 6⟩, none, 5, if namebuf then str "error" else [], 0⟩) := by
    rw [uncompressStep, if_neg (error_ne_end 0)]
    cases namebuf <;> rfl
  have hlast : uncompressStep b namebuf ⟨⟨.error, 6⟩, none, 5,
      if namebuf then str "error" else [], 0⟩ =
        .value (.inr (if namebuf then str "error" else [], ⟨.error, 7⟩)) := by
    rw [uncompressStep, if_neg (error_ne_end 6)]
    cases namebuf <;> rfl
  rw [replyuncompress, uncompressLoop_eq, hfirst, value_bind, Sum.elim_inl, uncompressLoop_eq,
    hlast, value_bind, Sum.elim_inr]
  exact safe_value _

theorem Good.safe {p : Ptr} (h : Good b p) (namebuf : Bool) :
    Safe (replyuncompress b p namebuf) := by
  rcases h with rfl | ⟨o, rfl, hfits⟩
  · exact safe_error namebuf
  · exact safe_replyuncompress.mpr hfits

theorem good_query {o : Nat} {a : Query} {q : Ptr}
    (h : parseQuestion b ⟨.reply, o⟩ = .value (a, q)) : Good b a.name := by
  have hsafe : Safe (parseQuestion b ⟨.reply, o⟩) := by
    rw [h]
    exact safe_value _
  obtain ⟨e, ls, -, -, rfl, -⟩ := parseQuestion_eq_value.mp h
  exact Or.inr ⟨o, rfl, safe_parseQuestion.mp hsafe⟩

theorem good_rr {o : Nat} {a : RR} {q : Ptr} (h : parseRR b ⟨.reply, o⟩ = .value (a, q)) :
    ∀ p ∈ a.rrname :: a.rr.labels, Good b p := by
  have hsafe : Safe (parseRR b ⟨.reply, o⟩) := by
    rw [h]
    exact safe_value _
  obtain ⟨e, ls, rr, -, -, hrr, rfl, -⟩ := parseRR_eq_value h
  intro p hp
  rcases List.mem_cons.mp hp with rfl | hp
  · exact Or.inr ⟨o, rfl, (safe_parseRR.mp hsafe).1⟩
  · exact labels_doparse hrr p hp

/-- The text of a record, at any position, is read within its data. -/
theorem safe_rrGettxt {o : Nat} {a : RR} {q : Ptr} (h : parseRR b ⟨.reply, o⟩ = .value (a, q))
    (startpos : Int) : Safe (rrGettxt b a startpos) := by
  obtain ⟨e, ls, rr, -, hinside, -, rfl, -⟩ := parseRR_eq_value h
  apply safe_ite fun _ => safe_value _
  intro hpos
  simp only [recordFields, not_or, not_lt, ge_iff_le, not_le] at hpos ⊢
  rw [rdataPtr_of_pos (by omega), Ptr.add_mk, peek_inside (by omega), value_bind]
  apply safe_ite fun _ => safe_value _
  intro hlen
  rw [Ptr.add_mk, copy_inside b _ (by omega), value_bind]
  exact safe_value _

theorem after_parseRR {n o : Nat} {q : Ptr} (h : After (parseRR b) n ⟨.reply, o⟩ q) :
    ∃ o', q = ⟨.reply, o'⟩ := by
  generalize hp : (⟨.reply, o⟩ : Ptr) = p at h
  induction h with
  | zero => exact ⟨o, hp.symm⟩
  | succ _ hitem ih =>
      obtain ⟨o', rfl⟩ := ih hp
      obtain ⟨e, ls, rr, -, -, -, -, rfl⟩ := parseRR_eq_value hitem
      exact ⟨_, rfl⟩

theorem records_read {n o : Nat} {as : List RR} {q : Ptr}
    (h : many (parseRR b) n ⟨.reply, o⟩ = .value (as, q)) :
    (∃ o', q = ⟨.reply, o'⟩) ∧
      ∀ a ∈ as, ∃ o' q', parseRR b ⟨.reply, o'⟩ = .value (a, q') := by
  obtain ⟨hafter, hall⟩ := after_of_many h
  apply And.intro (after_parseRR hafter)
  intro a ha
  obtain ⟨i, r, r', -, hr, hitem⟩ := hall a ha
  obtain ⟨o', rfl⟩ := after_parseRR hr
  exact ⟨o', r', hitem⟩

theorem replyparse_read {r : Reply} (h : replyparse b = .value r) :
    (∀ a ∈ r.qdptr, ∃ o q, parseQuestion b ⟨.reply, o⟩ = .value (a, q)) ∧
      ∀ a ∈ r.allrrs, ∃ o q, parseRR b ⟨.reply, o⟩ = .value (a, q) := by
  rw [replyparse_eq] at h
  split_ifs at h
  obtain ⟨⟨qd, p⟩, hqd, h⟩ := bind_eq_value.mp h
  obtain ⟨⟨an, p₁⟩, han, h⟩ := bind_eq_value.mp h
  obtain ⟨⟨ns, p₂⟩, hns, h⟩ := bind_eq_value.mp h
  obtain ⟨⟨ar, p₃⟩, har, h⟩ := bind_eq_value.mp h
  cases h
  obtain ⟨hafter, hquestions⟩ := after_of_many hqd
  obtain ⟨o, rfl, -⟩ := after_question.mp hafter
  obtain ⟨⟨o₁, rfl⟩, hanrr⟩ := records_read han
  obtain ⟨⟨o₂, rfl⟩, hnsrr⟩ := records_read hns
  obtain ⟨-, harrr⟩ := records_read har
  constructor
  · intro a ha
    obtain ⟨i, r, r', -, hr, hitem⟩ := hquestions a ha
    obtain ⟨o', rfl, -⟩ := after_question.mp hr
    exact ⟨o', r', hitem⟩
  · intro a ha
    simp only [Reply.allrrs, replyOf, List.mem_append] at ha
    rcases ha with (ha | ha) | ha
    · exact hanrr a ha
    · exact hnsrr a ha
    · exact harrr a ha

/-- Parsing the bytes as a reply, and then uncompressing any name stored in it and taking any text
of its records, does not leave the bytes, read through a null pointer or overrun a name buffer. -/
def ReadSafely (b : List UInt8) : Prop :=
  Safe (replyparse b) ∧ ∀ r, replyparse b = .value r →
    (∀ p ∈ r.labels, ∀ namebuf, Safe (replyuncompress b p namebuf)) ∧
      ∀ rr ∈ r.allrrs, ∀ startpos, Safe (rrGettxt b rr startpos)

theorem safe_stored {r : Reply} (h : replyparse b = .value r) :
    (∀ p ∈ r.labels, ∀ namebuf, Safe (replyuncompress b p namebuf)) ∧
      ∀ rr ∈ r.allrrs, ∀ startpos, Safe (rrGettxt b rr startpos) := by
  obtain ⟨hquestions, hrecords⟩ := replyparse_read h
  constructor
  · intro p hp namebuf
    apply Good.safe
    rcases List.mem_append.mp hp with hp | hp
    · obtain ⟨a, ha, rfl⟩ := List.mem_map.mp hp
      obtain ⟨o, q, hitem⟩ := hquestions a ha
      exact good_query hitem
    · obtain ⟨a, ha, hp⟩ := List.mem_flatMap.mp hp
      obtain ⟨o, q, hitem⟩ := hrecords a ha
      exact good_rr hitem p hp
  · intro rr hrr startpos
    obtain ⟨o, q, hitem⟩ := hrecords rr hrr
    exact safe_rrGettxt hitem startpos

theorem safe_replyparse : Safe (replyparse b) ↔ (HeaderFits b → Readable b) := by
  rw [replyparse_eq]
  by_cases hfits : HeaderFits b
  · rw [if_pos hfits, safe_bind]
    apply Iff.trans _ ⟨fun h _ => h, fun h => h hfits⟩
    rw [← safe_items]
    apply and_congr_right
    intro _
    apply forall_congr'
    intro qd
    apply imp_congr_right
    intro _
    rw [rrcount, Nat.add_assoc]
    simp only [safe_many_add, safe_bind, safe_value, implies_true, and_true]
  · rw [if_neg hfits]
    exact iff_of_true safe_null fun h => absurd h hfits

/-- A reply is read safely exactly when it is readable, or rejected for its header. -/
theorem readSafely_iff (b : List UInt8) : ReadSafely b ↔ (HeaderFits b → Readable b) := by
  rw [ReadSafely, safe_replyparse]
  exact and_iff_left_of_imp fun _ _ => safe_stored

/-- One question, whose name is a label of 63 bytes of which two are there. -/
def overrun : List UInt8 := [0, 0, 0, 0, 0, 1, 0, 0, 0, 0, 0, 0, 63, 97, 97]

def emptyCname : List UInt8 :=
  [0, 0, 0, 0, 0, 0, 0, 1, 0, 0, 0, 0, 0, 0, 5, 0, 1, 0, 0, 0, 0, 0, 0]

theorem not_readSafely_overrun :
    replyparse overrun = .fault .outside ∧ replyparse emptyCname = .fault .null ∧
      ¬ ReadSafely overrun ∧ ¬ ReadSafely emptyCname := by
  have houtside : replyparse overrun = .fault .outside := by decide +kernel
  have hnull : replyparse emptyCname = .fault .null := by decide +kernel
  refine ⟨houtside, hnull, fun h => ?_, fun h => ?_⟩
  · exact h.1 _ houtside
  · exact h.1 _ hnull

end Reply
end Cone.Rfc1035Reply
