import Cone.Spf
import Cone.Lib.ByteBits

/-! # Addresses and prefix lengths

The `a` and `mx` mechanisms with a domain and a dual-cidr-length, beside what the two lengths ask
of an address of each family. -/
set_option autoImplicit false
namespace Cone.SpfCidr

open Cone.Ctype Cone.Lib.Decimal Cone.Lib.Budget Cone.Lib.ByteBits Cone.Spf
open Cone.Rfc2045Header (tolower)

abbrev Text := List UInt8

section Lengths

structure Length (max : Nat) where
  digits : Text
  some_digits : digits ≠ []
  all_digits : ∀ c ∈ digits, isdigit c = true
  le : readDigits digits ≤ max

def Length.value {max : Nat} (n : Length max) : Nat := readDigits n.digits

/-- `/n`, `//m`, `/n//m` or nothing. -/
structure DualCidr where
  ip4 : Option (Length 32)
  ip6 : Option (Length 128)

def DualCidr.text4 (d : DualCidr) : Text :=
  match d.ip4 with
  | some n => byte '/' :: n.digits
  | none => []

def DualCidr.text6 (d : DualCidr) : Text :=
  match d.ip6 with
  | some m => byte '/' :: byte '/' :: m.digits
  | none => []

def DualCidr.text (d : DualCidr) : Text := d.text4 ++ d.text6

/-- The bits of an IPv4 address that count. -/
def DualCidr.n (d : DualCidr) : Nat := (d.ip4.map Length.value).getD 32

/-- The bits of an IPv6 address that count. -/
def DualCidr.m (d : DualCidr) : Nat := (d.ip6.map Length.value).getD 128

/-- The mapped IPv4 addresses start with these bytes. -/
def v4Prefix : Text := List.replicate 10 0 ++ [255, 255]

def IsV4 (a : Addr) : Prop := a.toList.take 12 = v4Prefix

instance (a : Addr) : Decidable (IsV4 a) :=
  inferInstanceAs (Decidable (a.toList.take 12 = v4Prefix))

def Matches (d : DualCidr) (client address : Addr) : Prop :=
  if IsV4 client then IsV4 address ∧ Agree d.n (client.toList.drop 12) (address.toList.drop 12)
  else ¬ IsV4 address ∧ Agree d.m client.toList address.toList

instance (d : DualCidr) (client address : Addr) : Decidable (Matches d client address) :=
  inferInstanceAs (Decidable (if IsV4 client
    then IsV4 address ∧ Agree d.n (client.toList.drop 12) (address.toList.drop 12)
    else ¬ IsV4 address ∧ Agree d.m client.toList address.toList))

end Lengths

section Names

inductive Kind where
  | a
  | mx
  deriving DecidableEq, Repr

def Kind.letters : Kind → Text
  | .a => str "a"
  | .mx => str "mx"

/-- What stands behind the letters. -/
def written (domain : Option Text) (d : DualCidr) : Text :=
  match domain with
  | some domain => byte ':' :: (domain ++ d.text)
  | none => d.text

/-- The `<target-name>`. -/
def target (domain : Option Text) (info : Info) : Text := domain.getD info.currentDomain

def answer (w : World) (kind : Kind) (question : Nat) (name : Text) : Int × List Addr :=
  match kind with
  | .a => w.a question name
  | .mx => ((w.mxlist question name).1, (w.mxlist question name).2.filterMap id)

def Right (kind : Kind) (word : Text) (domain : Option Text) (d : DualCidr) (info : Info)
    (client : Addr) : Prop :=
  ∀ (w : World) (lookup : Info → Run State UInt8) (s : State) (addresses : List Addr),
    w.aton info.tcpremoteip = some client → w.malloc s.asked = true →
    (∀ question, answer w kind question (target domain info) = (0, addresses)) →
    ∃ rc t, mechanism w lookup (word ++ written domain d) info s = some (rc, t) ∧
      (rc = SPF_PASS ↔ ∃ address ∈ addresses, Matches d client address)

/-- The one length the code uses says what the two of the text say. -/
def Exact (d : DualCidr) (client : Addr) : Prop :=
  if IsV4 client then ∀ m ∈ d.ip6, m.value = d.n + 96
  else (d.ip6 = none → d.n = 32) ∧ ¬ Agree d.m client.toList v4Prefix

end Names

section Bits
variable {max : Nat}

theorem ipCompareLoop_iff {a b : Text} (h : a.length = b.length) (n : Nat) :
    ipCompareLoop (a.zip b) n = true ↔ Agree n a b := by
  induction a generalizing b n with
  | nil =>
      obtain rfl : b = [] := List.length_eq_zero_iff.1 h.symm
      exact iff_of_true rfl (Agree.refl n [])
  | cons c a ih =>
      cases b with
      | nil => cases h
      | cons d b =>
          have hlen : a.length = b.length := Nat.succ.inj h
          have hmin : ∀ e : UInt8, (byteBits e).take n = (byteBits e).take (min n 8) := by
            intro e
            rw [List.take_eq_take_iff, length_byteBits]
            omega
          have hrest : n - min n 8 = n - 8 := by omega
          rw [List.zip_cons_cons, ipCompareLoop, Agree, bits_cons, bits_cons, List.take_append,
            List.take_append, length_byteBits, length_byteBits, hmin c, hmin d]
          change (if c &&& mask (min n 8) ≠ d &&& mask (min n 8) then false
            else ipCompareLoop (a.zip b) (n - min n 8)) = true ↔ _
          by_cases hbyte : c &&& mask (min n 8) = d &&& mask (min n 8)
          · have htake := (and_mask_eq_iff (Nat.min_le_right n 8) c d).1 hbyte
            rw [if_neg (not_not.2 hbyte), hrest, ih hlen, htake, List.append_cancel_left_eq]
            exact Iff.rfl
          · rw [if_pos hbyte]
            refine iff_of_false Bool.false_ne_true fun he => hbyte ?_
            refine (and_mask_eq_iff (Nat.min_le_right n 8) c d).2 (List.append_inj he ?_).1
            rw [List.length_take, List.length_take, length_byteBits, length_byteBits]

theorem ipCompare_iff (a b : Addr) (n : Nat) :
    ipCompare a b n = true ↔ Agree n a.toList b.toList := by
  rw [ipCompare, if_neg (by omega), Int.toNat_natCast]
  exact ipCompareLoop_iff (by rw [Vector.length_toList, Vector.length_toList]) n

theorem atoi_digits {p : Text} (hne : p ≠ []) (h : ∀ c ∈ p, isdigit c = true) :
    atoi p = readDigits p := by
  obtain ⟨c, q, rfl⟩ := List.exists_cons_of_ne_nil hne
  obtain ⟨hspace, hminus, hplus⟩ := isdigit_facts c (h c List.mem_cons_self)
  rw [atoi, List.dropWhile_cons_of_neg (by rw [hspace]; decide)]
  dsimp only
  rw [if_neg hminus, if_neg hplus]

def codeBits (d : DualCidr) : Nat :=
  match d.ip6 with
  | some m => m.value
  | none =>
    match d.ip4 with
    | some n => n.value + 96
    | none => 128

theorem slash_not_digit : isdigit (byte '/') = false := by decide

theorem find_double {p : Text} (h : ∀ c ∈ p, isdigit c = true) :
    (p.tails.find? fun q => q.take 2 = str "//") = none := by
  refine List.find?_eq_none.2 fun q mem he => ?_
  have hsuffix := (List.mem_tails q p).1 mem
  have htake : q.take 2 = str "//" := of_decide_eq_true he
  have hmem : byte '/' ∈ q.take 2 := by
    rw [htake]
    exact List.mem_cons_self
  have hdigit := h _ (hsuffix.subset (List.take_subset 2 q hmem))
  rw [slash_not_digit] at hdigit
  cases hdigit

/-- The length behind `//` is found behind the digits of the other one. -/
theorem find_text6 {p q : Text} (h : ∀ c ∈ p, isdigit c = true) :
    ((p ++ byte '/' :: byte '/' :: q).tails.find? fun q => q.take 2 = str "//") =
      some (byte '/' :: byte '/' :: q) := by
  induction p with
  | nil => rfl
  | cons c p ih =>
      have hne : ¬ ((c :: p ++ byte '/' :: byte '/' :: q).take 2 = str "//") := by
        intro he
        have hc : c = byte '/' := by
          cases p with
          | nil => exact List.head_eq_of_cons_eq he
          | cons d p => exact List.head_eq_of_cons_eq he
        have hdigit := h c List.mem_cons_self
        rw [hc, slash_not_digit] at hdigit
        cases hdigit
      rw [List.cons_append] at hne
      rw [List.cons_append, List.tails_cons, List.find?_cons, decide_eq_false hne]
      exact ih fun d mem => h d (List.mem_cons_of_mem _ mem)

theorem find_slash {p q : Text} (hne : p ≠ []) (h : ∀ c ∈ p, isdigit c = true) :
    ((byte '/' :: (p ++ q)).tails.find? fun q => q.take 2 = str "//") =
      (p ++ q).tails.find? fun q => q.take 2 = str "//" := by
  obtain ⟨c, p, rfl⟩ := List.exists_cons_of_ne_nil hne
  have hno : ¬ ((byte '/' :: (c :: p ++ q)).take 2 = str "//") := by
    intro he
    have hc : c = byte '/' := List.head_eq_of_cons_eq (List.tail_eq_of_cons_eq he)
    have hdigit := h c List.mem_cons_self
    rw [hc, slash_not_digit] at hdigit
    cases hdigit
  rw [List.tails_cons, List.find?_cons, decide_eq_false hno]

theorem getDualCidrLength_text {d : DualCidr} (h : d.text ≠ []) :
    getDualCidrLength d.text = codeBits d := by
  obtain ⟨ip4, ip6⟩ := d
  rw [getDualCidrLength]
  cases ip6 with
  | none =>
      cases ip4 with
      | none => exact absurd rfl h
      | some n =>
          have hfind := find_slash (q := []) n.some_digits n.all_digits
          rw [List.append_nil, find_double n.all_digits] at hfind
          have hatoi := atoi_digits n.some_digits n.all_digits
          simp only [DualCidr.text, DualCidr.text4, DualCidr.text6, List.append_nil, hfind,
            List.drop_one, List.tail_cons, hatoi, codeBits, Length.value]
          omega
  | some m =>
      have hatoi := atoi_digits m.some_digits m.all_digits
      cases ip4 with
      | none =>
          have hfind := find_text6 (p := []) (q := m.digits) (fun c mem => nomatch mem)
          simp only [DualCidr.text, DualCidr.text4, DualCidr.text6]
          rw [hfind]
          exact hatoi
      | some n =>
          have hfind := find_slash (q := byte '/' :: byte '/' :: m.digits) n.some_digits
            n.all_digits
          rw [find_text6 n.all_digits] at hfind
          simp only [DualCidr.text, DualCidr.text4, DualCidr.text6, List.cons_append]
          rw [hfind]
          exact hatoi

end Bits
section Families
variable {d : DualCidr} {client address : Addr}

theorem DualCidr.n_le (d : DualCidr) : d.n ≤ 32 := by
  obtain ⟨ip4, ip6⟩ := d
  cases ip4 with
  | none => exact Nat.le_refl 32
  | some n => exact n.le

theorem DualCidr.m_le (d : DualCidr) : d.m ≤ 128 := by
  obtain ⟨ip4, ip6⟩ := d
  cases ip6 with
  | none => exact Nat.le_refl 128
  | some m => exact m.le

theorem codeBits_le (d : DualCidr) : codeBits d ≤ 128 := by
  obtain ⟨ip4, ip6⟩ := d
  cases ip6 with
  | some m => exact m.le
  | none =>
      cases ip4 with
      | none => exact Nat.le_refl 128
      | some n => exact Nat.add_le_add_right n.le 96

theorem codeBits_v4 (d : DualCidr) :
    codeBits d = d.n + 96 ↔ ∀ m ∈ d.ip6, m.value = d.n + 96 := by
  obtain ⟨ip4, ip6⟩ := d
  cases ip6 with
  | some m => exact ⟨fun h x mem => Option.mem_some_iff.1 mem ▸ h, fun h => h m rfl⟩
  | none =>
      refine iff_of_true ?_ fun m mem => nomatch mem
      cases ip4 <;> rfl

theorem codeBits_v6 (d : DualCidr) : codeBits d = d.m ↔ (d.ip6 = none → d.n = 32) := by
  obtain ⟨ip4, ip6⟩ := d
  cases ip6 with
  | some m => exact iff_of_true rfl fun h => nomatch h
  | none =>
      cases ip4 with
      | none => exact iff_of_true rfl fun _ => rfl
      | some n =>
          show n.value + 96 = 128 ↔ (none = none → n.value = 32)
          constructor
          · intro h _
            omega
          · intro h
            rw [h rfl]

theorem codeBits_le_m (d : DualCidr) : codeBits d ≤ d.m := by
  have hle := codeBits_le d
  obtain ⟨ip4, ip6⟩ := d
  cases ip6 with
  | some m => exact Nat.le_refl _
  | none => exact hle

theorem length_addr (a : Addr) : a.toList.length = 16 := Vector.length_toList

theorem agree_split (n : Nat) (a b : Addr) :
    Agree (96 + n) a.toList b.toList ↔
      a.toList.take 12 = b.toList.take 12 ∧ Agree n (a.toList.drop 12) (b.toList.drop 12) := by
  have ha : (a.toList.take 12).length = 12 := by rw [List.length_take, length_addr]; rfl
  have hb : (b.toList.take 12).length = 12 := by rw [List.length_take, length_addr]; rfl
  have h := @agree_append n (a.toList.take 12) (b.toList.take 12) (a.toList.drop 12)
    (b.toList.drop 12) (ha.trans hb.symm)
  rwa [List.take_append_drop, List.take_append_drop, ha] at h

theorem agree_v4 (h : IsV4 client) (n : Nat) :
    Agree (n + 96) client.toList address.toList ↔
      IsV4 address ∧ Agree n (client.toList.drop 12) (address.toList.drop 12) := by
  rw [Nat.add_comm, agree_split, h, IsV4, eq_comm]

theorem isV4_of_agree {n : Nat} (hn : 96 ≤ n) (h : Agree n client.toList address.toList)
    (hv : IsV4 address) : IsV4 client := by
  have h96 := (agree_split 0 client address).1 (h.mono hn)
  rw [IsV4, h96.1]
  exact hv

theorem IsV4.agree {n : Nat} (hv : IsV4 address) (hn : n ≤ 96) :
    Agree n address.toList v4Prefix := by
  have h := @agree_append_left n v4Prefix (address.toList.drop 12) [] hn
  rw [List.append_nil] at h
  have heq : v4Prefix ++ address.toList.drop 12 = address.toList := by
    rw [← hv, List.take_append_drop]
  rwa [heq] at h

theorem matches_self (d : DualCidr) (client : Addr) : Matches d client client := by
  rw [Matches]
  by_cases h : IsV4 client
  · rw [if_pos h]
    exact ⟨h, Agree.refl _ _⟩
  · rw [if_neg h]
    exact ⟨h, Agree.refl _ _⟩

def addrOf (l : Text) (h : l.length = 16) : Addr := ⟨l.toArray, by rw [List.size_toArray, h]⟩

theorem exists_address {n : Nat} (client : Addr) (h : n < 128) :
    ∃ address : Addr, Agree n client.toList address.toList ∧
      ∀ k, n < k → ¬ Agree k client.toList address.toList := by
  obtain ⟨l, hl, hagree, hno⟩ := @exists_agree n client.toList (by rw [length_addr]; exact h)
  exact ⟨addrOf l (hl.trans (length_addr client)), hagree, hno⟩

theorem matches_of_exact (exact' : Exact d client) (address : Addr) :
    Agree (codeBits d) client.toList address.toList ↔ Matches d client address := by
  rw [Exact] at exact'
  rw [Matches]
  by_cases h : IsV4 client
  · rw [if_pos h] at exact' ⊢
    rw [(codeBits_v4 d).2 exact', agree_v4 h]
  · rw [if_neg h] at exact' ⊢
    obtain ⟨hbits, hprefix⟩ := exact'
    rw [(codeBits_v6 d).2 hbits]
    refine ⟨fun hagree => ⟨fun hv => ?_, hagree⟩, fun hm => hm.2⟩
    by_cases hle : d.m ≤ 96
    · exact hprefix (hagree.trans (hv.agree hle))
    · exact h (isV4_of_agree (by omega) hagree hv)

theorem exact_of_matches
    (same : ∀ address : Addr, Agree (codeBits d) client.toList address.toList ↔
      Matches d client address) : Exact d client := by
  have hn := d.n_le
  have hm := d.m_le
  have hcode := codeBits_le d
  rw [Exact]
  by_cases h : IsV4 client
  · have hsame : ∀ address : Addr, Agree (codeBits d) client.toList address.toList ↔
        Agree (d.n + 96) client.toList address.toList := by
      intro address
      rw [same address, Matches, if_pos h, agree_v4 h]
    rw [if_pos h, ← codeBits_v4]
    rcases Nat.lt_trichotomy (codeBits d) (d.n + 96) with hlt | heq | hgt
    · obtain ⟨address, hagree, hno⟩ := exists_address client (n := codeBits d) (by omega)
      exact absurd ((hsame address).1 hagree) (hno _ hlt)
    · exact heq
    · obtain ⟨address, hagree, hno⟩ := exists_address client (n := d.n + 96) (by omega)
      exact absurd ((hsame address).2 hagree) (hno _ hgt)
  · have hsame : ∀ address : Addr, Agree (codeBits d) client.toList address.toList ↔
        ¬ IsV4 address ∧ Agree d.m client.toList address.toList := by
      intro address
      rw [same address, Matches, if_neg h]
    have hbits : codeBits d = d.m := by
      by_contra hne
      have hlt : codeBits d < d.m := Nat.lt_of_le_of_ne (codeBits_le_m d) hne
      obtain ⟨address, hagree, hno⟩ := exists_address client (n := codeBits d) (by omega)
      exact hno _ hlt ((hsame address).1 hagree).2
    rw [if_neg h, ← codeBits_v6]
    refine ⟨hbits, fun hprefix => ?_⟩
    have hle : d.m ≤ 96 := by
      have hlen := congrArg List.length hprefix
      rw [List.length_take, List.length_take, length_bits, length_bits, length_addr] at hlen
      have h12 : v4Prefix.length = 12 := rfl
      omega
    -- the client's last bytes behind the prefix of the mapped addresses
    let address := addrOf (v4Prefix ++ client.toList.drop 12)
      (by rw [List.length_append, List.length_drop, length_addr]; rfl)
    have hv : IsV4 address := rfl
    have hagree : Agree (codeBits d) client.toList address.toList :=
      hbits ▸ hprefix.trans (hv.agree hle).symm
    exact ((hsame address).1 hagree).1 hv

end Families

section Mechanism
variable {w : World} {lookup : Info → Run State UInt8} {kind : Kind} {word : Text}
  {domain : Option Text} {d : DualCidr} {info : Info} {client : Addr} {s : State}

theorem DualCidr.text_cons (d : DualCidr) : d.text = [] ∨ ∃ q, d.text = byte '/' :: q := by
  obtain ⟨ip4, ip6⟩ := d
  cases ip4 with
  | some n => exact Or.inr ⟨_, rfl⟩
  | none =>
      cases ip6 with
      | some m => exact Or.inr ⟨_, rfl⟩
      | none => exact Or.inl rfl

theorem codeBits_nil {d : DualCidr} (h : d.text = []) : codeBits d = 128 := by
  obtain ⟨ip4, ip6⟩ := d
  cases ip4 with
  | some n => cases h
  | none =>
      cases ip6 with
      | some m => cases h
      | none => rfl

/-- The name the code asks for. -/
def asked (domain : Option Text) (info : Info) : Text :=
  domain.getD (afterLast (byte '@') info.mailfrom)

theorem getDomainPfix_written (single : ∀ name ∈ domain, byte '/' ∉ name)
    (allocated : w.malloc s.asked = true) :
    getDomainPfix w info (written domain d) s =
      some ((some (asked domain info), (codeBits d : Int)), { s with asked := s.asked + 1 }) := by
  have hask : ask w.malloc s = some (true, { s with asked := s.asked + 1 }) := by
    rw [ask, allocated]
  rw [getDomainPfix, bind_of_eq hask]
  cases domain with
  | none =>
      rcases d.text_cons with hnil | ⟨q, hq⟩
      · have hw : written none d = [] := hnil
        rw [hw, codeBits_nil hnil]
        rfl
      · have hw : written none d = byte '/' :: q := hq
        have hbits := getDualCidrLength_text (d := d) (by rw [hq]; exact List.cons_ne_nil _ _)
        rw [hq] at hbits
        rw [hw, ← hbits]
        rfl
  | some name =>
      have hname : ∀ c ∈ name, decide (c ≠ byte '/') = true := fun c mem =>
        decide_eq_true fun he => single name rfl (he ▸ mem)
      have hdrop : (name ++ d.text).dropWhile (· ≠ byte '/') = d.text := by
        rw [List.dropWhile_append_of_pos hname]
        rcases d.text_cons with hnil | ⟨q, hq⟩
        · rw [hnil]
          rfl
        · rw [hq]
          rfl
      have htake : (name ++ d.text).takeWhile (· ≠ byte '/') = name := by
        rw [List.takeWhile_append_of_pos hname]
        rcases d.text_cons with hnil | ⟨q, hq⟩
        · rw [hnil]
          exact List.append_nil name
        · rw [hq]
          exact List.append_nil name
      have hbits :
          (if d.text ≠ [] then getDualCidrLength d.text else 128) = (codeBits d : Int) := by
        by_cases hnil : d.text = []
        · rw [if_neg (not_not.2 hnil), codeBits_nil hnil]
          rfl
        · rw [if_pos hnil, getDualCidrLength_text hnil]
      show some ((some ((name ++ d.text).takeWhile (· ≠ byte '/')),
        if (name ++ d.text).dropWhile (· ≠ byte '/') ≠ [] then
          getDualCidrLength ((name ++ d.text).dropWhile (· ≠ byte '/')) else 128), _) = _
      rw [htake, hdrop, hbits]
      rfl

/-- The letters of the mechanism end where a domain or a length begins. -/
theorem charAt_written (domain : Option Text) (d : DualCidr) :
    charAt (written domain d) = NUL ∨ charAt (written domain d) = byte ':' ∨
      charAt (written domain d) = byte '/' := by
  cases domain with
  | some name => exact Or.inr (Or.inl rfl)
  | none =>
      rcases d.text_cons with hnil | ⟨q, hq⟩
      · exact Or.inl (congrArg charAt hnil)
      · exact Or.inr (Or.inr (congrArg charAt hq))

theorem strcasecmp_cons {c c' : UInt8} {p q : Text} (h : strcasecmp (c :: p) (c' :: q) = true) :
    tolower c = tolower c' :=
  List.head_eq_of_cons_eq (of_decide_eq_true h)

theorem mechanism_a {c : UInt8} {start : Text} (hc : tolower c = byte 'a')
    (hstart : charAt start = NUL ∨ charAt start = byte ':' ∨ charAt start = byte '/') :
    mechanism w lookup (c :: start) info = mechanismA w start info := by
  have hall : ¬ strcasecmp (c :: start) (str "all") = true := by
    intro h
    cases start with
    | nil => exact absurd (of_decide_eq_true h) (by simp [str])
    | cons e start =>
        have hl : tolower e = tolower (byte 'l') :=
          List.head_eq_of_cons_eq (List.tail_eq_of_cons_eq (of_decide_eq_true h))
        rcases hstart with rfl | rfl | rfl <;> exact absurd hl (by decide)
  have hinclude : ¬ strncasecmp (c :: start) (str "include:") = true := by
    intro h
    have hi := strcasecmp_cons (p := start.take 7) (q := str "nclude:") h
    rw [hc] at hi
    exact absurd hi (by decide)
  have ha : (strncasecmp (c :: start) (str "a") &&
      [NUL, byte ':', byte '/'].contains (charAt ((c :: start).drop 1))) = true := by
    rw [Bool.and_eq_true_iff]
    refine ⟨decide_eq_true (congrArg (· :: []) (hc.trans (by decide))), ?_⟩
    rcases hstart with h | h | h <;> (rw [List.drop_one, List.tail_cons, h]; decide)
  rw [mechanism, if_neg hall, if_neg hinclude, if_pos ha]
  rfl

theorem mechanism_mx {c e : UInt8} {start : Text} (hc : tolower c = byte 'm')
    (he : tolower e = byte 'x')
    (hstart : charAt start = NUL ∨ charAt start = byte ':' ∨ charAt start = byte '/') :
    mechanism w lookup (c :: e :: start) info = mechanismMx w start info := by
  have hall : ¬ strcasecmp (c :: e :: start) (str "all") = true := by
    intro h
    have ha := strcasecmp_cons (p := e :: start) (q := str "ll") h
    rw [hc] at ha
    exact absurd ha (by decide)
  have hinclude : ¬ strncasecmp (c :: e :: start) (str "include:") = true := by
    intro h
    have hi := strcasecmp_cons (p := (e :: start).take 7) (q := str "nclude:") h
    rw [hc] at hi
    exact absurd hi (by decide)
  have ha : ¬ (strncasecmp (c :: e :: start) (str "a") &&
      [NUL, byte ':', byte '/'].contains (charAt ((c :: e :: start).drop 1))) = true := by
    intro h
    have hm := strcasecmp_cons (p := []) (q := []) (Bool.and_eq_true_iff.1 h).1
    rw [hc] at hm
    exact absurd hm (by decide)
  have hmx : (strncasecmp (c :: e :: start) (str "mx") &&
      [NUL, byte ':', byte '/'].contains (charAt ((c :: e :: start).drop 2))) = true := by
    rw [Bool.and_eq_true_iff]
    refine ⟨decide_eq_true ?_, ?_⟩
    · show [tolower c, tolower e] = _
      rw [hc, he]
      decide
    · show [NUL, byte ':', byte '/'].contains (charAt start) = true
      rcases hstart with h | h | h <;> (rw [h]; decide)
  rw [mechanism, if_neg hall, if_neg hinclude, if_neg ha, if_pos hmx]
  rfl

theorem mechanism_answer (spelled : strcasecmp word kind.letters = true)
    (single : ∀ name ∈ domain, byte '/' ∉ name) (haton : w.aton info.tcpremoteip = some client)
    (allocated : w.malloc s.asked = true) {addresses : List Addr}
    (hanswer : answer w kind (s.asked + 1) (asked domain info) = (0, addresses)) :
    ∃ t, mechanism w lookup (word ++ written domain d) info s =
      some (if addresses.any (ipCompare client · (codeBits d)) then SPF_PASS else SPF_FAIL, t) := by
  have hpfix := @getDomainPfix_written w domain d info s single allocated
  have hstart := charAt_written domain d
  have hword : word.map tolower = kind.letters.map tolower := of_decide_eq_true spelled
  refine ⟨{ s with asked := s.asked + 2 }, ?_⟩
  cases kind with
  | a =>
      obtain ⟨c, rfl⟩ : ∃ c, word = [c] := List.length_eq_one_iff.1 (by
        have hlen := congrArg List.length hword
        rwa [List.length_map, List.length_map] at hlen)
      have hc : tolower c = byte 'a' := (List.head_eq_of_cons_eq hword).trans (by decide)
      have hask : ask (w.a · (asked domain info)) { s with asked := s.asked + 1 } =
          some ((0, addresses), { s with asked := s.asked + 2 }) := by
        rw [ask]
        exact congrArg (fun x => some (x, _)) hanswer
      rw [List.singleton_append, mechanism_a hc hstart, mechanismA, bind_of_eq hpfix]
      dsimp only
      rw [haton]
      dsimp only
      rw [bind_of_eq hask]
      rfl
  | mx =>
      obtain ⟨c, e, rfl⟩ : ∃ c e, word = [c, e] := List.length_eq_two.1 (by
        have hlen := congrArg List.length hword
        rwa [List.length_map, List.length_map] at hlen)
      have hc : tolower c = byte 'm' := (List.head_eq_of_cons_eq hword).trans (by decide)
      have he : tolower e = byte 'x' :=
        (List.head_eq_of_cons_eq (List.tail_eq_of_cons_eq hword)).trans (by decide)
      obtain ⟨hrc, hlist⟩ := Prod.mk.inj hanswer
      have hask : ask (w.mxlist · (asked domain info)) { s with asked := s.asked + 1 } =
          some (w.mxlist (s.asked + 1) (asked domain info), { s with asked := s.asked + 2 }) := rfl
      rw [show [c, e] ++ written domain d = c :: e :: written domain d from rfl,
        mechanism_mx hc he hstart, mechanismMx, bind_of_eq hpfix]
      dsimp only
      rw [haton]
      dsimp only
      rw [bind_of_eq hask]
      rw [hrc, hlist]
      rfl

end Mechanism
section Claims

def known (client : Addr) (addresses : Text → List Addr) : World where
  gettxt _ := (SPF_NONE, [])
  aton _ := some client
  malloc _ := true
  strerror := []
  a _ name := (0, addresses name)
  mxlist _ name := (0, (addresses name).map some)
  ptr _ _ := .enoent
  txt _ _ := none

theorem answer_known (client : Addr) (addresses : Text → List Addr) (kind : Kind) (question : Nat)
    (name : Text) : answer (known client addresses) kind question name = (0, addresses name) := by
  cases kind with
  | a => rfl
  | mx =>
      show (_, ((addresses name).map some).filterMap id) = _
      rw [List.filterMap_map]
      exact congrArg (Prod.mk _) (List.filterMap_some)

theorem result_eq_pass (b : Bool) : (if b then SPF_PASS else SPF_FAIL) = SPF_PASS ↔ b = true := by
  cases b <;> decide

theorem any_ipCompare (client : Addr) (addresses : List Addr) (n : Nat) :
    addresses.any (ipCompare client · n) = true ↔
      ∃ address ∈ addresses, Agree n client.toList address.toList := by
  rw [List.any_eq_true]
  simp only [ipCompare_iff]

theorem mechanism_matches (kind : Kind) {word : Text}
    (spelled : strcasecmp word kind.letters = true) {domain : Option Text}
    (single : ∀ name ∈ domain, byte '/' ∉ name) (d : DualCidr) (info : Info) (client : Addr) :
    Right kind word domain d info client ↔
      (domain = none → afterLast (byte '@') info.mailfrom = info.currentDomain) ∧
        Exact d client := by
  constructor
  · intro right
    -- what the code makes of addresses that are known by name
    have result : ∀ addresses : Text → List Addr,
        (∃ address ∈ addresses (asked domain info), Agree (codeBits d) client.toList
          address.toList) ↔
          ∃ address ∈ addresses (target domain info), Matches d client address := by
      intro addresses
      obtain ⟨rc, t, hrun, hrc⟩ := right (known client addresses) (fun _ => pure SPF_NEUTRAL)
        ⟨0, [], 0, []⟩ (addresses (target domain info)) rfl rfl
        (fun question => answer_known client addresses kind question _)
      obtain ⟨t', hrun'⟩ := @mechanism_answer (known client addresses) (fun _ => pure SPF_NEUTRAL)
        kind word domain d info client ⟨0, [], 0, []⟩ spelled single rfl rfl
        (addresses (asked domain info)) (answer_known client addresses kind _ _)
      obtain ⟨hrc', -⟩ := Prod.mk.inj (Option.some.inj (hrun.symm.trans hrun'))
      rw [hrc', result_eq_pass, any_ipCompare] at hrc
      exact hrc
    constructor
    · rintro rfl
      by_contra hne
      have h := (result fun name => if name = info.currentDomain then [client] else []).2
        ⟨client, by simp [target], matches_self d client⟩
      obtain ⟨address, mem, _⟩ := h
      rw [if_neg (show asked none info ≠ info.currentDomain from hne)] at mem
      cases mem
    · refine exact_of_matches fun address => ?_
      have h := result fun _ => [address]
      simpa using h
  · rintro ⟨hdomain, hexact⟩ w lookup s addresses haton allocated hanswer
    have hasked : asked domain info = target domain info := by
      cases domain with
      | some name => rfl
      | none => exact hdomain rfl
    obtain ⟨t, hrun⟩ := @mechanism_answer w lookup kind word domain d info client s spelled single
      haton allocated addresses (by rw [hasked]; exact hanswer _)
    refine ⟨_, t, hrun, ?_⟩
    rw [result_eq_pass, any_ipCompare]
    simp only [matches_of_exact hexact]

def localClient : Addr := addrOf (v4Prefix ++ [127, 0, 0, 1]) rfl

def otherAddress : Addr := addrOf (v4Prefix ++ [1, 2, 3, 4]) rfl

def sixtyFour : Length 128 :=
  ⟨str "64", by decide, List.all_eq_true.1 (by decide : (str "64").all isdigit = true), by decide⟩

/-- Mail from `u@d`, in the record of `e`. -/
def nested : Info := ⟨str "u@d", str "e", str "127.0.0.1", [], [], [], 0⟩

theorem mechanism_matches_sample :
    Right .a (str "a") none ⟨none, none⟩ { nested with currentDomain := str "d" } localClient :=
  (@mechanism_matches .a (str "a") (by decide) none (fun _ mem => nomatch mem) ⟨none, none⟩
    { nested with currentDomain := str "d" } localClient).2
    ⟨fun _ => by decide, fun _ mem => nomatch mem⟩

/-- A length for IPv6 lets any IPv4 client pass, and without a domain it is the sender's that is
asked for, not that of the record. -/
theorem mechanism_not_matches :
    let run := fun (addresses : Text → List Addr) (name : Text) =>
      (mechanism (known localClient addresses) (fun _ => pure SPF_NEUTRAL) name nested
        ⟨0, [], 0, []⟩).map Prod.fst
    run (fun _ => [otherAddress]) (str "a:e//64") = some SPF_PASS ∧
      ¬ Matches ⟨none, some sixtyFour⟩ localClient otherAddress ∧
      run (fun name => if name = str "e" then [localClient] else []) (str "a") = some SPF_FAIL ∧
      run (fun name => if name = str "e" then [localClient] else []) (str "mx") =
        some SPF_FAIL ∧
      Matches ⟨none, none⟩ localClient localClient := by
  decide +kernel

end Claims
end Cone.SpfCidr
