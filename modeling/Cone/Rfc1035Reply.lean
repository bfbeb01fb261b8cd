import Cone.Lib.Checked
import Cone.Lib.WireNames

/-! # DNS replies

rfc1035/rfc1035reply.c and rfc1035/rfc1035gettxt.c.  A pointer is a region and an offset; reading
a byte that the region does not have, reading through a null pointer and writing behind the end
of a name buffer are faults.  The reply is the region `b`.  `malloc` does not fail. -/
set_option autoImplicit false
namespace Cone.Rfc1035Reply

open Cone.Ctype Cone.Lib.Checked
open Cone.Lib.WireNames (grown)

abbrev RFC1035_MAXNAMESIZE : Nat := 255

inductive Fault where
  | outside
  | null
  | overflow
  deriving DecidableEq, Repr

inductive Region where
  | null
  | reply
  | error
  deriving DecidableEq, Repr

structure Ptr where
  region : Region
  off : Nat
  deriving DecidableEq, Repr

abbrev Ptr.null : Ptr := ⟨.null, 0⟩

abbrev Ptr.error : Ptr := ⟨.error, 0⟩

def Ptr.add (p : Ptr) (n : Nat) : Ptr := { p with off := p.off + n }

@[simp] theorem Ptr.add_mk (r : Region) (o n : Nat) : Ptr.add ⟨r, o⟩ n = ⟨r, o + n⟩ := rfl

section Memory
variable (b : List UInt8)

def memory : Region → Option (List UInt8)
  | .null => none
  | .reply => some b
  | .error => some (5 :: str "error" ++ [NUL])

def peek (p : Ptr) : Outcome Fault UInt8 :=
  match memory b p.region with
  | none => .fault .null
  | some m =>
    match m[p.off]? with
    | none => .fault .outside
    | some c => .value c

/-- What `memcpy` copies from `p`. -/
def copy (p : Ptr) : Nat → Outcome Fault (List UInt8)
  | 0 => .value []
  | n + 1 => do
    let c ← peek b p
    let cs ← copy (p.add 1) n
    .value (c :: cs)

def store (namebuf : Bool) (i n : Nat) : Outcome Fault Unit :=
  if namebuf && decide (i + n > RFC1035_MAXNAMESIZE + 1) then .fault .overflow else .value ()

def be16 (p : Ptr) : Outcome Fault Nat := do
  let hi ← peek b p
  let lo ← peek b (p.add 1)
  .value (hi.toNat * 2 ^ 8 + lo.toNat)

def be32 (p : Ptr) : Outcome Fault Nat := do
  let hi ← be16 b p
  let lo ← be16 b (p.add 2)
  .value (hi * 2 ^ 16 + lo)

end Memory

/-- The variables of `rfc1035_replyuncompress`: `*ptr`, the pointer of the caller once `ptr` is
the function's own, `i`, the buffer and `cnt`. -/
structure Cursor where
  ptr : Ptr
  caller : Option Ptr
  i : Nat
  name : List UInt8
  cnt : Nat

section Uncompress
variable (b : List UInt8)

def replyEnd : Ptr := ⟨.reply, b.length⟩

def pointerStep (l : UInt8) (c : Cursor) : Outcome Fault Cursor :=
  if l &&& 0xC0 ≠ 0xC0 then .null
  else if c.ptr = replyEnd b then .null
  else do
    let lo ← peek b c.ptr
    let l := (l &&& 63).toNat * 2 ^ 8 + lo.toNat
    if l ≥ b.length then .null
    else if c.cnt + 1 > 100 then .null
    else
      let caller := c.caller.getD (c.ptr.add 1)
      .value { c with ptr := ⟨.reply, l⟩, caller := some caller, cnt := c.cnt + 1 }

def dotStep (namebuf : Bool) (c : Cursor) : Outcome Fault Cursor :=
  if c.i = 0 then .value c
  else if c.i ≥ RFC1035_MAXNAMESIZE then .null
  else do
    store namebuf c.i 1
    .value { c with i := c.i + 1, name := if namebuf then c.name ++ [byte '.'] else c.name }

/-- `if (namebuf) memcpy(namebuf+i, *ptr, l);` -/
def copyLabel (namebuf : Bool) (c : Cursor) (l : Nat) : Outcome Fault (List UInt8) := do
  store namebuf c.i l
  if namebuf then copy b c.ptr l else .value []

def labelStep (namebuf : Bool) (l : Nat) (c : Cursor) : Outcome Fault Cursor := do
  let c ← dotStep namebuf c
  if RFC1035_MAXNAMESIZE - c.i < l then .null
  else do
    let bytes ← copyLabel b namebuf c l
    .value { c with ptr := c.ptr.add l, i := c.i + l, name := c.name ++ bytes }

def uncompressStep (namebuf : Bool) (c : Cursor) : Outcome Fault (Cursor ⊕ (List UInt8 × Ptr)) :=
  if c.ptr = replyEnd b then .null
  else do
    let l ← peek b c.ptr
    let c := { c with ptr := c.ptr.add 1 }
    if l > 63 then do
      let c ← pointerStep b l c
      .value (.inl c)
    else if l = 0 then do
      store namebuf c.i 1
      .value (.inr (c.name, c.caller.getD c.ptr))
    else do
      let c ← labelStep b namebuf l.toNat c
      .value (.inl c)

theorem store_of_le {namebuf : Bool} {i n : Nat} (h : i + n ≤ RFC1035_MAXNAMESIZE + 1) :
    store namebuf i n = .value () := by
  have hnot : (namebuf && decide (i + n > RFC1035_MAXNAMESIZE + 1)) = false := by
    rw [Bool.and_eq_false_iff, decide_eq_false_iff_not]
    exact Or.inr (by omega)
  rw [store, hnot]
  rfl

def Cursor.dotted (c : Cursor) (namebuf : Bool) : List UInt8 :=
  if c.i ≠ 0 ∧ namebuf then c.name ++ [byte '.'] else c.name

def labelBytes (namebuf : Bool) (p : Ptr) (l : Nat) : Outcome Fault (List UInt8) :=
  if namebuf then copy b p l else .value []

/-- A label is taken exactly when the name has room for it, and no write is out of bounds. -/
theorem labelStep_eq (namebuf : Bool) (l : Nat) (c : Cursor) :
    labelStep b namebuf l c =
      if grown c.i l ≤ RFC1035_MAXNAMESIZE then do
        let bytes ← labelBytes b namebuf c.ptr l
        .value { c with ptr := c.ptr.add l, i := grown c.i l, name := c.dotted namebuf ++ bytes }
      else .null := by
  have hmax : RFC1035_MAXNAMESIZE = 255 := rfl
  unfold labelStep dotStep grown Cursor.dotted copyLabel
  by_cases hzero : c.i = 0
  · have hdot : ¬ (c.i ≠ 0 ∧ namebuf = true) := fun h => h.1 hzero
    rw [if_pos hzero, if_pos hzero, if_neg hdot, value_bind, Nat.zero_add]
    by_cases hroom : l ≤ RFC1035_MAXNAMESIZE
    · rw [if_neg (by omega), if_pos hroom, store_of_le (by omega), hzero, Nat.zero_add]
      rfl
    · rw [if_pos (by omega), if_neg hroom]
  · rw [if_neg hzero, if_neg hzero]
    by_cases hfull : c.i ≥ RFC1035_MAXNAMESIZE
    · rw [if_pos hfull, if_neg (by omega), null_bind]
    rw [if_neg hfull, store_of_le (by omega), value_bind, value_bind]
    dsimp only
    by_cases hroom : c.i + 1 + l ≤ RFC1035_MAXNAMESIZE
    · rw [if_neg (by omega), if_pos hroom, store_of_le (by omega), value_bind]
      cases namebuf with
      | false => simp [labelBytes]
      | true => simp [labelBytes, hzero]
    · rw [if_pos (by omega), if_neg hroom]

def Cursor.left (c : Cursor) : Nat := (RFC1035_MAXNAMESIZE - c.i) + (100 - c.cnt)

theorem pointerStep_left {l : UInt8} {c d : Cursor} (h : pointerStep b l c = .value d) :
    d.left < c.left := by
  unfold pointerStep at h
  by_cases hbits : l &&& 0xC0 ≠ 0xC0
  · rw [if_pos hbits] at h
    cases h
  rw [if_neg hbits] at h
  by_cases hend : c.ptr = replyEnd b
  · rw [if_pos hend] at h
    cases h
  rw [if_neg hend] at h
  obtain ⟨lo, -, h⟩ := bind_eq_value.mp h
  dsimp only at h
  split at h
  · cases h
  split at h
  · cases h
  · next hcnt =>
    cases h
    simp only [Cursor.left]
    omega

theorem labelStep_left {namebuf : Bool} {l : Nat} {c d : Cursor} (hl : 0 < l)
    (h : labelStep b namebuf l c = .value d) : d.left < c.left := by
  have hmax : RFC1035_MAXNAMESIZE = 255 := rfl
  rw [labelStep_eq] at h
  by_cases hroom : grown c.i l ≤ RFC1035_MAXNAMESIZE
  · rw [if_pos hroom] at h
    obtain ⟨bytes, -, h⟩ := bind_eq_value.mp h
    cases h
    have hgrown : c.i < grown c.i l := by
      rw [grown]
      split <;> omega
    simp only [Cursor.left]
    omega
  · rw [if_neg hroom] at h
    cases h

theorem uncompressStep_left {namebuf : Bool} {c d : Cursor}
    (h : uncompressStep b namebuf c = .value (.inl d)) : d.left < c.left := by
  unfold uncompressStep at h
  split at h
  · cases h
  obtain ⟨l, -, h⟩ := bind_eq_value.mp h
  dsimp only at h
  split at h
  · obtain ⟨d', hd, h⟩ := bind_eq_value.mp h
    cases h
    have hleft := pointerStep_left b hd
    exact hleft
  split at h
  · obtain ⟨_, -, h⟩ := bind_eq_value.mp h
    cases h
  · next hzero =>
    obtain ⟨d', hd, h⟩ := bind_eq_value.mp h
    cases h
    have hl : 0 < l.toNat := by
      rw [Nat.pos_iff_ne_zero]
      intro h0
      exact hzero (UInt8.toNat_inj.mp h0)
    have hleft := labelStep_left b hl hd
    exact hleft

def uncompressLoop (namebuf : Bool) (c : Cursor) : Outcome Fault (List UInt8 × Ptr) :=
  match _h : uncompressStep b namebuf c with
  | .fault f => .fault f
  | .null => .null
  | .value (.inr result) => .value result
  | .value (.inl d) => uncompressLoop namebuf d
  termination_by c.left
  decreasing_by exact uncompressStep_left b _h

def replyuncompress (p : Ptr) (namebuf : Bool) : Outcome Fault (List UInt8 × Ptr) :=
  uncompressLoop b namebuf ⟨p, none, 0, [], 0⟩

end Uncompress

abbrev RFC1035_TYPE_A : Nat := 1
abbrev RFC1035_TYPE_NS : Nat := 2
abbrev RFC1035_TYPE_MD : Nat := 3
abbrev RFC1035_TYPE_MF : Nat := 4
abbrev RFC1035_TYPE_CNAME : Nat := 5
abbrev RFC1035_TYPE_SOA : Nat := 6
abbrev RFC1035_TYPE_MB : Nat := 7
abbrev RFC1035_TYPE_MG : Nat := 8
abbrev RFC1035_TYPE_MR : Nat := 9
abbrev RFC1035_TYPE_PTR : Nat := 12
abbrev RFC1035_TYPE_HINFO : Nat := 13
abbrev RFC1035_TYPE_MINFO : Nat := 14
abbrev RFC1035_TYPE_MX : Nat := 15
abbrev RFC1035_TYPE_AAAA : Nat := 28
abbrev RFC1035_CLASS_IN : Nat := 1

structure Query where
  name : Ptr
  qtype : Nat
  qclass : Nat
  deriving DecidableEq, Repr

/-- The member of the union `rr` that is set. -/
inductive RData where
  | none
  | inaddr (addr : List UInt8)
  | in6addr (addr : List UInt8)
  | domainname (p : Ptr)
  | soa (mnameLabel rnameLabel : Ptr) (serial refresh retry expire minimum : Nat)
  | mx (preference : Nat) (mxLabel : Ptr)
  | hinfo (hinfoStr osStr : Ptr)
  | minfo (rmailbxLabel emailbxLabel : Ptr)
  deriving DecidableEq, Repr

structure RR where
  rrname : Ptr
  rrtype : Nat
  rrclass : Nat
  ttl : Nat
  rdlength : Nat
  rdata : Ptr
  rr : RData
  deriving DecidableEq, Repr

/-- The names that an `rr` points to. -/
def RData.labels : RData → List Ptr
  | .domainname p => [p]
  | .soa mnameLabel rnameLabel _ _ _ _ _ => [mnameLabel, rnameLabel]
  | .mx _ mxLabel => [mxLabel]
  | .minfo rmailbxLabel emailbxLabel => [rmailbxLabel, emailbxLabel]
  | _ => []

section Doparse
variable (b : List UInt8)

def skipName (p : Ptr) (limit : Nat) : Outcome Fault (Option Ptr) := do
  match ← (replyuncompress b p false).test with
  | none => .value none
  | some (_, q) => .value (if q.off > limit then none else some q)

def isDomainname (rrtype : Nat) : Bool :=
  [RFC1035_TYPE_CNAME, RFC1035_TYPE_MB, RFC1035_TYPE_MG, RFC1035_TYPE_MR, RFC1035_TYPE_MD,
    RFC1035_TYPE_MF, RFC1035_TYPE_NS, RFC1035_TYPE_PTR].contains rrtype

def doparseDomainname (rdata : Ptr) (rdlength : Nat) : Outcome Fault RData := do
  match ← skipName b rdata (rdata.off + rdlength) with
  | none => .value (.domainname .error)
  | some _ => .value (.domainname rdata)

abbrev soaError : RData := .soa .error .error 0 0 0 0 0

def doparseSoa (rdata : Ptr) (rdlength : Nat) : Outcome Fault RData := do
  if rdlength < 20 then .value soaError
  else do
    match ← skipName b rdata (rdata.off + rdlength) with
    | none => .value soaError
    | some rname => do
      match ← skipName b rname (rdata.off + rdlength - 20) with
      | none => .value soaError
      | some p => do
        let serial ← be32 b p
        let refresh ← be32 b (p.add 4)
        let retry ← be32 b (p.add 8)
        let expire ← be32 b (p.add 12)
        let minimum ← be32 b (p.add 16)
        .value (.soa rdata rname serial refresh retry expire minimum)

def doparseMx (rdata : Ptr) (rdlength : Nat) : Outcome Fault RData := do
  if rdlength < 2 then .value (.mx 0 .error)
  else do
    let preference ← be16 b rdata
    match ← skipName b (rdata.add 2) (rdata.off + rdlength) with
    | none => .value (.mx 0 .error)
    | some _ => .value (.mx preference (rdata.add 2))

def doparseHinfo (rdata : Ptr) (rdlength : Nat) : Outcome Fault RData := do
  if rdlength = 0 then .value (.hinfo .error .error)
  else do
    let l ← peek b rdata
    let q := (rdata.add 1).add l.toNat
    if l.toNat < rdlength ∧ q.off < rdata.off + rdlength then do
      let m ← peek b q
      if q.off + m.toNat < rdata.off + rdlength then .value (.hinfo rdata q)
      else .value (.hinfo .error .error)
    else .value (.hinfo .error .error)

def doparseMinfo (rdata : Ptr) (rdlength : Nat) : Outcome Fault RData := do
  match ← skipName b rdata (rdata.off + rdlength) with
  | none => .value (.minfo .error .error)
  | some emailbx => do
    match ← skipName b emailbx (rdata.off + rdlength) with
    | none => .value (.minfo .error .error)
    | some _ => .value (.minfo rdata emailbx)

def zeroes (n : Nat) : List UInt8 := List.replicate n 0

def doparse (rrtype rrclass rdlength : Nat) (rdata : Ptr) : Outcome Fault RData :=
  if rrclass ≠ RFC1035_CLASS_IN then .value .none
  else if rrtype = RFC1035_TYPE_A then
    if rdlength < 4 then .value (.inaddr (zeroes 4))
    else do
      let addr ← copy b rdata 4
      .value (.inaddr addr)
  else if rrtype = RFC1035_TYPE_AAAA then
    if rdlength ≥ 16 then do
      let addr ← copy b rdata 16
      .value (.in6addr addr)
    else .value (.in6addr (zeroes 16))
  else if isDomainname rrtype then doparseDomainname b rdata rdlength
  else if rrtype = RFC1035_TYPE_SOA then doparseSoa b rdata rdlength
  else if rrtype = RFC1035_TYPE_MX then doparseMx b rdata rdlength
  else if rrtype = RFC1035_TYPE_HINFO then doparseHinfo b rdata rdlength
  else if rrtype = RFC1035_TYPE_MINFO then doparseMinfo b rdata rdlength
  else .value .none

end Doparse

structure Reply where
  rd : Nat
  tc : Nat
  aa : Nat
  opcode : Nat
  qr : Nat
  ra : Nat
  rcode : Nat
  qdcount : Nat
  ancount : Nat
  nscount : Nat
  arcount : Nat
  qdptr : List Query
  anptr : List RR
  nsptr : List RR
  arptr : List RR
  deriving DecidableEq, Repr

def Reply.allrrs (r : Reply) : List RR := r.anptr ++ r.nsptr ++ r.arptr

def Reply.labels (r : Reply) : List Ptr :=
  r.qdptr.map Query.name ++ r.allrrs.flatMap fun rr => rr.rrname :: rr.rr.labels

section Replyparse
variable (b : List UInt8)

def parseQuestion (p : Ptr) : Outcome Fault (Query × Ptr) := do
  let (_, q) ← replyuncompress b p false
  if q.off + 4 > b.length then .null
  else do
    let qtype ← be16 b q
    let qclass ← be16 b (q.add 2)
    .value (⟨p, qtype, qclass⟩, q.add 4)

/-- One record of the three sections. -/
def parseRR (p : Ptr) : Outcome Fault (RR × Ptr) := do
  let (_, q) ← replyuncompress b p false
  if q.off + 10 > b.length then .null
  else do
    let rrtype ← be16 b q
    let rrclass ← be16 b (q.add 2)
    let ttl ← be32 b (q.add 4)
    let rdlength ← be16 b (q.add 8)
    let q := q.add 10
    let rdata := if rdlength ≠ 0 then q else .null
    if b.length - q.off < rdlength then .null
    else do
      let rr ← doparse b rrtype rrclass rdlength rdata
      .value (⟨p, rrtype, rrclass, ttl, rdlength, rdata, rr⟩, q.add rdlength)

def replyparse : Outcome Fault Reply := do
  let l := b.length
  if l < 12 then .null
  else do
    let c ← peek b ⟨.reply, 2⟩
    let d ← peek b ⟨.reply, 3⟩
    let qdcount ← be16 b ⟨.reply, 4⟩
    let ancount ← be16 b ⟨.reply, 6⟩
    let nscount ← be16 b ⟨.reply, 8⟩
    let arcount ← be16 b ⟨.reply, 10⟩
    if qdcount ≥ l ∨ ancount ≥ l ∨ nscount ≥ l ∨ arcount ≥ l ∨ qdcount + ancount ≥ l ∨
        qdcount + ancount + nscount ≥ l ∨ qdcount + ancount + nscount + arcount ≥ l then .null
    else do
      let (qdptr, p) ← many (parseQuestion b) qdcount ⟨.reply, 12⟩
      let (anptr, p) ← many (parseRR b) ancount p
      let (nsptr, p) ← many (parseRR b) nscount p
      let (arptr, _) ← many (parseRR b) arcount p
      let bit (c : UInt8) (n : Nat) := c.toNat / 2 ^ n % 2
      .value ⟨bit c 0, bit c 1, bit c 2, c.toNat / 2 ^ 3 % 2 ^ 4, bit c 7, bit d 7,
        d.toNat % 2 ^ 4, qdcount, ancount, nscount, arcount, qdptr, anptr, nsptr, arptr⟩

def rrGettxt (p : RR) (startpos : Int) : Outcome Fault (Int × List UInt8) :=
  if startpos < 0 ∨ startpos.toNat ≥ p.rdlength then .value (-1, [])
  else do
    let l ← peek b (p.rdata.add startpos.toNat)
    if p.rdlength - startpos.toNat ≤ l.toNat then .value (-1, [])
    else do
      let buf ← copy b (p.rdata.add (startpos.toNat + 1)) l.toNat
      let startpos := startpos + 1 + l.toNat
      .value (if startpos ≥ p.rdlength then -1 else startpos, buf)

end Replyparse
end Cone.Rfc1035Reply
