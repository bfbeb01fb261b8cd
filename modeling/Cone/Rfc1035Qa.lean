import Cone.Rfc1035An
import Cone.Rfc1035Search

/-! # Forward lookup (`rfc1035/rfc1035qa.c`)

`rfc1035_a` where IPv6 is built in.  A loop counts the addresses, another one writes them.
Each address is kept with the record that it is read from. -/
set_option autoImplicit false
namespace Cone.Rfc1035Qa

open Cone.Ctype Cone.Rfc1035Reply Cone.Rfc1035An Cone.Rfc1035Search
open Cone.Rfc1035Query (hostnamecmp completed)

abbrev RFC1035_RCODE_NXDOMAIN : Nat := 3

/-- `struct in6_addr`: twelve bytes, and the last four. -/
structure In6Addr where
  high : List UInt8
  low : InAddr
  deriving DecidableEq, Repr

/-- `::ffff:0:0/96` -/
def mappedHigh : List UInt8 := List.replicate 10 0 ++ [0xFF, 0xFF]

def mapped (a : InAddr) : In6Addr := ⟨mappedHigh, a⟩

/-- `inet_ntop` and `inet_pton` for `AF_INET6`, the union `rr` of a record read as one or the other
address, and what is in a slot after a `memset` of the size of a pointer. -/
structure Platform where
  inetNtop : In6Addr → Option (List UInt8)
  inetPton : List UInt8 → Option In6Addr
  inaddr : RR → InAddr
  in6addr : RR → In6Addr
  cleared : In6Addr

def mappedText (a : InAddr) : List UInt8 := str "::ffff:" ++ ntoaIpv4 a

structure Platform.Documented (k : Platform) : Prop where
  ntop : ∀ a, k.inetNtop (mapped a) = some (mappedText a)
  pton : ∀ a, k.inetPton (mappedText a) = some (mapped a)

structure Slot (A : Type) where
  source : RR
  addr : A

def put {A : Type} (room : Nat) (buf : List (Slot A)) (x : Slot A) : Except Fault (List (Slot A)) :=
  if buf.length < room then .ok (buf ++ [x]) else .error .overflow

/-! ## The loops over a reply -/

section Hits
variable (defaultdomain : Option (List UInt8)) (r : Answer) (h : List UInt8) (qtype : Nat)

/-- The values of the variable of `for (o=n; o >= 0; o=rfc1035_replysearch_an(..., o+1))`. -/
def hitsLoop : Nat → Option Nat → List Nat
  | 0, _ => []
  | _ + 1, none => []
  | fuel + 1, some o =>
    o :: hitsLoop fuel (replysearchAn defaultdomain r h qtype RFC1035_CLASS_IN (o + 1))

def hits : List Nat :=
  hitsLoop defaultdomain r h qtype (r.reply.anptr.length + 1)
    (replysearchAn defaultdomain r h qtype RFC1035_CLASS_IN 0)

def noRecord : RR := ⟨.null, 0, 0, 0, 0, .null, .none⟩

/-- `*reply->allrrs[n]` -/
def record (n : Nat) : RR := r.reply.allrrs.getD n noRecord

end Hits

/-- What `rfc1035_a_ipv4` returns: addresses, or an error and whether it is `ENOENT`. -/
inductive Ipv4 where
  | addrs (ia4 : List (Slot InAddr))
  | soft
  | notFound

/-- What `rfc1035_a` returns: the array and what it has room for, or an error. -/
inductive Found where
  | addrs (room : Nat) (list : List (Slot In6Addr))
  | failed (code : Int)

section Lookup
variable (defaultdomain : Option (List UInt8)) (k : Platform)

def softError (ret : Return) : Bool :=
  ret.reply.any fun r =>
    r.reply.rcode ≠ RFC1035_RCODE_NXDOMAIN && r.reply.rcode ≠ RFC1035_RCODE_NOERROR

def answered (ret : Return) (qtype : Nat) : Option Answer :=
  match ret.result, ret.reply with
  | .index _, some r =>
    if (replysearchAn defaultdomain r ret.namebuf qtype RFC1035_CLASS_IN 0).isSome then some r
    else none
  | _, _ => none

/-- `rfc1035_a_ipv4`, after `rfc1035_resolve_cname`. -/
def aIpv4 (ret : Return) : Except Fault Ipv4 :=
  match answered defaultdomain ret RFC1035_TYPE_A with
  | none => .ok (if softError ret then .soft else .notFound)
  | some reply =>
    let ns := hits defaultdomain reply ret.namebuf RFC1035_TYPE_A
    let iasize := ns.foldl (fun iasize _ => iasize + 1) 0
    match ns.foldlM (fun ia n =>
      put iasize ia ⟨record reply n, k.inaddr (record reply n)⟩) [] with
    | .error e => .error e
    | .ok ia => .ok (.addrs ia)

def afterColon (buf : List UInt8) : List UInt8 := (buf.reverse.takeWhile (· ≠ byte ':')).reverse

def weHaveThatIpv4 (in6 : In6Addr) (ia4 : List (Slot InAddr)) : Bool :=
  if in6.high ≠ mappedHigh then false
  else
    match k.inetNtop in6 with
    | none => false
    | some buf =>
      let in4 := (atonIpv4 (afterColon buf)).2
      ia4.any fun ia => ia.addr = in4

def countLoop (reply : Answer) (n : Nat) (ia4 : List (Slot InAddr)) (os : List Nat) (iasize : Nat) :
    Nat :=
  os.foldl (fun iasize _ =>
    if weHaveThatIpv4 k (k.in6addr (record reply n)) ia4 then iasize else iasize + 1) iasize

def fillLoop (reply : Answer) (ia4 : List (Slot InAddr)) (room : Nat) (ns : List Nat) :
    Except Fault (List (Slot In6Addr)) :=
  ns.foldlM (fun ia n =>
    if weHaveThatIpv4 k (k.in6addr (record reply n)) ia4 then .ok ia
    else put room ia ⟨record reply n, k.in6addr (record reply n)⟩) []

def mapLoop (room : Nat) (ia4 : List (Slot InAddr)) (ia : List (Slot In6Addr)) :
    Except Fault (List (Slot In6Addr)) :=
  ia4.foldlM (fun ia a =>
    put room ia ⟨a.source, (k.inetPton (str "::ffff:" ++ ntoaIpv4 a.addr)).getD k.cleared⟩) ia

/-- `rfc1035_a` once the addresses of the first query are there. -/
def aIpv6 (ia4 : List (Slot InAddr)) (enotfound : Bool) (ret : Return) : Except Fault Found :=
  match answered defaultdomain ret RFC1035_TYPE_AAAA with
  | none =>
    if softError ret && ia4.length = 0 then .ok (.failed 1)
    else if enotfound then .ok (.failed (-1))
    else if ia4.length = 0 then .ok (.failed (-1))
    else
      match mapLoop k ia4.length ia4 [] with
      | .error e => .error e
      | .ok ia => .ok (.addrs ia4.length ia)
  | some reply =>
    let ns := hits defaultdomain reply ret.namebuf RFC1035_TYPE_AAAA
    let iasize := countLoop k reply (ns.headD 0) ia4 ns ia4.length
    if iasize = 0 then .ok (.failed (-1))
    else
      match fillLoop k reply ia4 iasize ns with
      | .error e => .error e
      | .ok ia =>
        match mapLoop k iasize ia4 ia with
        | .error e => .error e
        | .ok ia => .ok (.addrs iasize ia)

/-- `rfc1035_a` on what `rfc1035_resolve_cname` gave for the two queries. -/
def rfc1035A (retA retAaaa : Return) : Except Fault Found :=
  match aIpv4 defaultdomain k retA with
  | .error e => .error e
  | .ok .soft => .ok (.failed 1)
  | .ok .notFound => aIpv6 defaultdomain k [] true retAaaa
  | .ok (.addrs ia4) => aIpv6 defaultdomain k ia4 false retAaaa

end Lookup

/-! ## What is promised -/

section Promise
variable (defaultdomain : Option (List UInt8)) (k : Platform)

def answers (ret : Return) (qtype : Nat) : List RR :=
  match answered defaultdomain ret qtype with
  | none => []
  | some r =>
    r.reply.anptr.filter
      (found r (completed defaultdomain ret.namebuf) RFC1035_CLASS_IN qtype)

def typed (ret : Return) (qtype : Nat) : List RR :=
  (answers defaultdomain ret qtype).filter fun rr => rr.rrtype = qtype

def Duplicate (as : List InAddr) (a : In6Addr) : Prop := a.high = mappedHigh ∧ a.low ∈ as

instance (as : List InAddr) (a : In6Addr) : Decidable (Duplicate as a) :=
  inferInstanceAs (Decidable (_ ∧ _))

def expected (retA retAaaa : Return) : List In6Addr :=
  let as := (typed defaultdomain retA RFC1035_TYPE_A).map k.inaddr
  ((typed defaultdomain retAaaa RFC1035_TYPE_AAAA).map k.in6addr).filter (¬ Duplicate as ·) ++
    as.map mapped

def Exact (retA retAaaa : Return) : Prop :=
  ∃ r, rfc1035A defaultdomain k retA retAaaa = .ok r ∧ ∀ room list, r = .addrs room list →
    list.length = room ∧ list.map Slot.addr = expected defaultdomain k retA retAaaa ∧
    ∀ x ∈ list, (x.source.rrtype = RFC1035_TYPE_AAAA ∧ x.addr = k.in6addr x.source) ∨
      (x.source.rrtype = RFC1035_TYPE_A ∧ x.addr = mapped (k.inaddr x.source))

def Uniform (retA retAaaa : Return) : Prop :=
  let as := (answers defaultdomain retA RFC1035_TYPE_A).map k.inaddr
  let dup := fun rr => Duplicate as (k.in6addr rr)
  (∀ rr ∈ answers defaultdomain retA RFC1035_TYPE_A, rr.rrtype = RFC1035_TYPE_A) ∧
  (∀ rr ∈ answers defaultdomain retAaaa RFC1035_TYPE_AAAA, ¬ dup rr →
    rr.rrtype = RFC1035_TYPE_AAAA) ∧
  ∀ rr ∈ answers defaultdomain retAaaa RFC1035_TYPE_AAAA,
    ∀ rr' ∈ answers defaultdomain retAaaa RFC1035_TYPE_AAAA, (dup rr ↔ dup rr')

/-- The first query has failed with an error that is not that there is no such name. -/
def Soft (ret : Return) : Prop :=
  answered defaultdomain ret RFC1035_TYPE_A = none ∧ softError ret = true

end Promise

/-! ## The loop variable -/

section Hits
variable {defaultdomain : Option (List UInt8)} {r : Answer} {h : List UInt8} {qtype : Nat}

def positions (p : RR → Bool) : Nat → List RR → List Nat
  | _, [] => []
  | pos, rr :: rrs => if p rr then pos :: positions p (pos + 1) rrs else positions p (pos + 1) rrs

theorem hitsLoop_eq {fuel : Nat} (pos : Nat) {rest : List RR} (split : r.reply.anptr.drop pos = rest)
    (enough : rest.length < fuel) :
    hitsLoop defaultdomain r h qtype fuel
        (replysearchAn defaultdomain r h qtype RFC1035_CLASS_IN pos) =
      positions (found r (completed defaultdomain h) RFC1035_CLASS_IN qtype) pos rest := by
  induction rest generalizing fuel pos with
  | nil =>
      obtain ⟨fuel, rfl⟩ := Nat.exists_eq_succ_of_ne_zero (Nat.ne_of_gt enough)
      rw [replysearchAn, replysearch, split]
      rfl
  | cons rr rest ih =>
      obtain ⟨fuel, rfl⟩ := Nat.exists_eq_succ_of_ne_zero (Nat.ne_of_gt (Nat.zero_lt_of_lt enough))
      have split' : r.reply.anptr.drop (pos + 1) = rest := by
        rw [← List.drop_drop, split, List.drop_one, List.tail_cons]
      rw [replysearchAn, replysearch, split, searchLoop, positions]
      by_cases hit : found r (completed defaultdomain h) RFC1035_CLASS_IN qtype rr = true
      · rw [if_pos hit, if_pos hit, hitsLoop, ih (pos + 1) split' (Nat.lt_of_succ_lt_succ enough)]
      · rw [if_neg hit, if_neg hit, ← ih (pos + 1) split' (Nat.lt_of_succ_lt enough), replysearchAn,
          replysearch, split']

theorem record_eq {n : Nat} {rr : RR} (at' : r.reply.anptr[n]? = some rr) : record r n = rr := by
  rw [record, List.getD_eq_getElem?_getD, allrrs_of_anptr at']
  rfl

theorem positions_records {p : RR → Bool} (pre : List RR) {rest : List RR} (split : r.reply.anptr = pre ++ rest) :
    (positions p pre.length rest).map (record r) = rest.filter p := by
  induction rest generalizing pre with
  | nil => rfl
  | cons rr rest ih =>
      have later := ih (pre ++ [rr]) (by rw [split, List.append_assoc]; rfl)
      rw [List.length_append, List.length_singleton] at later
      have here : record r pre.length = rr := by
        refine record_eq ?_
        rw [split, List.getElem?_append_right (Nat.le_refl _), Nat.sub_self]
        rfl
      rw [positions, List.filter_cons]
      by_cases hit : p rr = true
      · rw [if_pos hit, if_pos hit, List.map_cons, here, later]
      · rw [if_neg hit, if_neg hit, later]

/-- The loops go over the answers for the name. -/
theorem hits_records : (hits defaultdomain r h qtype).map (record r) =
    r.reply.anptr.filter (found r (completed defaultdomain h) RFC1035_CLASS_IN qtype) := by
  have loop : hitsLoop defaultdomain r h qtype (r.reply.anptr.length + 1) _ = _ :=
    hitsLoop_eq 0 List.drop_zero
      (Nat.lt_succ_self _)
  rw [hits, loop]
  exact positions_records [] rfl

end Hits

/-! ## The arrays -/

section Arrays
variable {A B : Type}

theorem put_all (room : Nat) (f : B → Slot A) (l : List B) (buf : List (Slot A)) :
    l.foldlM (fun buf x => put room buf (f x)) buf =
      if buf.length + l.length ≤ room ∨ l = [] then .ok (buf ++ l.map f) else .error .overflow := by
  induction l generalizing buf with
  | nil => simp [pure, Except.pure]
  | cons x l ih =>
      rw [List.foldlM_cons, put]
      by_cases room' : buf.length < room
      · rw [if_pos room']
        refine (ih (buf ++ [f x])).trans ?_
        have same : (buf ++ [f x]).length + l.length ≤ room ∨ l = [] ↔
            buf.length + (x :: l).length ≤ room ∨ x :: l = [] := by
          rw [List.length_append, List.length_singleton, List.length_cons]
          constructor
          · rintro (le | rfl)
            · exact Or.inl (by omega)
            · exact Or.inl (by rw [List.length_nil]; omega)
          · rintro (le | no)
            · exact Or.inl (by omega)
            · cases no
        by_cases fits : buf.length + (x :: l).length ≤ room ∨ x :: l = []
        · rw [if_pos fits, if_pos (same.mpr fits), List.append_assoc]
          rfl
        · rw [if_neg fits, if_neg fun h => fits (same.mp h)]
      · rw [if_neg room', if_neg]
        · rfl
        · rintro (le | no)
          · rw [List.length_cons] at le
            omega
          · cases no

theorem put_filter (room : Nat) (skip : B → Bool) (f : B → Slot A) (l : List B)
    (buf : List (Slot A)) :
    l.foldlM (fun buf x => if skip x then .ok buf else put room buf (f x)) buf =
      (l.filter (! skip ·)).foldlM (fun buf x => put room buf (f x)) buf := by
  induction l generalizing buf with
  | nil => rfl
  | cons x l ih =>
      rw [List.foldlM_cons, List.filter_cons]
      cases skip x with
      | true =>
          refine (ih buf).trans ?_
          rfl
      | false =>
          simp only [Bool.not_false, if_true, List.foldlM_cons, Bool.false_eq_true, if_false]
          cases put room buf (f x) with
          | error e => rfl
          | ok buf => exact ih buf

end Arrays

/-! ## Duplicates -/

theorem octetLoop_noColon : ∀ octet : UInt8, byte ':' ∉ octetText octet := by
  have checked : (List.range 256).all fun n => ! (octetText (UInt8.ofNat n)).contains (byte ':') := by
    decide +kernel
  intro octet
  have h := List.all_eq_true.mp checked octet.toNat (List.mem_range.mpr octet.toNat_lt)
  rw [UInt8.ofNat_toNat] at h
  simpa using h

theorem ntoa_noColon (a : InAddr) : ∀ c ∈ ntoaIpv4 a, c ≠ byte ':' := by
  intro c hc same
  subst same
  have dot : byte ':' ≠ byte '.' := by decide
  simp only [ntoaIpv4, List.mem_append, List.mem_cons, dot, false_or] at hc
  rcases hc with hc | hc | hc | hc
  · exact octetLoop_noColon _ hc
  · exact octetLoop_noColon _ hc
  · exact octetLoop_noColon _ hc
  · exact octetLoop_noColon _ hc

theorem afterColon_mapped (a : InAddr) : afterColon (mappedText a) = ntoaIpv4 a := by
  have colon : str "::ffff:" = str "::ffff" ++ [byte ':'] := rfl
  rw [afterColon, mappedText, colon, List.append_assoc, List.reverse_append, List.reverse_append,
    List.append_assoc, List.takeWhile_append_of_pos]
  · simp
  · intro c hc
    exact decide_eq_true (ntoa_noColon a c (List.mem_reverse.mp hc))

section Qa
variable {defaultdomain : Option (List UInt8)} {k : Platform}

theorem weHave_iff (documented : k.Documented) (in6 : In6Addr) (ia4 : List (Slot InAddr)) :
    weHaveThatIpv4 k in6 ia4 = decide (Duplicate (ia4.map Slot.addr) in6) := by
  rw [weHaveThatIpv4]
  by_cases high : in6.high = mappedHigh
  · have whole : in6 = mapped in6.low := by
      cases in6
      cases high
      rfl
    rw [if_neg (not_not.mpr high), whole, documented.ntop]
    simp only [afterColon_mapped, aton_ntoa]
    rw [Bool.eq_iff_iff, List.any_eq_true, decide_eq_true_eq, Duplicate, List.mem_map]
    simp [mapped]
  · rw [if_pos high]
    exact (decide_eq_false fun h => high h.1).symm

/-! ## Both runs -/

def slot4 (k : Platform) (rr : RR) : Slot InAddr := ⟨rr, k.inaddr rr⟩

def slot6 (k : Platform) (rr : RR) : Slot In6Addr := ⟨rr, k.in6addr rr⟩

def slotMapped (a : Slot InAddr) : Slot In6Addr := ⟨a.source, mapped a.addr⟩

theorem aIpv4_eq (ret : Return) :
    aIpv4 defaultdomain k ret = .ok (match answered defaultdomain ret RFC1035_TYPE_A with
      | none => if softError ret then .soft else .notFound
      | some _ => .addrs ((answers defaultdomain ret RFC1035_TYPE_A).map (slot4 k))) := by
  rw [aIpv4, answers]
  cases answered defaultdomain ret RFC1035_TYPE_A with
  | none => rfl
  | some r =>
      simp only []
      have counted : ∀ (ns : List Nat) (n : Nat),
          ns.foldl (fun iasize _ => iasize + 1) n = n + ns.length := by
        intro ns
        induction ns with
        | nil => exact fun n => rfl
        | cons _ ns ih =>
            intro n
            rw [List.foldl_cons, ih, List.length_cons]
            omega
      rw [counted, put_all, if_pos (Or.inl (by simp)), ← hits_records, List.map_map]
      rfl

def counted (k : Platform) (as : List InAddr) (rrs : List RR) : Nat :=
  match rrs with
  | [] => 0
  | rr :: _ => if Duplicate as (k.in6addr rr) then 0 else rrs.length

def written (k : Platform) (as : List InAddr) (rrs : List RR) : List RR :=
  rrs.filter fun rr => ! decide (Duplicate as (k.in6addr rr))

theorem mapLoop_eq (documented : k.Documented) (room : Nat) (ia4 : List (Slot InAddr))
    (ia : List (Slot In6Addr)) :
    mapLoop k room ia4 ia = if ia.length + ia4.length ≤ room ∨ ia4 = [] then
      .ok (ia ++ ia4.map slotMapped) else .error .overflow := by
  rw [mapLoop, ← put_all]
  refine congrArg (fun f => ia4.foldlM f ia) (funext fun ia => funext fun a => ?_)
  rw [show str "::ffff:" ++ ntoaIpv4 a.addr = mappedText a.addr from rfl, documented.pton]
  rfl

theorem countLoop_eq (documented : k.Documented) (reply : Answer) (n : Nat)
    (ia4 : List (Slot InAddr)) (os : List Nat) (iasize : Nat) :
    countLoop k reply n ia4 os iasize =
      iasize + if Duplicate (ia4.map Slot.addr) (k.in6addr (record reply n)) then 0
        else os.length := by
  rw [countLoop, weHave_iff documented]
  by_cases dup : Duplicate (ia4.map Slot.addr) (k.in6addr (record reply n))
  · rw [if_pos dup, decide_eq_true dup]
    induction os with
    | nil => rfl
    | cons _ os ih => exact ih
  · rw [if_neg dup, decide_eq_false dup]
    simp only [Bool.false_eq_true, if_false]
    induction os generalizing iasize with
    | nil => rfl
    | cons _ os ih =>
        rw [List.foldl_cons, ih, List.length_cons]
        omega

theorem fillLoop_eq (documented : k.Documented) (reply : Answer) (ia4 : List (Slot InAddr))
    (room : Nat) (ns : List Nat) :
    fillLoop k reply ia4 room ns =
      let out := written k (ia4.map Slot.addr) (ns.map (record reply))
      if out.length ≤ room then .ok (out.map (slot6 k)) else .error .overflow := by
  have out : written k (ia4.map Slot.addr) (ns.map (record reply)) =
      (ns.filter fun n => ! weHaveThatIpv4 k (k.in6addr (record reply n)) ia4).map
        (record reply) := by
    rw [written, List.filter_map]
    congr 1
    refine List.filter_congr fun n _ => ?_
    rw [weHave_iff documented]
    rfl
  rw [fillLoop, put_filter, put_all]
  simp only [out, List.length_map, List.length_nil, Nat.zero_add, List.nil_append, List.map_map]
  by_cases fits : (ns.filter fun n => ! weHaveThatIpv4 k (k.in6addr (record reply n)) ia4).length ≤ room
  · rw [if_pos fits, if_pos (Or.inl fits)]
    rfl
  · rw [if_neg fits, if_neg]
    rintro (le | none)
    · exact fits le
    · rw [none] at fits
      exact fits (Nat.zero_le _)

theorem aIpv6_eq (documented : k.Documented) {ia4 : List (Slot InAddr)} {enotfound : Bool}
    (none4 : enotfound = true → ia4 = []) (ret : Return) :
    ∃ code, aIpv6 defaultdomain k ia4 enotfound ret =
      let rrs := answers defaultdomain ret RFC1035_TYPE_AAAA
      let room := ia4.length + counted k (ia4.map Slot.addr) rrs
      let out := written k (ia4.map Slot.addr) rrs
      if room = 0 then .ok (.failed code)
      else if out.length + ia4.length ≤ room then
        .ok (.addrs room (out.map (slot6 k) ++ ia4.map slotMapped))
      else .error .overflow := by
  rw [aIpv6, answers]
  cases answered defaultdomain ret RFC1035_TYPE_AAAA with
  | none =>
      simp only [counted, written, List.filter_nil, List.map_nil, List.nil_append, List.length_nil,
        Nat.add_zero, Nat.zero_add, Nat.le_refl, if_true]
      by_cases empty : ia4.length = 0
      · refine ⟨if softError ret then 1 else -1, ?_⟩
        rw [if_pos empty]
        cases softError ret with
        | true => simp [empty]
        | false => cases enotfound <;> simp [empty]
      · have found4 : enotfound = false := by
          cases enotfound with
          | false => rfl
          | true => exact absurd (by rw [none4 rfl]; rfl) empty
        refine ⟨0, ?_⟩
        rw [if_neg empty, found4, mapLoop_eq documented]
        simp [empty]
  | some reply =>
      refine ⟨-1, ?_⟩
      simp only []
      rw [countLoop_eq documented, ← hits_records, fillLoop_eq documented]
      have same : counted k (ia4.map Slot.addr)
          ((hits defaultdomain reply ret.namebuf RFC1035_TYPE_AAAA).map (record reply)) =
          if Duplicate (ia4.map Slot.addr) (k.in6addr (record reply
            ((hits defaultdomain reply ret.namebuf RFC1035_TYPE_AAAA).headD 0))) then 0
          else (hits defaultdomain reply ret.namebuf RFC1035_TYPE_AAAA).length := by
        cases hits defaultdomain reply ret.namebuf RFC1035_TYPE_AAAA with
        | nil => simp [counted]
        | cons n ns =>
            simp only [counted, List.map_cons, List.headD_cons, List.length_cons, List.length_map]
            rfl
      rw [← same]
      generalize (hits defaultdomain reply ret.namebuf RFC1035_TYPE_AAAA).map (record reply) = rrs
      by_cases none : ia4.length + counted k (ia4.map Slot.addr) rrs = 0
      · rw [if_pos none, if_pos none]
      · rw [if_neg none, if_neg none]
        by_cases fits : (written k (ia4.map Slot.addr) rrs).length ≤
            ia4.length + counted k (ia4.map Slot.addr) rrs
        · rw [if_pos fits]
          simp only []
          rw [mapLoop_eq documented, List.length_map]
          by_cases both : (written k (ia4.map Slot.addr) rrs).length + ia4.length ≤
              ia4.length + counted k (ia4.map Slot.addr) rrs
          · rw [if_pos both, if_pos (Or.inl both)]
          · have some4 : ia4 ≠ [] := by
              rintro rfl
              exact both fits
            rw [if_neg both, if_neg fun h => h.elim both some4]
        · rw [if_neg fits, if_neg fun both => fits (by omega)]

/-! ## The promise -/

theorem mem_answers {ret : Return} {qtype : Nat} {rr : RR}
    (h : rr ∈ answers defaultdomain ret qtype) :
    rr.rrtype = qtype ∨ rr.rrtype = RFC1035_TYPE_CNAME := by
  rw [answers] at h
  cases found' : answered defaultdomain ret qtype with
  | none => rw [found'] at h; cases h
  | some r =>
      rw [found'] at h
      exact ((found_iff _ _ _ _).mp (List.mem_filter.mp h).2).1

/-- The loops agree if and only if all of the answers are duplicates or none is. -/
theorem written_length_iff (as : List InAddr) (rrs : List RR) :
    (written k as rrs).length = counted k as rrs ↔
      ∀ rr ∈ rrs, ∀ rr' ∈ rrs, (Duplicate as (k.in6addr rr) ↔ Duplicate as (k.in6addr rr')) := by
  cases rrs with
  | nil => exact iff_of_true rfl nofun
  | cons first rrs =>
      have uniform : (∀ rr ∈ first :: rrs, ∀ rr' ∈ first :: rrs,
          (Duplicate as (k.in6addr rr) ↔ Duplicate as (k.in6addr rr'))) ↔
          ∀ rr ∈ first :: rrs, (Duplicate as (k.in6addr first) ↔ Duplicate as (k.in6addr rr)) := by
        constructor
        · exact fun h => h first (List.mem_cons_self ..)
        · exact fun h rr hrr rr' hrr' => (h rr hrr).symm.trans (h rr' hrr')
      rw [uniform, written, counted]
      by_cases dup : Duplicate as (k.in6addr first)
      · rw [if_pos dup, List.length_eq_zero_iff, List.filter_eq_nil_iff]
        simp [dup]
      · rw [if_neg dup, List.length_filter_eq_length_iff]
        simp [dup]

theorem typed_eq {ret : Return} {qtype : Nat}
    (h : ∀ rr ∈ answers defaultdomain ret qtype, rr.rrtype = qtype) :
    typed defaultdomain ret qtype = answers defaultdomain ret qtype :=
  List.filter_eq_self.mpr fun rr hrr => decide_eq_true (h rr hrr)

theorem expected_eq {retA retAaaa : Return}
    (typeA : ∀ rr ∈ answers defaultdomain retA RFC1035_TYPE_A, rr.rrtype = RFC1035_TYPE_A)
    (type6 : ∀ rr ∈ answers defaultdomain retAaaa RFC1035_TYPE_AAAA,
      ¬ Duplicate ((answers defaultdomain retA RFC1035_TYPE_A).map k.inaddr) (k.in6addr rr) →
        rr.rrtype = RFC1035_TYPE_AAAA) :
    expected defaultdomain k retA retAaaa =
      (written k ((answers defaultdomain retA RFC1035_TYPE_A).map k.inaddr)
        (answers defaultdomain retAaaa RFC1035_TYPE_AAAA)).map k.in6addr ++
      ((answers defaultdomain retA RFC1035_TYPE_A).map k.inaddr).map mapped := by
  rw [expected, typed_eq typeA, List.filter_map, typed, List.filter_filter, written]
  congr 2
  refine List.filter_congr fun rr hrr => ?_
  by_cases dup : Duplicate ((answers defaultdomain retA RFC1035_TYPE_A).map k.inaddr) (k.in6addr rr)
  · simp [dup]
  · simp [dup, type6 rr hrr dup]

theorem types_differ : RFC1035_TYPE_AAAA ≠ RFC1035_TYPE_A ∧ RFC1035_TYPE_CNAME ≠ RFC1035_TYPE_A ∧
    RFC1035_TYPE_CNAME ≠ RFC1035_TYPE_AAAA := by decide

theorem exact_of_run (documented : k.Documented) {retA retAaaa : Return}
    {ia4 : List (Slot InAddr)} {enotfound : Bool} (none4 : enotfound = true → ia4 = [])
    (slots : ia4 = (answers defaultdomain retA RFC1035_TYPE_A).map (slot4 k))
    (run : rfc1035A defaultdomain k retA retAaaa = aIpv6 defaultdomain k ia4 enotfound retAaaa) :
    Exact defaultdomain k retA retAaaa ↔ Uniform defaultdomain k retA retAaaa := by
  obtain ⟨code, formula⟩ := @aIpv6_eq defaultdomain k documented ia4 enotfound none4 retAaaa
  have addrs : ia4.map Slot.addr = (answers defaultdomain retA RFC1035_TYPE_A).map k.inaddr := by
    rw [slots, List.map_map]
    rfl
  have sizes := @written_length_iff k ((answers defaultdomain retA RFC1035_TYPE_A).map k.inaddr)
    (answers defaultdomain retAaaa RFC1035_TYPE_AAAA)
  rw [addrs] at formula
  rw [← run] at formula
  simp only [] at formula
  obtain ⟨differ, cnameA, cname6⟩ := types_differ
  constructor
  · rintro ⟨r, ok, promise⟩
    rw [formula] at ok
    split at ok
    · next none =>
        have noA : answers defaultdomain retA RFC1035_TYPE_A = [] := by
          have length := congrArg List.length slots
          rw [List.length_map] at length
          exact List.eq_nil_of_length_eq_zero (by omega)
        have no6 : answers defaultdomain retAaaa RFC1035_TYPE_AAAA = [] := by
          cases rrs : answers defaultdomain retAaaa RFC1035_TYPE_AAAA with
          | nil => rfl
          | cons rr rest =>
              have fresh : ¬ Duplicate [] (k.in6addr rr) := fun h => List.not_mem_nil h.2
              rw [noA, rrs, List.map_nil, counted, if_neg fresh, List.length_cons] at none
              omega
        rw [Uniform, noA, no6]
        exact ⟨nofun, nofun, nofun⟩
    · split at ok
      · obtain rfl := Except.ok.inj ok
        obtain ⟨full, -, sources⟩ := promise _ _ rfl
        rw [List.length_append, List.length_map, List.length_map] at full
        refine ⟨fun rr hrr => ?_, fun rr hrr fresh => ?_, sizes.mp (by omega)⟩
        · have mem : slotMapped (slot4 k rr) ∈ ia4.map slotMapped :=
            List.mem_map_of_mem (slots ▸ List.mem_map_of_mem hrr)
          rcases sources _ (List.mem_append_right _ mem) with ⟨type, -⟩ | ⟨type, -⟩
          · rcases mem_answers hrr with type' | type'
            · exact type'
            · exact absurd (type'.symm.trans type) cname6
          · exact type
        · have mem : rr ∈ written k ((answers defaultdomain retA RFC1035_TYPE_A).map k.inaddr)
              (answers defaultdomain retAaaa RFC1035_TYPE_AAAA) :=
            List.mem_filter.mpr ⟨hrr, by simp [fresh]⟩
          rcases sources _ (List.mem_append_left _ (List.mem_map_of_mem mem)) with
            ⟨type, -⟩ | ⟨type, -⟩
          · exact type
          · rcases mem_answers hrr with type' | type'
            · exact type'
            · exact absurd (type'.symm.trans type) cnameA
      · cases ok
  · rintro ⟨typeA, type6, same⟩
    have length := sizes.mpr same
    rw [Exact, formula]
    split
    · exact ⟨_, rfl, nofun⟩
    · rw [if_pos (by omega)]
      refine ⟨_, rfl, fun room list returned => ?_⟩
      cases returned
      refine ⟨?_, ?_, ?_⟩
      · rw [List.length_append, List.length_map, List.length_map]
        omega
      · rw [expected_eq typeA type6, List.map_append, List.map_map, ← addrs, List.map_map, List.map_map]
        rfl
      · intro x hx
        rcases List.mem_append.mp hx with hx | hx
        · obtain ⟨rr, hrr, rfl⟩ := List.mem_map.mp hx
          obtain ⟨hrr, fresh⟩ := List.mem_filter.mp hrr
          exact Or.inl ⟨type6 rr hrr (by simpa using fresh), rfl⟩
        · obtain ⟨a, ha, rfl⟩ := List.mem_map.mp hx
          rw [slots] at ha
          obtain ⟨rr, hrr, rfl⟩ := List.mem_map.mp ha
          exact Or.inr ⟨typeA rr hrr, rfl⟩

theorem exact_of_documented (documented : k.Documented) (retA retAaaa : Return) :
    Exact defaultdomain k retA retAaaa ↔
      Soft defaultdomain retA ∨ Uniform defaultdomain k retA retAaaa := by
  have first := @aIpv4_eq defaultdomain k retA
  cases found' : answered defaultdomain retA RFC1035_TYPE_A with
  | none =>
      have noA : answers defaultdomain retA RFC1035_TYPE_A = [] := by rw [answers, found']
      rw [found'] at first
      cases soft : softError retA with
      | true =>
          simp only [soft, if_true] at first
          have run : rfc1035A defaultdomain k retA retAaaa = .ok (.failed 1) := by
            rw [rfc1035A, first]
          refine iff_of_true ⟨_, run, nofun⟩ (Or.inl ⟨found', soft⟩)
      | false =>
          simp only [soft, Bool.false_eq_true, if_false] at first
          have run : rfc1035A defaultdomain k retA retAaaa = aIpv6 defaultdomain k [] true retAaaa := by
            rw [rfc1035A, first]
          rw [exact_of_run documented (fun _ => rfl) (by rw [noA]; rfl) run]
          constructor
          · exact Or.inr
          · rintro (⟨-, soft'⟩ | uniform)
            · rw [soft] at soft'
              cases soft'
            · exact uniform
  | some r =>
      rw [found'] at first
      have run : rfc1035A defaultdomain k retA retAaaa = aIpv6 defaultdomain k
          ((answers defaultdomain retA RFC1035_TYPE_A).map (slot4 k)) false retAaaa := by
        rw [rfc1035A, first]
      rw [exact_of_run documented (fun h => absurd h Bool.false_ne_true) rfl run]
      constructor
      · exact Or.inr
      · rintro (⟨none, -⟩ | uniform)
        · rw [found'] at none
          cases none
        · exact uniform

end Qa

/-- The lookup is exact if and only if the first query fails softly, or the answers are uniform. -/
theorem lookup_exact_iff (defaultdomain : Option (List UInt8)) (k : Platform) (documented : k.Documented)
    (retA retAaaa : Return) :
    Exact defaultdomain k retA retAaaa ↔
      Soft defaultdomain retA ∨ Uniform defaultdomain k retA retAaaa :=
  exact_of_documented documented retA retAaaa

/-! ## A reply that does not fit -/

def plain : Platform where
  inetNtop a := if a.high = mappedHigh then some (mappedText a.low) else none
  inetPton t := if (str "::ffff:").isPrefixOf t then some (mapped (atonIpv4 (t.drop 7)).2) else none
  inaddr rr :=
    match rr.rr with
    | .inaddr [a, b, c, d] => ⟨a, b, c, d⟩
    | _ => ⟨0, 0, 0, 0⟩
  in6addr rr :=
    match rr.rr with
    | .in6addr addr => ⟨addr.take 12, ⟨addr.getD 12 0, addr.getD 13 0, addr.getD 14 0, addr.getD 15 0⟩⟩
    | _ => ⟨[], ⟨0, 0, 0, 0⟩⟩
  cleared := ⟨[], ⟨0, 0, 0, 0⟩⟩

theorem plain_documented : plain.Documented := by
  constructor
  · intro a
    simp only [plain]
    exact if_pos rfl
  · intro a
    have split : (mappedText a).drop 7 = ntoaIpv4 a := rfl
    have pre : (str "::ffff:").isPrefixOf (mappedText a) = true :=
      List.isPrefixOf_iff_prefix.mpr (List.prefix_append _ _)
    simp only [plain]
    rw [if_pos pre, split, aton_ntoa]

def answering (rrtype : Nat) (rrs : List RData) : Return where
  result := .index 0
  namebuf := str "a"
  reply := some
    { reply := ⟨1, 0, 0, 0, 1, 1, 0, 0, rrs.length, 0, 0, [],
        rrs.map fun rr => ⟨⟨.reply, 12⟩, rrtype, RFC1035_CLASS_IN, 0, 0, .null, rr⟩, [], []⟩
      hostname := fun _ => some (str "a") }
  steps := 0

def oneA : Return := answering RFC1035_TYPE_A [.inaddr [10, 0, 0, 1]]

def duplicateFirst : Return :=
  answering RFC1035_TYPE_AAAA [.in6addr (mappedHigh ++ [10, 0, 0, 1]), .in6addr (zeroes 15 ++ [1])]

theorem lookup_exact_iff_sample :
    Exact none plain oneA duplicateFirst ↔ Soft none oneA ∨ Uniform none plain oneA duplicateFirst :=
  lookup_exact_iff none plain plain_documented oneA duplicateFirst

theorem answers_answering (qtype : Nat) (rr : RData) (rrs : List RData) :
    answered none (answering qtype (rr :: rrs)) qtype ≠ none ∧
    answers none (answering qtype (rr :: rrs)) qtype =
      (rr :: rrs).map fun rr => ⟨⟨.reply, 12⟩, qtype, RFC1035_CLASS_IN, 0, 0, .null, rr⟩ := by
  have hit : ∀ (r : Answer) (rr : RData), r.hostname ⟨.reply, 12⟩ = some (str "a") →
      found r (completed none (str "a")) RFC1035_CLASS_IN qtype
        ⟨⟨.reply, 12⟩, qtype, RFC1035_CLASS_IN, 0, 0, .null, rr⟩ = true := by
    intro r rr name
    exact (found_iff _ _ _ _).mpr ⟨Or.inl rfl, rfl, str "a", name,
      (Rfc1035Query.hostnamecmp_eq_zero_iff _ _).mpr rfl⟩
  have some' : answered none (answering qtype (rr :: rrs)) qtype =
      (answering qtype (rr :: rrs)).reply := by
    simp only [answered, answering, replysearchAn, replysearch, List.drop_zero, List.map_cons,
      searchLoop]
    rw [if_pos (hit _ rr rfl)]
    rfl
  constructor
  · rw [some']
    intro no
    cases no
  rw [answers, some']
  refine List.filter_eq_self.mpr fun x hx => ?_
  obtain ⟨rr', -, rfl⟩ := List.mem_map.mp hx
  exact hit _ rr' rfl

/-- The counting loop takes every answer for a duplicate, since the first one is; the loops after
it write two addresses into an array for one. -/
theorem duplicateFirst_overflows : ¬ Exact none plain oneA duplicateFirst := by
  rw [exact_of_documented plain_documented]
  rintro (⟨no, -⟩ | ⟨-, -, same⟩)
  · exact (answers_answering RFC1035_TYPE_A _ []).1 no
  · rw [oneA, duplicateFirst, (answers_answering RFC1035_TYPE_A _ _).2,
      (answers_answering RFC1035_TYPE_AAAA _ _).2] at same
    have first := (same _ (List.mem_cons_self ..) _ (List.mem_cons_of_mem _ (List.mem_cons_self ..))).mp
    exact absurd (first (by decide)) (by decide)

end Cone.Rfc1035Qa
