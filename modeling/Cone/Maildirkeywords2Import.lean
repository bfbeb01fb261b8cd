import Cone.Maildirkeywords2Export
import Cone.MaildirkeywordsTable

/-! # Reading the saved keywords (`maildir/maildirkeywords2.c`) -/
set_option autoImplicit false
namespace Cone.Maildirkeywords2

open Cone.Ctype Cone.Maildirkeywords Cone.Lib.LinkedList
open Cone.Lib.Decimal (decimal isdigit isdigit_of_mem_decimal decimal_ne_nil atoi_decimal)

/-! ## Lines and numbers -/

section Read

/-- The buffer is long enough for the next byte. -/
theorem grow_set {lineBuf : List UInt8} {n : Nat} (hn : n ≤ lineBuf.length) (c : UInt8) :
    ∃ tail, (lineBuf ++ List.replicate
      (if lineBuf.length ≤ n then n + 1024 - lineBuf.length else 0) 0).set n c =
        lineBuf.take n ++ c :: tail := by
  generalize hm : (if lineBuf.length ≤ n then n + 1024 - lineBuf.length else 0) = m
  have hlt : n < (lineBuf ++ List.replicate m (0 : UInt8)).length := by
    rw [List.length_append, List.length_replicate]
    split at hm <;> omega
  rw [List.set_eq_take_append_cons_drop, if_pos hlt, List.take_append_of_le_length hn]
  exact ⟨_, rfl⟩

theorem readLoop_line {line : List UInt8} (hline : NL ∉ line) (rest : List UInt8) {lineBuf : List UInt8}
    {n : Nat} (hn : n ≤ lineBuf.length) :
    ∃ tail, readLoop lineBuf n (line ++ NL :: rest) =
      (lineBuf.take n ++ line ++ 0 :: tail, n + line.length, false, rest) := by
  induction line generalizing lineBuf n with
  | nil =>
      obtain ⟨tail, htail⟩ := grow_set hn 0
      refine ⟨tail, ?_⟩
      rw [List.nil_append, readLoop, if_pos rfl, htail, List.append_nil]
      rfl
  | cons c line ih =>
      obtain ⟨tail, htail⟩ := grow_set hn c
      have hc : c ≠ NL := fun heq => hline (heq ▸ List.mem_cons_self)
      have hlength : (lineBuf.take n).length = n := List.length_take_of_le hn
      obtain ⟨tail', htail'⟩ := @ih (fun hmem => hline (List.mem_cons_of_mem c hmem))
        (lineBuf.take n ++ c :: tail) (n + 1) (by simp [hlength])
      refine ⟨tail', ?_⟩
      have htake : (lineBuf.take n ++ c :: tail).take (n + 1) = lineBuf.take n ++ [c] := by
        rw [List.take_append, hlength]
        simp [List.take_of_length_le (Nat.le_succ_of_le (Nat.le_of_eq hlength))]
      rw [List.cons_append, readLoop, if_neg hc, htail, htail', htake, List.length_cons]
      refine Prod.ext ?_ (Prod.ext ?_ rfl)
      · simp
      · exact Nat.add_right_comm n 1 line.length

theorem rlRead_line {line : List UInt8} (hline : NL ∉ line) (hzero : 0 ∉ line)
    (rest lineBuf : List UInt8) :
    ∃ lineBuf', rlRead lineBuf (line ++ NL :: rest) = (some line, lineBuf', rest) := by
  obtain ⟨tail, htail⟩ := readLoop_line hline rest (Nat.zero_le lineBuf.length)
  refine ⟨line ++ 0 :: tail, ?_⟩
  have htake : (line ++ 0 :: tail).takeWhile (· ≠ NUL) = line := by
    rw [List.takeWhile_append_of_pos]
    · simp
    · intro c hc
      refine decide_eq_true fun heq => hzero ?_
      rw [heq] at hc
      exact hc
  simp only [rlRead, htail, List.take_zero, List.nil_append, Bool.and_false, Bool.false_eq_true,
    if_false, htake]

theorem strtok_joinNumbers (n : Nat) (l : List Nat) :
    strtok (joinNumbers (n :: l)) = some (decimal n, joinNumbers l) := by
  obtain ⟨c, q, hcq⟩ := List.exists_cons_of_ne_nil (decimal_ne_nil n)
  have hdigit : ∀ d ∈ decimal n, d ≠ SP := fun d hd heq => by
    have hd' := isdigit_of_mem_decimal hd
    rw [heq] at hd'
    exact absurd hd' (by decide)
  have hspan : ∀ rest : List UInt8, (∀ d ∈ rest.head?, d = SP) →
      strtok (decimal n ++ rest) = some (decimal n, rest.drop 1) := fun rest hrest => by
    have hdrop : (decimal n ++ rest).dropWhile (· = SP) = decimal n ++ rest := by
      rw [hcq, List.cons_append, List.dropWhile_cons_of_neg]
      exact fun heq => hdigit c (hcq ▸ List.mem_cons_self) (of_decide_eq_true heq)
    have htake : (decimal n ++ rest).takeWhile (· ≠ SP) = decimal n := by
      rw [List.takeWhile_append_of_pos fun d hd => decide_eq_true (hdigit d hd)]
      cases rest with
      | nil => simp
      | cons d rest => simp [hrest d rfl]
    rw [strtok]
    simp only [hdrop, htake]
    rw [if_neg (by rw [hcq]; exact nofun), List.drop_append, List.drop_of_length_le (by omega)]
    simp
  cases l with
  | nil =>
      have h := hspan [] nofun
      rw [List.append_nil] at h
      exact h
  | cons m l => exact hspan (SP :: joinNumbers (m :: l)) fun d hd => (Option.mem_some_iff.mp hd).symm

def readBack (n : Nat) : Nat := toSize (atoi (decimal n))

theorem readBack_of_lt {n : Nat} (hn : n < 2 ^ 31) : readBack n = n := by
  have hread := @atoi_decimal n [] nofun
  rw [List.append_nil] at hread
  rw [readBack, atoi, hread, Int.bmod_def, toSize]
  omega

/-- An `int` does not get to this number. -/
theorem readBack_ne (n : Nat) : readBack n ≠ 2 ^ 31 := by
  rw [readBack, atoi, toSize]
  have hlow := Int.le_bmod (x := max (-2 ^ 63) (min (2 ^ 63 - 1) (Lib.Decimal.atoi (decimal n))))
    (m := 2 ^ 32) (by decide)
  have hhigh := Int.bmod_lt (x := max (-2 ^ 63) (min (2 ^ 63 - 1) (Lib.Decimal.atoi (decimal n))))
    (m := 2 ^ 32) (by decide)
  generalize (max (-2 ^ 63) (min (2 ^ 63 - 1) (Lib.Decimal.atoi (decimal n)))).bmod (2 ^ 32) = x at *
  omega

theorem mem_joinNumbers (l : List Nat) : ∀ c ∈ joinNumbers l, c ≠ NL ∧ c ≠ 0 := by
  have hdecimal : ∀ n, ∀ c ∈ decimal n, c ≠ NL ∧ c ≠ 0 := fun n c hc => by
    have hdigit := isdigit_of_mem_decimal hc
    refine ⟨fun heq => ?_, fun heq => ?_⟩
    · rw [heq] at hdigit
      exact absurd hdigit (by decide)
    · rw [heq] at hdigit
      exact absurd hdigit (by decide)
  induction l with
  | nil => nofun
  | cons n l ih =>
      cases l with
      | nil => exact hdecimal n
      | cons m l =>
          refine List.forall_mem_append.mpr ⟨hdecimal n, List.forall_mem_cons.mpr ⟨?_, ih⟩⟩
          exact ⟨by decide, by decide⟩

theorem length_joinNumbers (l : List Nat) : l.length ≤ (joinNumbers l).length := by
  induction l with
  | nil => exact Nat.le_refl 0
  | cons n l ih =>
      have hpos : 0 < (decimal n).length := List.length_pos_iff.mpr (decimal_ne_nil n)
      cases l with
      | nil => exact hpos
      | cons m l =>
          rw [joinNumbers, List.length_append, List.length_cons, List.length_cons (a := SP)]
          omega

end Read

/-! ## The keywords of the file -/

def Carries (s : State) (km : Nat) (k : KeyPtr) : Prop := ∃ e, pair s e = some (km, k)

structure Loaded (g : Settings) (s : State) (tmpMsg : Nat) (ks : List KeyPtr)
    (ns : List (List UInt8)) (others : Nat → KeyPtr → Prop) : Prop where
  laid : ∃ L, Laid g s L
  tmpLive : (messageEnds s tmpMsg).isSome = true
  names : ks.map (nameOf s) = ns.map some
  entries : ∀ k ∈ ks, ∃ n, k = .entry n
  keys : ∀ n name, nameOf s (.entry n) = some name → .entry n ∈ ks
  carries : ∀ km k, Carries s km k ↔ (km = tmpMsg ∧ k ∈ ks) ∨ others km k

namespace Loaded
variable {g : Settings} {s : State} {tmpMsg : Nat} {ks : List KeyPtr} {ns : List (List UInt8)}
  {others : Nat → KeyPtr → Prop}

theorem name_mem (h : Loaded g s tmpMsg ks ns others) {k : KeyPtr} (hk : k ∈ ks) :
    ∃ name ∈ ns, nameOf s k = some name := by
  have hmem := List.mem_map_of_mem (f := nameOf s) hk
  rw [h.names] at hmem
  obtain ⟨name, hname, heq⟩ := List.mem_map.mp hmem
  exact ⟨name, hname, heq.symm⟩

theorem add (h : Loaded g s tmpMsg ks ns others) {name : List UInt8} (hname : 0 ∉ name)
    (hfixed : fixName g name = name) (hnew : ∀ a ∈ ns, foldCase g a ≠ foldCase g name) :
    ∃ kw t, kweFind g s name true = (some kw, t) ∧
      Loaded g (kwmSet t tmpMsg kw).2 tmpMsg (ks ++ [kw]) (ns ++ [name]) others ∧
      ∀ q, (messageEnds (kwmSet t tmpMsg kw).2 q).isSome = (messageEnds s q).isSome := by
  obtain ⟨L, hlaid⟩ := h.laid
  obtain ⟨n, a, hn, hfold, -⟩ | ⟨-, -, hcreate⟩ := hlaid.kweFind_cases hname true
  · obtain ⟨b, hb, hnb⟩ := h.name_mem (h.keys n a hn)
    rw [hn] at hnb
    rw [hfixed] at hfold
    exact absurd (Option.some.inj hnb ▸ hfold) (hnew b hb)
  · obtain ⟨t, L', hfind, hlaid', hpair, hends, hnames⟩ := hcreate rfl
    rw [hfixed] at hnames
    have htmp : (messageEnds t tmpMsg).isSome = true := by
      rw [hends]
      exact h.tmpLive
    have hkey : nameOf t (.entry s.keywordBreak) = some name := by rw [hnames, store_self]
    obtain ⟨L'', hlaid'', hnames', hlive, hcarries⟩ := hlaid'.kwmSet_keywordOf htmp hkey
    have hfresh : nameOf s (.entry s.keywordBreak) = none := by
      by_contra hne
      exact absurd (hlaid.keywordBound _ (Option.isSome_iff_ne_none.mpr hne)) (Nat.lt_irrefl _)
    have hold : ∀ k ∈ ks, nameOf (kwmSet t tmpMsg (.entry s.keywordBreak)).2 k = nameOf s k :=
      fun k hk => by
        obtain ⟨b, -, hb⟩ := h.name_mem hk
        have hne : k ≠ .entry s.keywordBreak := fun heq => by
          rw [heq, hfresh] at hb
          exact nomatch hb
        rw [hnames', hnames, store_ne _ hne]
    refine ⟨_, t, hfind, ⟨⟨L'', hlaid''⟩, (hlive tmpMsg).trans htmp, ?_, ?_, ?_, ?_⟩, fun q => ?_⟩
    · rw [List.map_append, List.map_append, List.map_congr_left hold, h.names, List.map_singleton,
        List.map_singleton, hnames', hkey]
    · intro k hk
      obtain hk | hk := List.mem_append.mp hk
      · exact h.entries k hk
      · exact ⟨_, List.mem_singleton.mp hk⟩
    · intro n b hb
      rw [hnames', hnames] at hb
      by_cases hne : KeyPtr.entry n = .entry s.keywordBreak
      · exact List.mem_append_right ks (List.mem_singleton.mpr hne)
      · rw [store_ne _ hne] at hb
        exact List.mem_append_left _ (h.keys n b hb)
    · intro km k
      have hsame : (∃ e, pair t e = some (km, k)) ↔ Carries s km k := by rw [hpair, Carries]
      rw [Carries, hcarries, hsame, h.carries, List.mem_append, List.mem_singleton]
      tauto
    · rw [hlive, hends]

end Loaded

theorem keywordLoop_eq {g : Settings} {tmpMsg : Nat} {rest : List UInt8} (names : List (List UInt8))
    {s : State} {ks : List KeyPtr} {ns : List (List UInt8)} {others : Nat → KeyPtr → Prop}
    (h : Loaded g s tmpMsg ks ns others)
    (hnames : ∀ name ∈ names, name ≠ [] ∧ NL ∉ name ∧ 0 ∉ name ∧ fixName g name = name)
    (hdistinct : (ns ++ names).Pairwise fun a b => foldCase g a ≠ foldCase g b)
    (lineBuf : List UInt8) {fuel : Nat} (hfuel : names.length < fuel) :
    ∃ lineBuf' ks' t, keywordLoop g tmpMsg fuel lineBuf (names.flatMap (· ++ [NL]) ++ NL :: rest) ks s =
        (true, lineBuf', rest, ks', t) ∧ Loaded g t tmpMsg ks' (ns ++ names) others ∧
      ∀ q, (messageEnds t q).isSome = (messageEnds s q).isSome := by
  induction names generalizing s ks ns lineBuf fuel with
  | nil =>
      cases fuel with
      | zero => exact absurd hfuel (Nat.not_lt_zero _)
      | succ fuel =>
          obtain ⟨lineBuf', hread⟩ := @rlRead_line [] nofun nofun rest lineBuf
          rw [List.nil_append] at hread
          refine ⟨lineBuf', ks, s, ?_, (List.append_nil ns).symm ▸ h, fun q => rfl⟩
          rw [List.flatMap_nil, List.nil_append, keywordLoop, hread]
  | cons name names ih =>
      cases fuel with
      | zero => exact absurd hfuel (Nat.not_lt_zero _)
      | succ fuel =>
          obtain ⟨hne, hnl, hzero, hfixed⟩ := hnames name List.mem_cons_self
          have hnew : ∀ a ∈ ns, foldCase g a ≠ foldCase g name := fun a ha =>
            (List.pairwise_append.mp hdistinct).2.2 a ha name List.mem_cons_self
          obtain ⟨kw, t, hfind, hloaded, hlive⟩ := h.add hzero hfixed hnew
          obtain ⟨buf, hread⟩ := rlRead_line hnl hzero (names.flatMap (· ++ [NL]) ++ NL :: rest) lineBuf
          have hassoc : ns ++ name :: names = ns ++ [name] ++ names := by simp
          rw [hassoc] at hdistinct ⊢
          obtain ⟨buf', ks', t', hloop, hloaded', hlive'⟩ := ih hloaded
            (fun a ha => hnames a (List.mem_cons_of_mem name ha)) hdistinct buf
            (Nat.lt_of_succ_lt_succ hfuel)
          refine ⟨buf', ks', t', ?_, hloaded', fun q => (hlive' q).trans (hlive q)⟩
          have htext : (name :: names).flatMap (· ++ [NL]) ++ NL :: rest =
              name ++ NL :: (names.flatMap (· ++ [NL]) ++ NL :: rest) := by simp
          rw [htext, keywordLoop, hread]
          obtain ⟨c, p, rfl⟩ := List.exists_cons_of_ne_nil hne
          simp only [hfind]
          exact hloop

/-! ## The lines of the messages -/

structure Filled (g : Settings) (a : Messages) (tmpMsg : Nat) (ks : List KeyPtr)
    (ns : List (List UInt8)) (W : Nat → List KeyPtr) : Prop where
  loaded : Loaded g a.table tmpMsg ks ns fun km k => ∃ j, a.pointers j = some km ∧ k ∈ W j
  live : ∀ j km, a.pointers j = some km → (messageEnds a.table km).isSome = true
  inj : ∀ i j km, a.pointers i = some km → a.pointers j = some km → i = j
  notTmp : ∀ j, a.pointers j ≠ some tmpMsg
  null : ∀ j, a.pointers j = none → W j = []

theorem update_eq_some {pointers : Nat → Option Nat} {j i km : Nat} {p : Option Nat} :
    Function.update pointers j p i = some km ↔ (i = j ∧ p = some km) ∨ (i ≠ j ∧ pointers i = some km) := by
  by_cases hij : i = j
  · rw [hij, Function.update_self]
    simp
  · rw [Function.update_of_ne hij]
    simp [hij]

namespace Filled
variable {g : Settings} {a : Messages} {tmpMsg : Nat} {ks : List KeyPtr} {ns : List (List UInt8)}
  {W : Nat → List KeyPtr}

/-- The pointer of a message becomes null, and its keywords go. -/
theorem clear (h : Filled g a tmpMsg ks ns W) (j : Nat) :
    Filled g (clearMessage a j) tmpMsg ks ns (Function.update W j []) := by
  rw [clearMessage]
  cases hj : a.pointers j with
  | none =>
      have hsame : Function.update a.pointers j none = a.pointers := by
        rw [← hj, Function.update_eq_self]
      have hsameW : Function.update W j [] = W := by
        rw [← h.null j hj, Function.update_eq_self]
      rw [hsame, hsameW]
      exact h
  | some km =>
      obtain ⟨L, hlaid⟩ := h.loaded.laid
      obtain ⟨L', u, hlaid', hclears, hpair, hnames, hends⟩ := hlaid.kwmDestroy (h.live j km hj)
      have hne : tmpMsg ≠ km := fun heq => h.notTmp j (heq ▸ hj)
      have hlive : ∀ q, q ≠ km →
          (messageEnds (kwmDestroy a.table km) q).isSome = (messageEnds a.table q).isSome :=
        fun q hq => by rw [hends, free_ne _ hq, hclears.live]
      have hcarries : ∀ q k, Carries (kwmDestroy a.table km) q k ↔ Carries a.table q k ∧ q ≠ km :=
        fun q k => by
          simp only [Carries, hpair, hclears.pair_iff]
          constructor
          · rintro ⟨e, he, hnot⟩
            exact ⟨⟨e, he⟩, fun heq => hnot (messageOf_eq_some.mpr ⟨k, heq ▸ he⟩)⟩
          · rintro ⟨⟨e, he⟩, hq⟩
            refine ⟨e, he, fun hm => hq ?_⟩
            exact Option.some.inj ((messageOf_eq_some.mpr ⟨k, he⟩).symm.trans hm)
      -- the temporary message still carries every keyword of the file
      have hkeep : ∀ k ∈ ks, nameOf (kwmDestroy a.table km) k = nameOf a.table k := fun k hk => by
        obtain ⟨name, -, hname⟩ := h.loaded.name_mem hk
        obtain ⟨e, he⟩ := (hcarries tmpMsg k).mpr
          ⟨(h.loaded.carries tmpMsg k).mpr (.inl ⟨rfl, hk⟩), hne⟩
        rw [hname, hnames]
        refine (hclears.name_iff k name).mpr ⟨hname, .inl ⟨e, ?_⟩⟩
        exact keywordOf_eq_some.mpr ⟨tmpMsg, hpair ▸ he⟩
      constructor
      case loaded =>
        refine ⟨⟨L', hlaid'⟩, (hlive tmpMsg hne).trans h.loaded.tmpLive, ?_, h.loaded.entries,
          fun n name hn => ?_, fun q k => ?_⟩
        · rw [List.map_congr_left hkeep, h.loaded.names]
        · rw [hnames] at hn
          exact h.loaded.keys n name ((hclears.name_iff _ _).mp hn).1
        · rw [hcarries, h.loaded.carries]
          simp only [update_eq_some]
          constructor
          · rintro ⟨hq | ⟨i, hi, hk⟩, hqk⟩
            · exact .inl hq
            · have hij : i ≠ j := fun heq => hqk (Option.some.inj (hi.symm.trans (heq ▸ hj)))
              refine .inr ⟨i, .inr ⟨hij, hi⟩, ?_⟩
              rw [Function.update_of_ne hij]
              exact hk
          · rintro (⟨rfl, hk⟩ | ⟨i, ⟨-, hi⟩ | ⟨hij, hi⟩, hk⟩)
            · exact ⟨.inl ⟨rfl, hk⟩, hne⟩
            · exact nomatch hi
            · rw [Function.update_of_ne hij] at hk
              exact ⟨.inr ⟨i, hi, hk⟩, fun heq => hij (h.inj i j km (heq ▸ hi) hj)⟩
      case live =>
        intro i q hi
        obtain ⟨-, hi⟩ | ⟨hij, hi⟩ := update_eq_some.mp hi
        · exact nomatch hi
        · rw [hlive q fun heq => hij (h.inj i j km (heq ▸ hi) hj)]
          exact h.live i q hi
      case inj =>
        intro i i' q hi hi'
        obtain ⟨-, hi⟩ | ⟨-, hi⟩ := update_eq_some.mp hi
        · exact nomatch hi
        · obtain ⟨-, hi'⟩ | ⟨-, hi'⟩ := update_eq_some.mp hi'
          · exact nomatch hi'
          · exact h.inj i i' q hi hi'
      case notTmp =>
        intro i hi
        obtain ⟨-, hi⟩ | ⟨-, hi⟩ := update_eq_some.mp hi
        · exact nomatch hi
        · exact h.notTmp i hi
      case null =>
        intro i hi
        change Function.update a.pointers j none i = none at hi
        by_cases hij : i = j
        · rw [hij, Function.update_self]
        · rw [Function.update_of_ne hij] at hi ⊢
          exact h.null i hi

/-- A message that has no keywords yet comes to be. -/
theorem create (h : Filled g a tmpMsg ks ns W) {j : Nat} (hj : a.pointers j = none) :
    Filled g ⟨(kwmCreate a.table).2, Function.update a.pointers j (some (kwmCreate a.table).1)⟩
      tmpMsg ks ns W := by
  obtain ⟨L, hlaid⟩ := h.loaded.laid
  have hends : messageEnds (kwmCreate a.table).2 =
      store (messageEnds a.table) a.table.messageBreak (none, none) := map_store _ _ _ _
  have hlive : ∀ q, (messageEnds a.table q).isSome = true →
      q ≠ a.table.messageBreak ∧ (messageEnds (kwmCreate a.table).2 q).isSome = true := fun q hq => by
    have hne : q ≠ a.table.messageBreak := Nat.ne_of_lt (hlaid.messageBound q hq)
    rw [hends, store_ne _ hne]
    exact ⟨hne, hq⟩
  constructor
  case loaded =>
    refine ⟨⟨L, hlaid.kwmCreate⟩, (hlive tmpMsg h.loaded.tmpLive).2, h.loaded.names,
      h.loaded.entries, h.loaded.keys, fun q k => (h.loaded.carries q k).trans (or_congr_right ?_)⟩
    simp only [update_eq_some]
    constructor
    · rintro ⟨i, hi, hk⟩
      refine ⟨i, .inr ⟨fun heq => ?_, hi⟩, hk⟩
      rw [heq, hj] at hi
      exact nomatch hi
    · rintro ⟨i, ⟨rfl, -⟩ | ⟨-, hi⟩, hk⟩
      · rw [h.null i hj] at hk
        exact absurd hk List.not_mem_nil
      · exact ⟨i, hi, hk⟩
  case live =>
    intro i q hi
    obtain ⟨-, hi⟩ | ⟨-, hi⟩ := update_eq_some.mp hi
    · rw [← Option.some.inj hi, hends]
      exact congrArg Option.isSome (store_self _ _ _)
    · exact (hlive q (h.live i q hi)).2
  case inj =>
    intro i i' q hi hi'
    obtain ⟨hij, hi⟩ | ⟨-, hi⟩ := update_eq_some.mp hi
    · obtain ⟨hij', -⟩ | ⟨-, hi'⟩ := update_eq_some.mp hi'
      · exact hij.trans hij'.symm
      · exact absurd (Option.some.inj hi).symm (hlive q (h.live i' q hi')).1
    · obtain ⟨-, hi'⟩ | ⟨-, hi'⟩ := update_eq_some.mp hi'
      · exact absurd (Option.some.inj hi').symm (hlive q (h.live i q hi)).1
      · exact h.inj i i' q hi hi'
  case notTmp =>
    intro i hi
    obtain ⟨-, hi⟩ | ⟨-, hi⟩ := update_eq_some.mp hi
    · exact (hlive tmpMsg h.loaded.tmpLive).1 (Option.some.inj hi).symm
    · exact h.notTmp i hi
  case null =>
    intro i hi
    change Function.update a.pointers j (some (kwmCreate a.table).1) i = none at hi
    by_cases hij : i = j
    · rw [hij, Function.update_self] at hi
      exact nomatch hi
    · rw [Function.update_of_ne hij] at hi
      exact h.null i hi

/-- A message gets one more keyword of the file. -/
theorem set (h : Filled g a tmpMsg ks ns W) {j km : Nat} (hj : a.pointers j = some km) {kw : KeyPtr}
    (hkw : kw ∈ ks) :
    Filled g { a with table := (kwmSet a.table km kw).2 } tmpMsg ks ns
      (Function.update W j (W j ++ [kw])) := by
  obtain ⟨L, hlaid⟩ := h.loaded.laid
  obtain ⟨n, rfl⟩ := h.loaded.entries kw hkw
  obtain ⟨name, -, hname⟩ := h.loaded.name_mem hkw
  obtain ⟨L', hlaid', hnames, hlive, hcarries⟩ := hlaid.kwmSet_keywordOf (h.live j km hj) hname
  constructor
  case loaded =>
    refine ⟨⟨L', hlaid'⟩, (hlive tmpMsg).trans h.loaded.tmpLive, ?_, h.loaded.entries, ?_, fun q k => ?_⟩
    · exact (congrArg (List.map · ks) hnames).trans h.loaded.names
    · rw [hnames]
      exact h.loaded.keys
    · refine (hcarries q k).trans ?_
      change Carries a.table q k ∨ _ ↔ _
      rw [h.loaded.carries, or_assoc]
      refine or_congr_right ?_
      constructor
      · rintro (⟨i, hi, hk⟩ | ⟨rfl, rfl⟩)
        · refine ⟨i, hi, ?_⟩
          by_cases hij : i = j
          · rw [hij] at hk ⊢
            rw [Function.update_self]
            exact List.mem_append_left _ hk
          · rw [Function.update_of_ne hij]
            exact hk
        · refine ⟨j, hj, ?_⟩
          rw [Function.update_self]
          simp
      · rintro ⟨i, hi, hk⟩
        by_cases hij : i = j
        · rw [hij, Function.update_self] at hk
          rw [hij] at hi
          obtain hk | hk := List.mem_append.mp hk
          · exact .inl ⟨j, hi, hk⟩
          · exact .inr ⟨Option.some.inj (hi.symm.trans hj), List.mem_singleton.mp hk⟩
        · rw [Function.update_of_ne hij] at hk
          exact .inl ⟨i, hi, hk⟩
  case live => exact fun i q hi => (hlive q).trans (h.live i q hi)
  case inj => exact h.inj
  case notTmp => exact h.notTmp
  case null =>
    intro i hi
    have hij : i ≠ j := fun heq => by
      rw [heq, hj] at hi
      exact nomatch hi
    rw [Function.update_of_ne hij]
    exact h.null i hi

theorem messageOfLine (h : Filled g a tmpMsg ks ns W) {info : ReadInfo} {p : List UInt8} {j : Nat}
    (hfind : info.findMessage p = some j) {i : Option Nat}
    (hi : i = none ∨ (i = some j ∧ (a.pointers j).isSome = true)) :
    ∃ b km, messageOfLine info p i a = (some j, b) ∧ b.pointers j = some km ∧
      Filled g b tmpMsg ks ns W := by
  obtain rfl | ⟨rfl, hsome⟩ := hi
  · cases hj : a.pointers j with
    | none =>
        refine ⟨_, _, ?_, Function.update_self _ _ _, h.create hj⟩
        rw [Maildirkeywords2.messageOfLine, findMessageByFilename, hfind]
        simp [hj]
    | some km =>
        refine ⟨a, km, ?_, hj, h⟩
        rw [Maildirkeywords2.messageOfLine, findMessageByFilename, hfind]
        simp [hj]
  · obtain ⟨km, hkm⟩ := Option.isSome_iff_exists.mp hsome
    exact ⟨a, km, rfl, hkm, h⟩

end Filled

def readNumbers (ks : List KeyPtr) (nums : List Nat) : List KeyPtr :=
  nums.filterMap fun n => ks[readBack n]?

section Loops
variable {g : Settings} {tmpMsg : Nat} {ks : List KeyPtr} {ns : List (List UInt8)} {info : ReadInfo}

theorem tokenLoop_eq {p : List UInt8} {j : Nat} (hfind : info.findMessage p = some j) (rc : Int)
    (nums : List Nat) {a : Messages} {W : Nat → List KeyPtr} (h : Filled g a tmpMsg ks ns W)
    {i : Option Nat} (hi : i = none ∨ (i = some j ∧ (a.pointers j).isSome = true)) {fuel : Nat}
    (hfuel : nums.length < fuel) :
    ∃ a', tokenLoop info ks p fuel (joinNumbers nums) i rc a = (rc, a') ∧
      Filled g a' tmpMsg ks ns (Function.update W j (W j ++ readNumbers ks nums)) := by
  induction nums generalizing a W i fuel with
  | nil =>
      cases fuel with
      | zero => exact absurd hfuel (Nat.not_lt_zero _)
      | succ fuel =>
          refine ⟨a, rfl, ?_⟩
          rw [readNumbers, List.filterMap_nil, List.append_nil, Function.update_eq_self]
          exact h
  | cons n nums ih =>
      cases fuel with
      | zero => exact absurd hfuel (Nat.not_lt_zero _)
      | succ fuel =>
          have hfuel' := Nat.lt_of_succ_lt_succ hfuel
          unfold tokenLoop
          simp only [strtok_joinNumbers, show toSize (atoi (decimal n)) = readBack n from rfl]
          cases hkw : ks[readBack n]? with
          | none =>
              obtain ⟨a', hloop, hfilled⟩ := ih h hi hfuel'
              refine ⟨a', hloop, ?_⟩
              rw [readNumbers, List.filterMap_cons, hkw]
              exact hfilled
          | some kw =>
              obtain ⟨b, km, hb, hkm, hfilled⟩ := h.messageOfLine hfind hi
              have hset := hfilled.set hkm (List.mem_of_getElem? hkw)
              obtain ⟨a', hloop, hfilled'⟩ := ih hset (.inr ⟨rfl, by rw [hkm]; rfl⟩) hfuel'
              refine ⟨a', ?_, ?_⟩
              · simp only [hb, Option.bind_some, hkm]
                exact hloop
              · rw [Function.update_self, Function.update_idem, List.append_assoc] at hfilled'
                rw [readNumbers, List.filterMap_cons, hkw]
                exact hfilled'

theorem lineLoop_eq (rc : Int) (lines : List (List UInt8 × List Nat)) (find : List UInt8 → Nat)
    (hlines : ∀ line ∈ lines, byte ':' ∉ line.1 ∧ NL ∉ line.1 ∧ 0 ∉ line.1 ∧
      info.findMessage line.1 = some (find line.1)) {a : Messages} {W : Nat → List KeyPtr}
    (h : Filled g a tmpMsg ks ns W) (lineBuf : List UInt8) {fuel : Nat} (hfuel : lines.length < fuel) :
    ∃ a', lineLoop info ks fuel lineBuf (lines.flatMap renderLine) rc a = (rc, a') ∧
      Filled g a' tmpMsg ks ns (lines.foldl
        (fun W line => Function.update W (find line.1) (readNumbers ks line.2)) W) := by
  induction lines generalizing a W lineBuf fuel with
  | nil =>
      cases fuel with
      | zero => exact absurd hfuel (Nat.not_lt_zero _)
      | succ fuel => exact ⟨a, rfl, h⟩
  | cons line lines ih =>
      cases fuel with
      | zero => exact absurd hfuel (Nat.not_lt_zero _)
      | succ fuel =>
          obtain ⟨hcolon, hnl, hzero, hfind⟩ := hlines line List.mem_cons_self
          have hnumbers := mem_joinNumbers line.2
          have htext : (line :: lines).flatMap renderLine =
              (line.1 ++ byte ':' :: joinNumbers line.2) ++ NL :: lines.flatMap renderLine := by
            simp [renderLine]
          have hmem : ∀ c, c ≠ byte ':' → c ∉ line.1 → c ∉ joinNumbers line.2 →
              c ∉ line.1 ++ byte ':' :: joinNumbers line.2 := fun c hc hl hn => by
            simp [hc, hl, hn]
          obtain ⟨buf, hread⟩ := rlRead_line (hmem NL (by decide) hnl fun hm => (hnumbers NL hm).1 rfl)
            (hmem 0 (by decide) hzero fun hm => (hnumbers 0 hm).2 rfl) (lines.flatMap renderLine) lineBuf
          have hspan : (line.1 ++ byte ':' :: joinNumbers line.2).takeWhile (· ≠ byte ':') = line.1 := by
            rw [List.takeWhile_append_of_pos]
            · simp
            · exact fun c hc => decide_eq_true fun heq => hcolon (heq ▸ hc)
          have hne : line.1.length ≠ (line.1 ++ byte ':' :: joinNumbers line.2).length := by
            simp
          have hdrop : (line.1 ++ byte ':' :: joinNumbers line.2).drop (line.1.length + 1) =
              joinNumbers line.2 := by
            rw [List.drop_append, List.drop_of_length_le (by omega)]
            simp
          have hmessage : findMessageByFilename info a line.1 false = (some (find line.1), a) := by
            rw [findMessageByFilename, hfind]
            rfl
          have hclear := h.clear (find line.1)
          obtain ⟨b, htokens, hfilled⟩ := tokenLoop_eq hfind rc line.2 hclear (.inl rfl)
            (Nat.lt_succ_of_le (length_joinNumbers line.2))
          rw [Function.update_self, Function.update_idem, List.nil_append] at hfilled
          obtain ⟨a', hloop, hfilled'⟩ := ih (fun l hl => hlines l (List.mem_cons_of_mem line hl))
            hfilled buf (Nat.lt_of_succ_lt_succ hfuel)
          refine ⟨a', ?_, hfilled'⟩
          rw [htext]
          unfold lineLoop
          simp only [hread, hspan, if_neg hne, hdrop, hmessage, htokens]
          exact hloop

end Loops

end Cone.Maildirkeywords2
