import Cone.Maildirkeywords2
import Cone.MaildirkeywordsFind

/-! # The text of the saved keywords (`maildir/maildirkeywords2.c`) -/
set_option autoImplicit false
namespace Cone.Maildirkeywords2

open Cone.Ctype Cone.Maildirkeywords Cone.Lib.LinkedList
open Cone.Lib.Decimal (decimal)

/-! ## The keywords in the order of the table -/

section Enumerate
variable {A : Type} {callback : State × A → KeyPtr → State × A} {s : State}

theorem enumLoop_eq (hcallback : ∀ r k, bucketLinks (callback r k).1 = bucketLinks r.1)
    {before : Option KeyPtr} {tail : KeyPtr} {l : List KeyPtr}
    (hseg : Seg (bucketLinks s) before none (l ++ [tail])) {r : State × A}
    (hr : bucketLinks r.1 = bucketLinks s) {fuel : Nat} (hfuel : l.length < fuel) :
    enumLoop callback fuel r (l ++ [tail]).head? = l.foldl callback r := by
  induction l generalizing before r fuel with
  | nil =>
      cases fuel with
      | zero => rfl
      | succ fuel =>
          have hnext := (keyword_of_bucketLinks ((congrFun hr tail).trans hseg.1)).1
          rw [List.nil_append, List.head?_cons, enumLoop, hnext]
          rfl
  | cons k l ih =>
      cases fuel with
      | zero => exact absurd hfuel (Nat.not_lt_zero _)
      | succ fuel =>
          have hnext := (keyword_of_bucketLinks ((congrFun hr k).trans hseg.1)).1
          rw [Option.or_none] at hnext
          obtain ⟨m, hm⟩ : ∃ m, (l ++ [tail]).head? = some m := by
            cases l with
            | nil => exact ⟨tail, rfl⟩
            | cons x l => exact ⟨x, rfl⟩
          have hstep := ih hseg.2 ((hcallback r k).trans hr) (Nat.lt_of_succ_lt_succ hfuel)
          change (keyword r.1 k).next = (l ++ [tail]).head? at hnext
          rw [hm] at hnext hstep
          rw [List.cons_append, List.head?_cons, enumLoop, hnext, List.foldl_cons]
          exact hstep

variable {g : Settings} {L : Layout}

def keys (L : Layout) : List KeyPtr := (List.finRange buckets).flatMap L.inBucket

theorem kwEnumerate_eq (h : Laid g s L)
    (hcallback : ∀ r k, bucketLinks (callback r k).1 = bucketLinks r.1)
    (hbreak : ∀ r k, (callback r k).1.keywordBreak = r.1.keywordBreak) {r : State × A}
    (hr : bucketLinks r.1 = bucketLinks s) (hrBreak : r.1.keywordBreak = s.keywordBreak) :
    kwEnumerate callback r = (keys L).foldl callback r := by
  have hfold : ∀ (l : List KeyPtr) (r : State × A), bucketLinks r.1 = bucketLinks s →
      r.1.keywordBreak = s.keywordBreak → bucketLinks (l.foldl callback r).1 = bucketLinks s ∧
        (l.foldl callback r).1.keywordBreak = s.keywordBreak := fun l => by
    induction l with
    | nil => exact fun r hlinks hb => ⟨hlinks, hb⟩
    | cons k l ih =>
        exact fun r hlinks hb => ih _ ((hcallback r k).trans hlinks) ((hbreak r k).trans hb)
  rw [kwEnumerate, keys]
  induction List.finRange buckets generalizing r with
  | nil => rfl
  | cons i is ih =>
      have hseg := h.chains.linked i
      rw [List.cons_append] at hseg
      have hlength := h.length_inBucket i
      rw [List.length_append, List.length_singleton] at hlength
      have hfirst : (keyword r.1 (.head i)).next = (L.inBucket i ++ [KeyPtr.tail i]).head? := by
        rw [(keyword_of_bucketLinks ((congrFun hr (.head i)).trans hseg.1)).1, Option.or_none]
      have hbucket : enumLoop callback (r.1.keywordBreak + 2) r (keyword r.1 (.head i)).next =
          (L.inBucket i).foldl callback r := by
        rw [hfirst]
        exact enumLoop_eq hcallback hseg.2 hr (by omega)
      rw [List.foldl_cons, hbucket, List.flatMap_cons, List.foldl_append]
      obtain ⟨hlinks, hb⟩ := hfold (L.inBucket i) r hr hrBreak
      exact ih hlinks hb

theorem mem_keys (h : Laid g s L) {k : KeyPtr} :
    k ∈ keys L ↔ ∃ n name, k = .entry n ∧ nameOf s (.entry n) = some name := by
  rw [keys, List.mem_flatMap]
  constructor
  · rintro ⟨i, -, hi⟩
    obtain ⟨n, name, hn, hname, -⟩ := h.mem_inBucket.mp hi
    exact ⟨n, name, hn, hname⟩
  · rintro ⟨n, name, rfl, hname⟩
    exact ⟨_, List.mem_finRange _, h.mem_inBucket.mpr ⟨n, name, rfl, hname, rfl⟩⟩

theorem nodup_keys (h : Laid g s L) : (keys L).Nodup := by
  rw [keys, List.nodup_flatMap]
  refine ⟨fun i _ => (h.chains.nodup i).sublist (by simp), ?_⟩
  refine (List.nodup_finRange buckets).imp fun {i j} hij k hi hj => hij ?_
  obtain ⟨n, name, rfl, hname, rfl⟩ := h.mem_inBucket.mp hi
  obtain ⟨m, name', hm, hname', rfl⟩ := h.mem_inBucket.mp hj
  rw [KeyPtr.entry.inj hm, hname'] at hname
  rw [Option.some.inj hname]

end Enumerate

/-! ## Their numbers -/

section Numbers
variable {s : State} {k : KeyPtr}

theorem nameOf_setUserNum (c : Nat) :
    nameOf (setKeyword s k fun e => { e with userNum := c }) = nameOf s := nameOf_keep fun _ => rfl

theorem keyword_setKeyword_ne {f : KeywordEntry → KeywordEntry} {j : KeyPtr} (h : j ≠ k) :
    keyword (setKeyword s k f) j = keyword s j := by
  change (modify s.keywords k f j).getD default = _
  rw [modify_ne _ h, keyword]

theorem keyword_setKeyword_self {f : KeywordEntry → KeywordEntry} (h : (nameOf s k).isSome = true) :
    keyword (setKeyword s k f) k = f (keyword s k) := by
  rw [nameOf, Option.isSome_map] at h
  obtain ⟨c, hc⟩ := Option.isSome_iff_exists.mp h
  change (modify s.keywords k f k).getD default = _
  rw [modify_self, keyword, hc]
  rfl

/-- What `saveKeywordList` leaves behind. -/
structure Saved (l : List KeyPtr) (s : State) (text : List UInt8) (c : Nat)
    (r : State × (List UInt8 × Nat)) : Prop where
  text_eq : r.2.1 = text ++ l.flatMap (fun k => keywordName s k ++ [NL])
  counter : r.2.2 = c + l.length
  entries : r.1.entries = s.entries
  messages : r.1.messages = s.messages
  entryBreak : r.1.entryBreak = s.entryBreak
  nameOf_eq : nameOf r.1 = nameOf s
  other : ∀ k, k ∉ l → keyword r.1 k = keyword s k
  number : l.Nodup → ∀ k ∈ l, (nameOf s k).isSome = true → (keyword r.1 k).userNum = c + l.idxOf k

theorem foldl_saveKeywordList (l : List KeyPtr) (s : State) (text : List UInt8) (c : Nat) :
    Saved l s text c (l.foldl saveKeywordList (s, (text, c))) := by
  induction l generalizing s text c with
  | nil =>
      exact ⟨(List.append_nil _).symm, rfl, rfl, rfl, rfl, rfl, fun _ _ => rfl,
        fun _ _ h => absurd h List.not_mem_nil⟩
  | cons k l ih =>
      have h := ih (setKeyword s k fun e => { e with userNum := c })
        (text ++ keywordName s k ++ [NL]) (c + 1)
      rw [List.foldl_cons]
      change Saved (k :: l) s text c (l.foldl saveKeywordList (setKeyword s k _, _))
      have hnames := nameOf_setUserNum (s := s) (k := k) c
      have hkeywordName : ∀ j, keywordName (setKeyword s k fun e => { e with userNum := c }) j =
          keywordName s j := fun j => by rw [keywordName_eq, hnames, ← keywordName_eq]
      constructor
      case text_eq =>
        rw [h.text_eq, List.flatMap_cons]
        simp only [hkeywordName, List.append_assoc]
      case counter =>
        rw [h.counter, List.length_cons]
        omega
      case entries => exact h.entries
      case messages => exact h.messages
      case entryBreak => exact h.entryBreak
      case nameOf_eq => exact h.nameOf_eq.trans hnames
      case other =>
        intro j hj
        have hjk : j ≠ k := fun heq => hj (heq ▸ List.mem_cons_self)
        rw [h.other j fun hmem => hj (List.mem_cons_of_mem k hmem), keyword_setKeyword_ne hjk]
      case number =>
        intro hnodup j hj hlive
        obtain ⟨hk, hl⟩ := List.nodup_cons.mp hnodup
        by_cases hjk : j = k
        · rw [hjk, h.other k hk, keyword_setKeyword_self (hjk ▸ hlive), List.idxOf_cons_self]
          rfl
        · rw [h.number hl j ((List.mem_cons.mp hj).resolve_left hjk) (hnames ▸ hlive),
            List.idxOf_cons_ne _ (Ne.symm hjk)]
          omega

end Numbers

/-! ## The lines of the messages -/

def joinNumbers : List Nat → List UInt8
  | [] => []
  | [n] => decimal n
  | n :: m :: l => decimal n ++ SP :: joinNumbers (m :: l)

def renderLine (line : List UInt8 × List Nat) : List UInt8 :=
  line.1 ++ byte ':' :: joinNumbers line.2 ++ [NL]

def renderFile (names : List (List UInt8)) (lines : List (List UInt8 × List Nat)) : List UInt8 :=
  names.flatMap (· ++ [NL]) ++ NL :: lines.flatMap renderLine

section Lines
variable {s : State}

theorem numberLoop_eq {before : Option Nat} {l : List Nat} (h : Seg (messageLinks s) before none l)
    (p : List UInt8) {fuel : Nat} (hfuel : l.length < fuel) :
    numberLoop s fuel p l.head? =
      if l = [] then []
      else p ++ joinNumbers (l.map fun e => (keyword s (entry s e).keywordEntry).userNum) := by
  induction l generalizing before p fuel with
  | nil =>
      cases fuel with
      | zero => rfl
      | succ fuel => rfl
  | cons e l ih =>
      cases fuel with
      | zero => exact absurd hfuel (Nat.not_lt_zero _)
      | succ fuel =>
          have hnext : (entry s e).next = l.head? := by
            rw [(entry_of_messageLinks h.1).1, Option.or_none]
          rw [List.head?_cons, numberLoop, hnext, ih h.2 [SP] (Nat.lt_of_succ_lt_succ hfuel)]
          cases l with
          | nil => simp [joinNumbers]
          | cons d l => simp [joinNumbers]

end Lines

section Export
variable {g : Settings} {s : State} {L : Layout}

def numbers (s : State) (L : Layout) (km : Nat) : List Nat :=
  (L.onMessage km).map fun e => (keys L).idxOf (entry s e).keywordEntry

def lineOf (mdirsep : UInt8) (info : ReadInfo) (s : State) (L : Layout) (i : Nat) (km : Option Nat) :
    Option (List UInt8 × List Nat) :=
  km.bind fun km =>
    if L.onMessage km = [] then none
    else some (baseName mdirsep (info.getMessageFilename i), numbers s L km)

theorem messageLine_eq (mdirsep : UInt8) (info : ReadInfo) (h : Laid g s L) (i : Nat)
    {km : Option Nat} (hkm : ∀ q ∈ km, (messageEnds s q).isSome = true) {t : State}
    (hentries : t.entries = s.entries) (hmessages : t.messages = s.messages)
    (hbreak : t.entryBreak = s.entryBreak)
    (hnumber : ∀ k ∈ keys L, (keyword t k).userNum = (keys L).idxOf k) :
    messageLine mdirsep info t i km = ((lineOf mdirsep info s L i km).map renderLine).getD [] := by
  cases km with
  | none => rfl
  | some km =>
      have hfirst : (message t km).firstEntry = (L.onMessage km).head? := by
        obtain ⟨ends, hends⟩ := Option.isSome_iff_exists.mp (hkm km rfl)
        rw [message, hmessages]
        exact (message_of_ends (h.messages.ends_eq km ends hends ▸ hends)).1
      have hseg : Seg (messageLinks t) none none (L.onMessage km) :=
        (h.messages.linked km).congr fun e _ => by rw [messageLinks, hentries, messageLinks]
      have hlength := h.length_onMessage km
      rw [← hbreak] at hlength
      have hnums : (L.onMessage km).map (fun e => (keyword t (entry t e).keywordEntry).userNum) =
          numbers s L km := by
        refine List.map_congr_left fun e he => ?_
        obtain ⟨n, name, hpair, hn⟩ := h.pair_of_mem he
        have hkey : (entry t e).keywordEntry = .entry n := by
          rw [entry, hentries]
          exact (entry_of_pair hpair).2
        rw [hkey, (entry_of_pair hpair).2]
        exact hnumber _ ((mem_keys h).mpr ⟨n, name, rfl, hn⟩)
      rw [messageLine, hfirst, numberLoop_eq hseg [] hlength, hnums, lineOf, Option.bind_some]
      by_cases hon : L.onMessage km = []
      · rw [hon]
        rfl
      · have hhead : (L.onMessage km).head?.isNone = false := by
          rw [Option.isNone_eq_false_iff, List.isSome_head?]
          exact hon
        rw [hhead, if_neg hon, if_neg hon, if_neg (by decide)]
        simp [renderLine]

theorem kwExport_text (mdirsep : UInt8) (info : ReadInfo) {a : Messages} (h : Laid g a.table L)
    (hlive : ∀ i < info.getMessageCount, ∀ km ∈ a.pointers i, (messageEnds a.table km).isSome = true) :
    (kwExport mdirsep info a).2.1 =
      if keys L = [] then []
      else renderFile ((keys L).map (keywordName a.table))
        ((List.range info.getMessageCount).filterMap fun i =>
          lineOf mdirsep info a.table L i (a.pointers i)) := by
  have henum := @kwEnumerate_eq _ saveKeywordList a.table g L h
    (fun r k => bucketLinks_keep fun _ => rfl) (fun _ _ => rfl) (a.table, ([], 0)) rfl rfl
  have hsaved := foldl_saveKeywordList (keys L) a.table [] 0
  rw [← henum] at hsaved
  have hcounter := hsaved.counter
  rw [Nat.zero_add] at hcounter
  simp only [kwExport]
  by_cases hnil : keys L = []
  · rw [if_pos hnil, if_pos (by rw [hcounter, hnil]; rfl), hsaved.text_eq, hnil]
    rfl
  · have hne : (keys L).length ≠ 0 := fun hzero => hnil (List.length_eq_zero_iff.mp hzero)
    rw [if_neg hnil, if_neg (hcounter ▸ hne), hsaved.text_eq, renderFile, List.nil_append,
      List.flatMap_map, List.append_assoc, List.singleton_append, List.flatMap_def,
      List.flatMap_def]
    refine congrArg (_ ++ NL :: ·) ?_
    have hnumber : ∀ k ∈ keys L,
        (keyword (kwEnumerate saveKeywordList (a.table, ([], 0))).1 k).userNum =
          (keys L).idxOf k := fun k hk => by
      obtain ⟨n, name, rfl, hname⟩ := (mem_keys h).mp hk
      rw [hsaved.number (nodup_keys h) _ hk (by rw [hname]; rfl), Nat.zero_add]
    rw [List.map_congr_left fun i hi => messageLine_eq mdirsep info h i
      (hlive i (List.mem_range.mp hi)) hsaved.entries hsaved.messages hsaved.entryBreak hnumber]
    induction List.range info.getMessageCount with
    | nil => rfl
    | cons i l ih =>
        rw [List.map_cons, List.flatten_cons, ih, List.filterMap_cons]
        cases lineOf mdirsep info a.table L i (a.pointers i) <;> rfl

end Export

end Cone.Maildirkeywords2
