import Cone.Maildirkeywords

/-! # What the assignments do to the links (`maildir/maildirkeywords.c`)

The cells are read through their links on the list of a message, on the list of a keyword and in a
bucket, and each assignment changes one of these. -/
set_option autoImplicit false
namespace Cone.Maildirkeywords

open Cone.Ctype Cone.Rfc2045Header Cone.Lib.LinkedList

/-! ## Comparing names -/

theorem strcmp_swap (a b : List UInt8) : strcmp b a = -strcmp a b := by
  induction a generalizing b with
  | nil =>
      cases b with
      | nil => rfl
      | cons d b => exact (Int.neg_neg _).symm
  | cons c a ih =>
      cases b with
      | nil => rfl
      | cons d b =>
          rw [strcmp, strcmp]
          by_cases heq : c = d
          · rw [if_pos heq, if_pos heq.symm, ih]
          · rw [if_neg heq, if_neg (Ne.symm heq)]
            omega

theorem strcmp_self (a : List UInt8) : strcmp a a = 0 := by
  have h := strcmp_swap a a
  omega

theorem strcmp_eq_zero {a b : List UInt8} (ha : 0 ∉ a) (hb : 0 ∉ b) : strcmp a b = 0 ↔ a = b := by
  refine ⟨fun h => ?_, fun h => h ▸ strcmp_self a⟩
  induction a generalizing b with
  | nil =>
      cases b with
      | nil => rfl
      | cons d b =>
          have hd : d.toNat = 0 := by simpa [strcmp] using h
          exact absurd (List.mem_cons.mpr (.inl (UInt8.toNat_inj.mp hd).symm)) hb
  | cons c a ih =>
      cases b with
      | nil =>
          have hc : c.toNat = 0 := by simpa [strcmp] using h
          exact absurd (List.mem_cons.mpr (.inl (UInt8.toNat_inj.mp hc).symm)) ha
      | cons d b =>
          rw [strcmp] at h
          by_cases heq : c = d
          · rw [if_pos heq] at h
            rw [heq, ih (fun hm => ha (List.mem_cons_of_mem _ hm))
              (fun hm => hb (List.mem_cons_of_mem _ hm)) h]
          · rw [if_neg heq] at h
            exact absurd (UInt8.toNat_inj.mp (by omega)) heq

theorem strcmp_trans {a b c : List UInt8} (hab : strcmp a b < 0) (hbc : strcmp b c < 0) :
    strcmp a c < 0 := by
  induction a generalizing b c with
  | nil =>
      cases b with
      | nil => exact hbc
      | cons y b =>
          cases c with
          | nil =>
              rw [strcmp] at hbc
              omega
          | cons z c =>
              simp only [strcmp] at hab hbc ⊢
              by_cases heq : y = z
              · rw [← heq]
                exact hab
              · rw [if_neg heq] at hbc
                omega
  | cons x a ih =>
      cases b with
      | nil =>
          rw [strcmp] at hab
          omega
      | cons y b =>
          cases c with
          | nil =>
              rw [strcmp] at hbc
              omega
          | cons z c =>
              rw [strcmp] at hab hbc ⊢
              by_cases hxy : x = y
              · by_cases hyz : y = z
                · rw [if_pos hxy] at hab
                  rw [if_pos hyz] at hbc
                  rw [if_pos (hxy.trans hyz)]
                  exact ih hab hbc
                · rw [if_neg hyz] at hbc
                  rw [hxy, if_neg hyz]
                  exact hbc
              · rw [if_neg hxy] at hab
                by_cases hyz : y = z
                · rw [← hyz, if_neg hxy]
                  exact hab
                · rw [if_neg hyz] at hbc
                  have hxz : x ≠ z := fun heq => by
                    rw [heq] at hab
                    omega
                  rw [if_neg hxz]
                  omega

theorem tolower_eq_zero (c : UInt8) (h : tolower c = 0) : c = 0 := by
  revert c
  exact forall_byte (by decide +kernel)

section Settings
variable (g : Settings)

theorem zero_notMem_foldCase {name : List UInt8} (h : 0 ∉ name) : 0 ∉ foldCase g name := by
  rw [foldCase]
  split
  · exact h
  · intro hmem
    obtain ⟨c, hc, hzero⟩ := List.mem_map.mp hmem
    exact h (tolower_eq_zero c hzero ▸ hc)

theorem zero_notMem_fixName {name : List UInt8} (h : 0 ∉ name) : 0 ∉ fixName g name := by
  rw [fixName]
  split
  · exact h
  · intro hmem
    obtain ⟨c, hc, hzero⟩ := List.mem_map.mp hmem
    split at hzero
    · exact absurd hzero (by decide)
    · exact h (hzero ▸ hc)

theorem nameCmp_eq_zero {a b : List UInt8} (ha : 0 ∉ a) (hb : 0 ∉ b) :
    nameCmp g a b = 0 ↔ foldCase g a = foldCase g b :=
  strcmp_eq_zero (zero_notMem_foldCase g ha) (zero_notMem_foldCase g hb)

theorem hashBucket_congr {a b : List UInt8} (h : foldCase g a = foldCase g b) :
    hashBucket g a = hashBucket g b := by
  rw [hashBucket, h, hashBucket]

end Settings

/-! ## The links -/

section Links
variable (s : State)

def messageLinks (e : Nat) : Option (Option Nat × Option Nat) :=
  (s.entries e).map fun c => (c.next, c.prev)

def keywordLinks (e : Nat) : Option (Option Nat × Option Nat) :=
  (s.entries e).map fun c => (c.keywordNext, c.keywordPrev)

def pair (e : Nat) : Option (Nat × KeyPtr) := (s.entries e).map fun c => (c.message, c.keywordEntry)

def bucketLinks (k : KeyPtr) : Option (Option KeyPtr × Option KeyPtr) :=
  (s.keywords k).map fun c => (c.next, c.prev)

def keywordEnds (k : KeyPtr) : Option (Option Nat × Option Nat) :=
  (s.keywords k).map fun c => (c.firstMsg, c.lastMsg)

def nameOf (k : KeyPtr) : Option (List UInt8) := (s.keywords k).map fun c => c.name

def messageEnds (km : Nat) : Option (Option Nat × Option Nat) :=
  (s.messages km).map fun m => (m.firstEntry, m.lastEntry)

end Links

theorem entry_of_messageLinks {s : State} {e : Nat} {n q : Option Nat}
    (h : messageLinks s e = some (n, q)) : (entry s e).next = n ∧ (entry s e).prev = q := by
  obtain ⟨c, hc, hlinks⟩ := Option.map_eq_some_iff.mp h
  rw [entry, hc]
  exact ⟨congrArg Prod.fst hlinks, congrArg Prod.snd hlinks⟩

theorem entry_of_keywordLinks {s : State} {e : Nat} {n q : Option Nat}
    (h : keywordLinks s e = some (n, q)) :
    (entry s e).keywordNext = n ∧ (entry s e).keywordPrev = q := by
  obtain ⟨c, hc, hlinks⟩ := Option.map_eq_some_iff.mp h
  rw [entry, hc]
  exact ⟨congrArg Prod.fst hlinks, congrArg Prod.snd hlinks⟩

theorem entry_of_pair {s : State} {e km : Nat} {k : KeyPtr} (h : pair s e = some (km, k)) :
    (entry s e).message = km ∧ (entry s e).keywordEntry = k := by
  obtain ⟨c, hc, hpair⟩ := Option.map_eq_some_iff.mp h
  rw [entry, hc]
  exact ⟨congrArg Prod.fst hpair, congrArg Prod.snd hpair⟩

theorem keyword_of_bucketLinks {s : State} {k : KeyPtr} {n q : Option KeyPtr}
    (h : bucketLinks s k = some (n, q)) : (keyword s k).next = n ∧ (keyword s k).prev = q := by
  obtain ⟨c, hc, hlinks⟩ := Option.map_eq_some_iff.mp h
  rw [keyword, hc]
  exact ⟨congrArg Prod.fst hlinks, congrArg Prod.snd hlinks⟩

theorem keyword_of_ends {s : State} {k : KeyPtr} {n q : Option Nat}
    (h : keywordEnds s k = some (n, q)) :
    (keyword s k).firstMsg = n ∧ (keyword s k).lastMsg = q := by
  obtain ⟨c, hc, hends⟩ := Option.map_eq_some_iff.mp h
  rw [keyword, hc]
  exact ⟨congrArg Prod.fst hends, congrArg Prod.snd hends⟩

theorem message_of_ends {s : State} {km : Nat} {n q : Option Nat}
    (h : messageEnds s km = some (n, q)) :
    (message s km).firstEntry = n ∧ (message s km).lastEntry = q := by
  obtain ⟨m, hm, hends⟩ := Option.map_eq_some_iff.mp h
  rw [message, hm]
  exact ⟨congrArg Prod.fst hends, congrArg Prod.snd hends⟩

/-! ## One assignment -/

section Assign
variable {s : State} {p : Nat} {k : KeyPtr} {f : MessageEntry → MessageEntry}
  {h : KeywordEntry → KeywordEntry} {m : Message → Message}

theorem messageLinks_setEntry {r : Option Nat × Option Nat → Option Nat × Option Nat}
    (hf : ∀ c, ((f c).next, (f c).prev) = r (c.next, c.prev)) :
    messageLinks (setEntry s p f) = modify (messageLinks s) p r := modify_view s.entries p hf

theorem keywordLinks_setEntry {r : Option Nat × Option Nat → Option Nat × Option Nat}
    (hf : ∀ c, ((f c).keywordNext, (f c).keywordPrev) = r (c.keywordNext, c.keywordPrev)) :
    keywordLinks (setEntry s p f) = modify (keywordLinks s) p r := modify_view s.entries p hf

theorem messageEnds_setMessage {r : Option Nat × Option Nat → Option Nat × Option Nat}
    (hf : ∀ c, ((m c).firstEntry, (m c).lastEntry) = r (c.firstEntry, c.lastEntry)) :
    messageEnds (setMessage s p m) = modify (messageEnds s) p r := modify_view s.messages p hf

theorem keywordEnds_setKeyword {r : Option Nat × Option Nat → Option Nat × Option Nat}
    (hf : ∀ c, ((h c).firstMsg, (h c).lastMsg) = r (c.firstMsg, c.lastMsg)) :
    keywordEnds (setKeyword s k h) = modify (keywordEnds s) k r := modify_view s.keywords k hf

theorem bucketLinks_setKeyword {r : Option KeyPtr × Option KeyPtr → Option KeyPtr × Option KeyPtr}
    (hf : ∀ c, ((h c).next, (h c).prev) = r (c.next, c.prev)) :
    bucketLinks (setKeyword s k h) = modify (bucketLinks s) k r := modify_view s.keywords k hf

theorem messageLinks_keep (hf : ∀ c, ((f c).next, (f c).prev) = (c.next, c.prev)) :
    messageLinks (setEntry s p f) = messageLinks s := funext fun e => modify_frame s.entries p hf e

theorem keywordLinks_keep (hf : ∀ c, ((f c).keywordNext, (f c).keywordPrev) = (c.keywordNext, c.keywordPrev)) :
    keywordLinks (setEntry s p f) = keywordLinks s := funext fun e => modify_frame s.entries p hf e

theorem pair_keep (hf : ∀ c, ((f c).message, (f c).keywordEntry) = (c.message, c.keywordEntry)) :
    pair (setEntry s p f) = pair s := funext fun e => modify_frame s.entries p hf e

theorem bucketLinks_keep (hf : ∀ c, ((h c).next, (h c).prev) = (c.next, c.prev)) :
    bucketLinks (setKeyword s k h) = bucketLinks s :=
  funext fun j => modify_frame s.keywords k hf j

theorem keywordEnds_keep (hf : ∀ c, ((h c).firstMsg, (h c).lastMsg) = (c.firstMsg, c.lastMsg)) :
    keywordEnds (setKeyword s k h) = keywordEnds s :=
  funext fun j => modify_frame s.keywords k hf j

theorem nameOf_keep (hf : ∀ c, (h c).name = c.name) : nameOf (setKeyword s k h) = nameOf s :=
  funext fun j => modify_frame s.keywords k hf j

theorem keywordLinks_setMessage : keywordLinks (setMessage s p m) = keywordLinks s := rfl

theorem pair_setMessage : pair (setMessage s p m) = pair s := rfl

theorem messageLinks_setKeyword : messageLinks (setKeyword s k h) = messageLinks s := rfl

theorem pair_setKeyword : pair (setKeyword s k h) = pair s := rfl

theorem bucketLinks_setEntry : bucketLinks (setEntry s p f) = bucketLinks s := rfl

theorem nameOf_setEntry : nameOf (setEntry s p f) = nameOf s := rfl

end Assign

/-! ## The list of a message -/

section LinkMessage
variable {s : State} {km p : Nat} {keLast : Option Nat}

/-- The cell that comes before the new one. -/
def prevOf (s : State) (km : Nat) (keLast : Option Nat) : Option Nat :=
  match keLast with
  | some last => (entry s last).prev
  | none => (message s km).lastEntry

theorem linkMessage_links :
    messageLinks (linkMessage s km keLast p) =
      modifyAt (modifyAt (modify (messageLinks s) p fun _ => (keLast, prevOf s km keLast)) keLast
        fun r => (r.1, some p)) (prevOf s km keLast) fun r => (some p, r.2) := by
  cases keLast with
  | some last =>
      simp only [linkMessage, prevOf]
      cases (entry s last).prev with
      | some y =>
          rw [messageLinks_setEntry (r := fun r => (some p, r.2)) fun c => rfl,
            messageLinks_setEntry (r := fun r => (r.1, some p)) fun c => rfl,
            messageLinks_setEntry (r := fun _ => (some last, some y)) fun c => rfl]
          rfl
      | none =>
          change messageLinks (setEntry _ last _) = _
          rw [messageLinks_setEntry (r := fun r => (r.1, some p)) fun c => rfl,
            messageLinks_setEntry (r := fun _ => (some last, none)) fun c => rfl]
          rfl
  | none =>
      simp only [linkMessage, prevOf]
      cases (message s km).lastEntry with
      | some y =>
          change messageLinks (setEntry _ y _) = _
          rw [messageLinks_setEntry (r := fun r => (some p, r.2)) fun c => rfl,
            messageLinks_setEntry (r := fun _ => (none, some y)) fun c => rfl]
          rfl
      | none =>
          change messageLinks (setEntry _ p _) = _
          rw [messageLinks_setEntry (r := fun _ => (none, none)) fun c => rfl]
          rfl

theorem linkMessage_ends :
    messageEnds (linkMessage s km keLast p) =
      modify (messageEnds s) km (spliceEnds (prevOf s km keLast) keLast p) := by
  cases keLast with
  | some last =>
      simp only [linkMessage, prevOf]
      cases (entry s last).prev with
      | some y => exact (modify_id _ _).symm
      | none => exact messageEnds_setMessage fun c => rfl
  | none =>
      simp only [linkMessage, prevOf]
      cases (message s km).lastEntry with
      | some y => exact messageEnds_setMessage fun c => rfl
      | none =>
          rw [messageEnds_setMessage (r := fun r => (r.1, some p)) fun c => rfl]
          rw [messageEnds_setMessage (r := fun r => (some p, r.2)) fun c => rfl]
          exact modify_modify _ _ _ _

theorem linkMessage_frame :
    (linkMessage s km keLast p).keywords = s.keywords ∧
    (linkMessage s km keLast p).keywordBreak = s.keywordBreak ∧
    (linkMessage s km keLast p).entryBreak = s.entryBreak ∧
    (linkMessage s km keLast p).messageBreak = s.messageBreak ∧
    keywordLinks (linkMessage s km keLast p) = keywordLinks s ∧
    pair (linkMessage s km keLast p) = pair s := by
  cases keLast with
  | some last =>
      simp only [linkMessage]
      cases (entry s last).prev with
      | some y =>
          refine ⟨rfl, rfl, rfl, rfl, ?_, ?_⟩
          · simp only [keywordLinks_keep, implies_true]
          · simp only [pair_keep, implies_true]
      | none =>
          refine ⟨rfl, rfl, rfl, rfl, ?_, ?_⟩
          · simp only [keywordLinks_keep, keywordLinks_setMessage, implies_true]
          · simp only [pair_keep, pair_setMessage, implies_true]
  | none =>
      simp only [linkMessage]
      cases (message s km).lastEntry with
      | some y =>
          refine ⟨rfl, rfl, rfl, rfl, ?_, ?_⟩
          · simp only [keywordLinks_keep, keywordLinks_setMessage, implies_true]
          · simp only [pair_keep, pair_setMessage, implies_true]
      | none =>
          refine ⟨rfl, rfl, rfl, rfl, ?_, ?_⟩
          · simp only [keywordLinks_keep, keywordLinks_setMessage, implies_true]
          · simp only [pair_keep, pair_setMessage, implies_true]

end LinkMessage

section UnlinkMessage
variable {s : State} {e : Nat}

theorem unlinkMessage_links :
    messageLinks (unlinkMessage s e) =
      modifyAt (modifyAt (messageLinks s) (entry s e).next fun r => (r.1, (entry s e).prev))
        (entry s e).prev fun r => ((entry s e).next, r.2) := by
  simp only [unlinkMessage]
  cases (entry s e).next with
  | some n =>
      cases (entry s e).prev with
      | some y =>
          rw [messageLinks_setEntry (r := fun r => (some n, r.2)) fun c => rfl,
            messageLinks_setEntry (r := fun r => (r.1, some y)) fun c => rfl]
          rfl
      | none => exact messageLinks_setEntry fun c => rfl
  | none =>
      cases (entry s e).prev with
      | some y => exact messageLinks_setEntry fun c => rfl
      | none => rfl

theorem unlinkMessage_ends :
    messageEnds (unlinkMessage s e) =
      modify (messageEnds s) (entry s e).message (cutEnds (entry s e).prev (entry s e).next) := by
  simp only [unlinkMessage]
  cases (entry s e).next with
  | some n =>
      cases (entry s e).prev with
      | some y => exact (modify_id _ _).symm
      | none => exact messageEnds_setMessage fun c => rfl
  | none =>
      cases (entry s e).prev with
      | some y => exact messageEnds_setMessage fun c => rfl
      | none =>
          rw [messageEnds_setMessage (r := fun r => (none, r.2)) fun c => rfl]
          rw [messageEnds_setMessage (r := fun r => (r.1, none)) fun c => rfl]
          exact modify_modify _ _ _ _

theorem unlinkMessage_frame :
    (unlinkMessage s e).keywords = s.keywords ∧
    (unlinkMessage s e).keywordBreak = s.keywordBreak ∧
    (unlinkMessage s e).entryBreak = s.entryBreak ∧
    (unlinkMessage s e).messageBreak = s.messageBreak ∧
    keywordLinks (unlinkMessage s e) = keywordLinks s ∧ pair (unlinkMessage s e) = pair s := by
  simp only [unlinkMessage]
  cases (entry s e).next with
  | some n =>
      cases (entry s e).prev with
      | some y =>
          refine ⟨rfl, rfl, rfl, rfl, ?_, ?_⟩
          · simp only [keywordLinks_keep, implies_true]
          · simp only [pair_keep, implies_true]
      | none =>
          refine ⟨rfl, rfl, rfl, rfl, ?_, ?_⟩
          · simp only [keywordLinks_keep, keywordLinks_setMessage, implies_true]
          · simp only [pair_keep, pair_setMessage, implies_true]
  | none =>
      cases (entry s e).prev with
      | some y =>
          refine ⟨rfl, rfl, rfl, rfl, ?_, ?_⟩
          · simp only [keywordLinks_keep, keywordLinks_setMessage, implies_true]
          · simp only [pair_keep, pair_setMessage, implies_true]
      | none => exact ⟨rfl, rfl, rfl, rfl, rfl, rfl⟩

end UnlinkMessage

/-! ## The list of a keyword -/

section LinkKeyword
variable {s : State} {ke : KeyPtr} {p : Nat}

theorem linkKeyword_links :
    keywordLinks (linkKeyword s ke p) =
      modifyAt (modifyAt (modify (keywordLinks s) p fun _ => (none, (keyword s ke).lastMsg)) none
        fun r => (r.1, some p)) (keyword s ke).lastMsg fun r => (some p, r.2) := by
  simp only [linkKeyword]
  cases (keyword s ke).lastMsg with
  | some y =>
      change keywordLinks (setEntry _ y _) = _
      rw [keywordLinks_setEntry (r := fun r => (some p, r.2)) fun c => rfl,
        keywordLinks_setEntry (r := fun _ => (none, some y)) fun c => rfl]
      rfl
  | none =>
      change keywordLinks (setEntry _ p _) = _
      rw [keywordLinks_setEntry (r := fun _ => (none, none)) fun c => rfl]
      rfl

theorem linkKeyword_ends :
    keywordEnds (linkKeyword s ke p) =
      modify (keywordEnds s) ke (spliceEnds (keyword s ke).lastMsg none p) := by
  simp only [linkKeyword]
  cases (keyword s ke).lastMsg with
  | some y => exact keywordEnds_setKeyword fun c => rfl
  | none =>
      rw [keywordEnds_setKeyword (r := fun r => (r.1, some p)) fun c => rfl]
      rw [keywordEnds_setKeyword (r := fun r => (some p, r.2)) fun c => rfl]
      exact modify_modify _ _ _ _

theorem linkKeyword_frame :
    (linkKeyword s ke p).messages = s.messages ∧
    (linkKeyword s ke p).keywordBreak = s.keywordBreak ∧
    (linkKeyword s ke p).entryBreak = s.entryBreak ∧
    (linkKeyword s ke p).messageBreak = s.messageBreak ∧
    messageLinks (linkKeyword s ke p) = messageLinks s ∧ pair (linkKeyword s ke p) = pair s ∧
    bucketLinks (linkKeyword s ke p) = bucketLinks s ∧ nameOf (linkKeyword s ke p) = nameOf s := by
  simp only [linkKeyword]
  cases (keyword s ke).lastMsg with
  | some y =>
      refine ⟨rfl, rfl, rfl, rfl, ?_, ?_, ?_, ?_⟩
      · simp only [messageLinks_setKeyword, messageLinks_keep, implies_true]
      · simp only [pair_setKeyword, pair_keep, implies_true]
      · exact bucketLinks_keep fun c => rfl
      · exact nameOf_keep fun c => rfl
  | none =>
      refine ⟨rfl, rfl, rfl, rfl, ?_, ?_, ?_, ?_⟩
      · simp only [messageLinks_setKeyword, messageLinks_keep, implies_true]
      · simp only [pair_setKeyword, pair_keep, implies_true]
      · simp only [bucketLinks_keep, bucketLinks_setEntry, implies_true]
      · simp only [nameOf_keep, nameOf_setEntry, implies_true]

end LinkKeyword

section UnlinkKeyword
variable {s : State} {e : Nat}

theorem unlinkKeyword_links :
    keywordLinks (unlinkKeyword s e) =
      modifyAt (modifyAt (keywordLinks s) (entry s e).keywordNext
        fun r => (r.1, (entry s e).keywordPrev))
        (entry s e).keywordPrev fun r => ((entry s e).keywordNext, r.2) := by
  simp only [unlinkKeyword]
  cases (entry s e).keywordNext with
  | some n =>
      cases (entry s e).keywordPrev with
      | some y =>
          rw [keywordLinks_setEntry (r := fun r => (some n, r.2)) fun c => rfl,
            keywordLinks_setEntry (r := fun r => (r.1, some y)) fun c => rfl]
          rfl
      | none => exact keywordLinks_setEntry fun c => rfl
  | none =>
      cases (entry s e).keywordPrev with
      | some y => exact keywordLinks_setEntry fun c => rfl
      | none => rfl

theorem unlinkKeyword_ends :
    keywordEnds (unlinkKeyword s e) = modify (keywordEnds s) (entry s e).keywordEntry
      (cutEnds (entry s e).keywordPrev (entry s e).keywordNext) := by
  simp only [unlinkKeyword]
  cases (entry s e).keywordNext with
  | some n =>
      cases (entry s e).keywordPrev with
      | some y => exact (modify_id _ _).symm
      | none => exact keywordEnds_setKeyword fun c => rfl
  | none =>
      cases (entry s e).keywordPrev with
      | some y => exact keywordEnds_setKeyword fun c => rfl
      | none =>
          rw [keywordEnds_setKeyword (r := fun r => (none, r.2)) fun c => rfl]
          rw [keywordEnds_setKeyword (r := fun r => (r.1, none)) fun c => rfl]
          exact modify_modify _ _ _ _

theorem unlinkKeyword_frame :
    (unlinkKeyword s e).messages = s.messages ∧
    (unlinkKeyword s e).keywordBreak = s.keywordBreak ∧
    (unlinkKeyword s e).entryBreak = s.entryBreak ∧
    (unlinkKeyword s e).messageBreak = s.messageBreak ∧
    messageLinks (unlinkKeyword s e) = messageLinks s ∧ pair (unlinkKeyword s e) = pair s ∧
    bucketLinks (unlinkKeyword s e) = bucketLinks s ∧ nameOf (unlinkKeyword s e) = nameOf s := by
  simp only [unlinkKeyword]
  cases (entry s e).keywordNext with
  | some n =>
      cases (entry s e).keywordPrev with
      | some y =>
          refine ⟨rfl, rfl, rfl, rfl, ?_, ?_, rfl, rfl⟩
          · simp only [messageLinks_keep, implies_true]
          · simp only [pair_keep, implies_true]
      | none =>
          refine ⟨rfl, rfl, rfl, rfl, ?_, ?_, bucketLinks_keep fun c => rfl, nameOf_keep fun c => rfl⟩
          · simp only [messageLinks_setKeyword, messageLinks_keep, implies_true]
          · simp only [pair_setKeyword, pair_keep, implies_true]
  | none =>
      cases (entry s e).keywordPrev with
      | some y =>
          refine ⟨rfl, rfl, rfl, rfl, ?_, ?_, bucketLinks_keep fun c => rfl, nameOf_keep fun c => rfl⟩
          · simp only [messageLinks_setKeyword, messageLinks_keep, implies_true]
          · simp only [pair_setKeyword, pair_keep, implies_true]
      | none =>
          refine ⟨rfl, rfl, rfl, rfl, rfl, rfl, ?_, ?_⟩
          · simp only [bucketLinks_keep, implies_true]
          · simp only [nameOf_keep, implies_true]

end UnlinkKeyword

/-! ## A new cell -/

section LinkNew
variable {s : State} {km : Nat} {ke : KeyPtr} {keLast : Option Nat}

/-- The state with the new cell of `libmail_kwmSet`, which is not on a list yet. -/
def newEntry (s : State) (km : Nat) (ke : KeyPtr) : State :=
  { s with
    entries := store s.entries s.entryBreak ⟨none, none, none, none, ke, km⟩
    entryBreak := s.entryBreak + 1 }

/-- `libmail_kwmSet` once the place of the new cell is known. -/
def linkNew (s : State) (km : Nat) (ke : KeyPtr) (keLast : Option Nat) : State :=
  linkKeyword (linkMessage (newEntry s km ke) km keLast s.entryBreak) ke s.entryBreak

theorem newEntry_messageLinks :
    messageLinks (newEntry s km ke) = store (messageLinks s) s.entryBreak (none, none) :=
  map_store _ _ _ _

theorem newEntry_keywordLinks :
    keywordLinks (newEntry s km ke) = store (keywordLinks s) s.entryBreak (none, none) :=
  map_store _ _ _ _

theorem newEntry_pair : pair (newEntry s km ke) = store (pair s) s.entryBreak (km, ke) :=
  map_store _ _ _ _

theorem prevOf_newEntry (h : keLast ≠ some s.entryBreak) :
    prevOf (newEntry s km ke) km keLast = prevOf s km keLast := by
  cases keLast with
  | none => rfl
  | some last =>
      have hne : last ≠ s.entryBreak := fun heq => h (congrArg some heq)
      simp only [prevOf, entry, newEntry, store_ne s.entries hne]

theorem linkNew_messageLinks (hlast : keLast ≠ some s.entryBreak)
    (hprev : prevOf s km keLast ≠ some s.entryBreak)
    (hne : ∀ q, prevOf s km keLast = some q → keLast ≠ some q) :
    messageLinks (linkNew s km ke keLast) =
      splice (messageLinks s) (prevOf s km keLast) keLast s.entryBreak := by
  rw [linkNew, linkKeyword_frame.2.2.2.2.1, linkMessage_links, newEntry_messageLinks, modify_store,
    prevOf_newEntry hlast]
  exact modifyAt_store_eq_splice hprev hlast hne

theorem linkNew_messageEnds (hlast : keLast ≠ some s.entryBreak) :
    messageEnds (linkNew s km ke keLast) =
      modify (messageEnds s) km (spliceEnds (prevOf s km keLast) keLast s.entryBreak) := by
  have hmessages : messageEnds (linkNew s km ke keLast) =
      messageEnds (linkMessage (newEntry s km ke) km keLast s.entryBreak) := by
    funext q
    rw [messageEnds, linkNew, linkKeyword_frame.1, messageEnds]
  rw [hmessages, linkMessage_ends, prevOf_newEntry hlast]
  rfl

theorem linkNew_pair :
    pair (linkNew s km ke keLast) = store (pair s) s.entryBreak (km, ke) := by
  rw [linkNew, linkKeyword_frame.2.2.2.2.2.1, linkMessage_frame.2.2.2.2.2, newEntry_pair]

theorem linkMessage_keyword (k : KeyPtr) :
    keyword (linkMessage (newEntry s km ke) km keLast s.entryBreak) k = keyword s k := by
  rw [keyword, linkMessage_frame.1, newEntry, keyword]

theorem linkNew_keywordLinks (hprev : (keyword s ke).lastMsg ≠ some s.entryBreak) :
    keywordLinks (linkNew s km ke keLast) =
      splice (keywordLinks s) (keyword s ke).lastMsg none s.entryBreak := by
  rw [linkNew, linkKeyword_links, linkMessage_frame.2.2.2.2.1, newEntry_keywordLinks, modify_store,
    linkMessage_keyword]
  exact modifyAt_store_eq_splice hprev nofun nofun

theorem linkNew_keywordEnds :
    keywordEnds (linkNew s km ke keLast) =
      modify (keywordEnds s) ke (spliceEnds (keyword s ke).lastMsg none s.entryBreak) := by
  rw [linkNew, linkKeyword_ends, linkMessage_keyword]
  refine congrArg (modify · ke _) (funext fun k => ?_)
  rw [keywordEnds, linkMessage_frame.1, newEntry, keywordEnds]

theorem linkNew_frame :
    bucketLinks (linkNew s km ke keLast) = bucketLinks s ∧
    nameOf (linkNew s km ke keLast) = nameOf s ∧
    (linkNew s km ke keLast).keywordBreak = s.keywordBreak ∧
    (linkNew s km ke keLast).messageBreak = s.messageBreak ∧
    (linkNew s km ke keLast).entryBreak = s.entryBreak + 1 := by
  obtain ⟨-, hkb, heb, hmb, -, -, hbucket, hname⟩ :=
    @linkKeyword_frame (linkMessage (newEntry s km ke) km keLast s.entryBreak) ke s.entryBreak
  obtain ⟨hkeywords, hkb', heb', hmb', -, -⟩ :=
    @linkMessage_frame (newEntry s km ke) km s.entryBreak keLast
  refine ⟨hbucket.trans (funext fun k => ?_), hname.trans (funext fun k => ?_), hkb.trans hkb',
    hmb.trans hmb', heb.trans heb'⟩
  · rw [bucketLinks, hkeywords, newEntry, bucketLinks]
  · rw [nameOf, hkeywords, newEntry, nameOf]

end LinkNew

/-! ## A cell that goes -/

section Unlinked
variable {s : State} {e km : Nat} {k : KeyPtr} {next prev keywordNext keywordPrev : Option Nat}

/-- `libmail_kwmClearEntry` apart from its keyword. -/
def unlinked (s : State) (e : Nat) : State :=
  let u := unlinkKeyword (unlinkMessage s e) e
  { u with entries := free u.entries e }

theorem kweClear_entries (s : State) (k : KeyPtr) (entries : Nat → Option MessageEntry) :
    { kweClear s k with entries := entries } = kweClear { s with entries := entries } k := by
  rw [kweClear, kweClear, show keyword { s with entries := entries } k = keyword s k from rfl]
  split
  · cases (keyword s k).prev with
    | none => cases (keyword s k).next <;> rfl
    | some y => cases (keyword s k).next <;> rfl
  · rfl

theorem kwmClearEntry_eq (s : State) (e : Nat) :
    kwmClearEntry s e = kweClear (unlinked s e) (entry s e).keywordEntry := by
  rw [unlinked, ← kweClear_entries, kwmClearEntry]
  congr 2
  rw [kweClear]
  split
  · cases (keyword (unlinkKeyword (unlinkMessage s e) e) (entry s e).keywordEntry).prev with
    | none => cases (keyword (unlinkKeyword (unlinkMessage s e) e) (entry s e).keywordEntry).next <;> rfl
    | some y =>
        cases (keyword (unlinkKeyword (unlinkMessage s e) e) (entry s e).keywordEntry).next <;> rfl
  · rfl

theorem unlinked_messageLinks (he : messageLinks s e = some (next, prev))
    (hne : ∀ q, prev = some q → next ≠ some q) :
    messageLinks (unlinked s e) = free (cut (messageLinks s) prev next) e := by
  obtain ⟨hnext, hprev⟩ := entry_of_messageLinks he
  refine (map_free _ e _).trans (congrArg (free · e) ?_)
  refine (@unlinkKeyword_frame (unlinkMessage s e) e).2.2.2.2.1.trans ?_
  rw [unlinkMessage_links, hnext, hprev]
  exact modifyAt_eq_cut hne

theorem unlinked_messageEnds (he : messageLinks s e = some (next, prev))
    (hpair : pair s e = some (km, k)) :
    messageEnds (unlinked s e) = modify (messageEnds s) km (cutEnds prev next) := by
  obtain ⟨hnext, hprev⟩ := entry_of_messageLinks he
  have hmessages : messageEnds (unlinked s e) = messageEnds (unlinkMessage s e) := by
    funext q
    change messageEnds (unlinkKeyword (unlinkMessage s e) e) q = _
    rw [messageEnds, unlinkKeyword_frame.1, messageEnds]
  rw [hmessages, unlinkMessage_ends, hnext, hprev, (entry_of_pair hpair).1]

theorem unlinked_keywordLinks (he : keywordLinks s e = some (keywordNext, keywordPrev))
    (hne : ∀ q, keywordPrev = some q → keywordNext ≠ some q) :
    keywordLinks (unlinked s e) = free (cut (keywordLinks s) keywordPrev keywordNext) e := by
  have hlinks := (@unlinkMessage_frame s e).2.2.2.2.1
  obtain ⟨hnext, hprev⟩ := entry_of_keywordLinks ((congrFun hlinks e).trans he)
  refine (map_free _ e _).trans (congrArg (free · e) ?_)
  change keywordLinks (unlinkKeyword (unlinkMessage s e) e) = _
  rw [unlinkKeyword_links, hnext, hprev, hlinks]
  exact modifyAt_eq_cut hne

theorem unlinked_keywordEnds (he : keywordLinks s e = some (keywordNext, keywordPrev))
    (hpair : pair s e = some (km, k)) :
    keywordEnds (unlinked s e) = modify (keywordEnds s) k (cutEnds keywordPrev keywordNext) := by
  obtain ⟨hkeywords, -, -, -, hlinks, hpairs⟩ := @unlinkMessage_frame s e
  obtain ⟨hnext, hprev⟩ := entry_of_keywordLinks ((congrFun hlinks e).trans he)
  have hkey := (entry_of_pair ((congrFun hpairs e).trans hpair)).2
  change keywordEnds (unlinkKeyword (unlinkMessage s e) e) = _
  rw [unlinkKeyword_ends, hnext, hprev, hkey]
  refine congrArg (modify · k _) (funext fun j => ?_)
  rw [keywordEnds, hkeywords, keywordEnds]

theorem unlinked_pair : pair (unlinked s e) = free (pair s) e := by
  refine (map_free _ e _).trans (congrArg (free · e) ?_)
  exact (@unlinkKeyword_frame (unlinkMessage s e) e).2.2.2.2.2.1.trans unlinkMessage_frame.2.2.2.2.2

theorem unlinked_frame :
    bucketLinks (unlinked s e) = bucketLinks s ∧ nameOf (unlinked s e) = nameOf s ∧
    (unlinked s e).keywordBreak = s.keywordBreak ∧ (unlinked s e).messageBreak = s.messageBreak ∧
    (unlinked s e).entryBreak = s.entryBreak := by
  obtain ⟨-, hkb, heb, hmb, -, -, hbucket, hname⟩ := @unlinkKeyword_frame (unlinkMessage s e) e
  obtain ⟨hkeywords, hkb', heb', hmb', -, -⟩ := @unlinkMessage_frame s e
  refine ⟨hbucket.trans (funext fun j => ?_), hname.trans (funext fun j => ?_), hkb.trans hkb',
    hmb.trans hmb', heb.trans heb'⟩
  · rw [bucketLinks, hkeywords, bucketLinks]
  · rw [nameOf, hkeywords, nameOf]

end Unlinked

/-! ## The buckets -/

section NewKeyword
variable {s : State} {name : List UInt8} {e : KeyPtr}

theorem newKeyword_bucketLinks :
    bucketLinks (newKeyword s name e).2 =
      modifyAt (modifyAt (store (bucketLinks s) (.entry s.keywordBreak)
        (some e, (keyword s e).prev)) (some e) fun r => (r.1, some (.entry s.keywordBreak)))
        (keyword s e).prev fun r => (some (.entry s.keywordBreak), r.2) := by
  have hstore := map_store s.keywords (.entry s.keywordBreak)
    ⟨(keyword s e).prev, some e, name, 0, none, none⟩ fun c => (c.next, c.prev)
  simp only [newKeyword]
  cases hprev : (keyword s e).prev with
  | some y =>
      rw [hprev] at hstore
      change bucketLinks (setKeyword _ y _) = _
      rw [bucketLinks_setKeyword (r := fun r => (some (.entry s.keywordBreak), r.2)) fun c => rfl,
        bucketLinks_setKeyword (r := fun r => (r.1, some (.entry s.keywordBreak))) fun c => rfl]
      exact congrArg (fun l => modify (modify l _ _) _ _) hstore
  | none =>
      rw [hprev] at hstore
      change bucketLinks (setKeyword _ e _) = _
      rw [bucketLinks_setKeyword (r := fun r => (r.1, some (.entry s.keywordBreak))) fun c => rfl]
      exact congrArg (fun l => modify l _ _) hstore

theorem newKeyword_frame :
    (newKeyword s name e).1 = .entry s.keywordBreak ∧
    (newKeyword s name e).2.entries = s.entries ∧
    (newKeyword s name e).2.messages = s.messages ∧
    (newKeyword s name e).2.keywordBreak = s.keywordBreak + 1 ∧
    (newKeyword s name e).2.entryBreak = s.entryBreak ∧
    (newKeyword s name e).2.messageBreak = s.messageBreak ∧
    keywordEnds (newKeyword s name e).2 =
      store (keywordEnds s) (.entry s.keywordBreak) (none, none) ∧
    nameOf (newKeyword s name e).2 = store (nameOf s) (.entry s.keywordBreak) name := by
  have hends := map_store s.keywords (.entry s.keywordBreak)
    ⟨(keyword s e).prev, some e, name, 0, none, none⟩ fun c => (c.firstMsg, c.lastMsg)
  have hname := map_store s.keywords (.entry s.keywordBreak)
    ⟨(keyword s e).prev, some e, name, 0, none, none⟩ fun c => c.name
  simp only [newKeyword]
  cases hprev : (keyword s e).prev with
  | some y =>
      rw [hprev] at hends hname
      refine ⟨rfl, rfl, rfl, rfl, rfl, rfl, ?_, ?_⟩
      · simp only [keywordEnds_keep, implies_true]
        exact hends
      · simp only [nameOf_keep, implies_true]
        exact hname
  | none =>
      rw [hprev] at hends hname
      refine ⟨rfl, rfl, rfl, rfl, rfl, rfl, ?_, ?_⟩
      · simp only [keywordEnds_keep, implies_true]
        exact hends
      · simp only [nameOf_keep, implies_true]
        exact hname

end NewKeyword

section KweClear
variable {s : State} {kw : KeyPtr}

theorem kweClear_of_used (h : keywordEnds s kw ≠ some (none, none)) (hlive : (keywordEnds s kw).isSome) :
    kweClear s kw = s := by
  obtain ⟨ends, hends⟩ := Option.isSome_iff_exists.mp hlive
  obtain ⟨hfirst, hlast⟩ := keyword_of_ends hends
  rw [kweClear, hfirst, hlast, if_neg]
  intro hnone
  rw [Bool.and_eq_true, Option.isNone_iff_eq_none, Option.isNone_iff_eq_none] at hnone
  exact h (hends.trans (congrArg some (Prod.ext hnone.1 hnone.2)))

theorem kweClear_bucketLinks (h : keywordEnds s kw = some (none, none)) :
    bucketLinks (kweClear s kw) =
      free (modifyAt (modifyAt (bucketLinks s) (keyword s kw).prev fun r => ((keyword s kw).next, r.2))
        (keyword s kw).next fun r => (r.1, (keyword s kw).prev)) kw := by
  obtain ⟨hfirst, hlast⟩ := keyword_of_ends h
  rw [kweClear, hfirst, hlast, if_pos (by rfl)]
  refine (map_free _ _ _).trans (congrArg (fun l => free l kw) ?_)
  cases (keyword s kw).prev with
  | some y =>
      cases (keyword s kw).next with
      | some n =>
          refine (bucketLinks_setKeyword (r := fun r => (r.1, some y)) fun c => rfl).trans ?_
          rw [bucketLinks_setKeyword (r := fun r => (some n, r.2)) fun c => rfl]
          rfl
      | none => exact bucketLinks_setKeyword fun c => rfl
  | none =>
      cases (keyword s kw).next with
      | some n => exact bucketLinks_setKeyword fun c => rfl
      | none => rfl

theorem kweClear_frame (h : keywordEnds s kw = some (none, none)) :
    (kweClear s kw).entries = s.entries ∧ (kweClear s kw).messages = s.messages ∧
    (kweClear s kw).keywordBreak = s.keywordBreak ∧ (kweClear s kw).entryBreak = s.entryBreak ∧
    (kweClear s kw).messageBreak = s.messageBreak ∧
    keywordEnds (kweClear s kw) = free (keywordEnds s) kw ∧
    nameOf (kweClear s kw) = free (nameOf s) kw := by
  obtain ⟨hfirst, hlast⟩ := keyword_of_ends h
  rw [kweClear, hfirst, hlast, if_pos (by rfl)]
  cases (keyword s kw).prev with
  | some y =>
      cases (keyword s kw).next with
      | some n =>
          refine ⟨rfl, rfl, rfl, rfl, rfl, (map_free _ _ _).trans (congrArg (free · kw) ?_),
            (map_free _ _ _).trans (congrArg (free · kw) ?_)⟩
          · change keywordEnds (setKeyword _ n _) = _
            simp only [keywordEnds_keep, implies_true]
            rfl
          · change nameOf (setKeyword _ n _) = _
            simp only [nameOf_keep, implies_true]
            rfl
      | none =>
          refine ⟨rfl, rfl, rfl, rfl, rfl, (map_free _ _ _).trans (congrArg (free · kw) ?_),
            (map_free _ _ _).trans (congrArg (free · kw) ?_)⟩
          · exact keywordEnds_keep fun c => rfl
          · exact nameOf_keep fun c => rfl
  | none =>
      cases (keyword s kw).next with
      | some n =>
          refine ⟨rfl, rfl, rfl, rfl, rfl, (map_free _ _ _).trans (congrArg (free · kw) ?_),
            (map_free _ _ _).trans (congrArg (free · kw) ?_)⟩
          · exact keywordEnds_keep fun c => rfl
          · exact nameOf_keep fun c => rfl
      | none => exact ⟨rfl, rfl, rfl, rfl, rfl, map_free _ _ _, map_free _ _ _⟩

end KweClear

end Cone.Maildirkeywords
