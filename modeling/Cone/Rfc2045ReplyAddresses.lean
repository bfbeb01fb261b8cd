import Cone.Lib.Sift
import Cone.Rfc822Parseaddr

/-! # The addresses of a reply to all (`rfc2045/rfc2045reply.c`, `rfc822/rfc822.c`)

`mkreply` removes from the old To and Cc addresses one's own, those that the new To header has, and
repetitions.  The entries of group syntax, a group's name and the semicolon at its end, are among
the addresses, and `rfc822_getaddr` gives them all the empty text. -/
set_option autoImplicit false
namespace Cone.Rfc2045ReplyAddresses

open Cone.Ctype Cone.Rfc822Tokenize Cone.Rfc822Parseaddr Cone.Lib.Sift

/-! ## The text of an address -/

def isAtom (t : Token) : Bool := t.token = 0 || t.token = byte '"' || t.token = byte '('

def printQuoted : List UInt8 → List UInt8
  | [] => []
  | [c] => if c = byte '"' ∨ c = byte '\\' then [byte '\\', c] else [c]
  | c :: d :: cs =>
    if c = byte '\\' then c :: d :: printQuoted cs
    else if c = byte '"' then byte '\\' :: c :: printQuoted (d :: cs)
    else c :: printQuoted (d :: cs)

def printToken (t : Token) : List UInt8 :=
  if t.token = 0 ∨ t.token = byte '(' then t.text
  else if t.token ≠ byte '"' then [t.token]
  else byte '"' :: printQuoted t.text ++ [byte '"']

/-- The loop of `rfc822tok_print`. -/
def tokPrint : Bool → List Token → List UInt8
  | _, [] => []
  | prevIsatom, t :: ts =>
    (if prevIsatom && isAtom t then [byte ' '] else []) ++ printToken t ++ tokPrint (isAtom t) ts

def getaddr (a : Addr) : List UInt8 := if a.tokens = [] then [] else tokPrint false a.tokens

/-! ## The removal -/

def deladdr (addrs : List Addr) (index : Nat) : List Addr := addrs.eraseIdx index

/-- The loop that removes outright duplicates; each round deletes the `j`-th or goes on. -/
def dupLoop (addr : List UInt8) : Nat → Nat → List Addr → List Addr
  | 0, _, addrs => addrs
  | fuel + 1, j, addrs =>
    match addrs[j]? with
    | none => addrs
    | some a =>
      if addr = getaddr a then dupLoop addr fuel j (deladdr addrs j)
      else dupLoop addr fuel (j + 1) addrs

section Removal
variable (myaddrFunc : List UInt8 → Bool) (arfcto : List Addr)

def unwanted (addr : List UInt8) : Bool :=
  myaddrFunc addr || arfcto.any fun a => decide (addr = getaddr a)

def removeLoop : Nat → Nat → List Addr → List Addr
  | 0, _, arfccc => arfccc
  | fuel + 1, i, arfccc =>
    match arfccc[i]? with
    | none => arfccc
    | some a =>
      if unwanted myaddrFunc arfcto (getaddr a) then removeLoop fuel i (deladdr arfccc i)
      else removeLoop fuel (i + 1) (dupLoop (getaddr a) arfccc.length (i + 1) arfccc)

end Removal

/-- `rfc822t_alloc_new` and `rfc822a_alloc` -/
def addresses (text : List UInt8) : List Addr := (parseaddr true (tokenize text).tokens).addrs

def removeDuplicates (myaddrFunc : List UInt8 → Bool) (oldtocc : List UInt8)
    (oldfrom : Option (List UInt8)) : List Addr :=
  let arfccc := addresses oldtocc
  removeLoop myaddrFunc ((oldfrom.map addresses).getD []) arfccc.length 0 arfccc

/-! ## What is promised -/

section Claim
variable (myaddrFunc : List UInt8 → Bool) (arfcto : List Addr)

def IsMailbox (a : Addr) : Prop := a.tokens ≠ []

instance (a : Addr) : Decidable (IsMailbox a) := inferInstanceAs (Decidable (a.tokens ≠ []))

/-- A mailbox is to go if it is one's own, if the new To header has it, or if it repeats another. -/
def ToGo (before : List Addr) (a : Addr) : Prop :=
  IsMailbox a ∧ (myaddrFunc (getaddr a) ∨ (∃ t ∈ arfcto, getaddr t = getaddr a) ∨
    ∃ b ∈ before, IsMailbox b ∧ getaddr b = getaddr a)

instance (before : List Addr) (a : Addr) : Decidable (ToGo myaddrFunc arfcto before a) :=
  inferInstanceAs (Decidable (IsMailbox a ∧ (myaddrFunc (getaddr a) ∨
    (∃ t ∈ arfcto, getaddr t = getaddr a) ∨ ∃ b ∈ before, IsMailbox b ∧ getaddr b = getaddr a)))

def promised (myaddrFunc : List UInt8 → Bool) (oldtocc : List UInt8)
    (oldfrom : Option (List UInt8)) : List Addr :=
  sift (ToGo myaddrFunc ((oldfrom.map addresses).getD [])) [] (addresses oldtocc)

def GroupsApart (arfccc : List Addr) : Prop :=
  ∀ front g back, arfccc = front ++ g :: back → ¬ IsMailbox g →
    unwanted myaddrFunc arfcto [] = false ∧ ∀ a ∈ front ++ back, getaddr a ≠ []

end Claim

/-! ## What the loops do -/

section Loops
variable (myaddrFunc : List UInt8 → Bool) (arfcto : List Addr)

/-- Whom the loops remove: any entry whose text was there before is a duplicate. -/
def Goes (before : List Addr) (a : Addr) : Prop :=
  unwanted myaddrFunc arfcto (getaddr a) ∨ ∃ b ∈ before, getaddr b = getaddr a

instance (before : List Addr) (a : Addr) : Decidable (Goes myaddrFunc arfcto before a) :=
  inferInstanceAs (Decidable (unwanted myaddrFunc arfcto (getaddr a) ∨
    ∃ b ∈ before, getaddr b = getaddr a))

theorem split_at {i : Nat} {l : List Addr} {a : Addr} (here : l[i]? = some a) :
    l.drop i = a :: l.drop (i + 1) ∧ l.take (i + 1) = l.take i ++ [a] ∧
      deladdr l i = l.take i ++ l.drop (i + 1) ∧ i < l.length := by
  obtain ⟨within, rfl⟩ := List.getElem?_eq_some_iff.mp here
  exact ⟨List.drop_eq_getElem_cons within, List.take_succ_eq_append_getElem within,
    List.eraseIdx_eq_take_drop_succ l i, within⟩

theorem dupLoop_eq (addr : List UInt8) (fuel j : Nat) (l : List Addr)
    (enough : l.length ≤ j + fuel) :
    dupLoop addr fuel j l = l.take j ++ (l.drop j).filter fun a => decide (addr ≠ getaddr a) := by
  induction fuel generalizing j l with
  | zero =>
      rw [dupLoop, List.take_of_length_le (by omega), List.drop_of_length_le (by omega)]
      simp
  | succ fuel ih =>
      rw [dupLoop]
      cases here : l[j]? with
      | none =>
          have past := List.getElem?_eq_none_iff.mp here
          rw [List.take_of_length_le past, List.drop_of_length_le past]
          simp
      | some a =>
          obtain ⟨rest, upTo, without, within⟩ := split_at here
          have startLen : (l.take j).length = j := List.length_take_of_le (Nat.le_of_lt within)
          by_cases same : addr = getaddr a
          · have shorter : (deladdr l j).length ≤ j + fuel := by
              rw [without, List.length_append, startLen, List.length_drop]
              omega
            have later := ih j (deladdr l j) shorter
            simp only [if_pos same]
            rw [later, without, List.take_left' startLen, List.drop_left' startLen, rest,
              List.filter_cons_of_neg (by simpa using same)]
          · simp only [if_neg same]
            rw [ih (j + 1) l (by omega), upTo, rest, List.filter_cons_of_pos (by simpa using same),
              List.append_assoc, List.singleton_append]

variable {myaddrFunc arfcto}

/-- After a wanted address has its duplicates taken out nothing else changes. -/
theorem sift_goes_filter (before rest : List Addr) (a : Addr) :
    sift (Goes myaddrFunc arfcto) (before ++ [a])
        (rest.filter fun b => decide (getaddr a ≠ getaddr b)) =
      sift (Goes myaddrFunc arfcto) (before ++ [a]) rest := by
  apply sift_filter
  · intro after b same
    exact Or.inr ⟨a, by simp, by simpa using same⟩
  · intro after after' b c same
    have text : getaddr a = getaddr b := by simpa using same
    refine or_congr Iff.rfl ⟨?_, ?_⟩
    · rintro ⟨d, mem, eq⟩
      simp only [List.mem_append, List.mem_cons] at mem
      rcases mem with mem | mem | rfl | mem
      · exact ⟨d, by simp only [List.mem_append]; exact Or.inl (by simpa using mem), eq⟩
      · exact ⟨d, by simp [mem], eq⟩
      · exact ⟨a, by simp, text.trans eq⟩
      · exact ⟨d, by simp [mem], eq⟩
    · rintro ⟨d, mem, eq⟩
      refine ⟨d, ?_, eq⟩
      simp only [List.mem_append, List.mem_cons] at mem ⊢
      rcases mem with mem | mem | mem
      · exact Or.inl mem
      · exact Or.inr (Or.inl mem)
      · exact Or.inr (Or.inr (Or.inr mem))

theorem sift_goes_unwanted (before rest : List Addr) (a : Addr)
    (bad : unwanted myaddrFunc arfcto (getaddr a)) :
    sift (Goes myaddrFunc arfcto) (before ++ [a]) rest =
      sift (Goes myaddrFunc arfcto) before rest := by
  apply sift_congr
  intro after b
  constructor
  · rintro (gone | ⟨c, mem, eq⟩)
    · exact Or.inl gone
    · simp only [List.append_assoc, List.mem_append, List.mem_singleton] at mem
      rcases mem with mem | rfl | mem
      · exact Or.inr ⟨c, List.mem_append_left _ mem, eq⟩
      · rw [eq] at bad
        exact Or.inl bad
      · exact Or.inr ⟨c, List.mem_append_right _ mem, eq⟩
  · rintro (gone | ⟨c, mem, eq⟩)
    · exact Or.inl gone
    · refine Or.inr ⟨c, ?_, eq⟩
      simp only [List.append_assoc, List.mem_append] at mem ⊢
      rcases mem with mem | mem
      · exact Or.inl mem
      · exact Or.inr (Or.inr mem)

theorem removeLoop_eq (fuel i : Nat) (l : List Addr) (enough : l.length ≤ i + fuel)
    (kept : ∀ a ∈ l.drop i, ∀ b ∈ l.take i, getaddr b ≠ getaddr a) :
    removeLoop myaddrFunc arfcto fuel i l =
      l.take i ++ sift (Goes myaddrFunc arfcto) (l.take i) (l.drop i) := by
  induction fuel generalizing i l with
  | zero =>
      rw [removeLoop, List.take_of_length_le (by omega), List.drop_of_length_le (by omega), sift,
        List.append_nil]
  | succ fuel ih =>
      rw [removeLoop]
      cases here : l[i]? with
      | none =>
          have past := List.getElem?_eq_none_iff.mp here
          rw [List.take_of_length_le past, List.drop_of_length_le past, sift, List.append_nil]
      | some a =>
          obtain ⟨rest, upTo, without, within⟩ := split_at here
          have startLen : (l.take i).length = i := List.length_take_of_le (Nat.le_of_lt within)
          rw [rest] at kept
          by_cases bad : unwanted myaddrFunc arfcto (getaddr a)
          · have shorter : (deladdr l i).length ≤ i + fuel := by
              rw [without, List.length_append, startLen, List.length_drop]
              omega
            have later := ih i (deladdr l i) shorter
            rw [without, List.take_left' startLen, List.drop_left' startLen] at later
            simp only [if_pos bad]
            rw [without, later fun b mem => kept b (List.mem_cons_of_mem _ mem), rest,
              sift_of_goes _ (Or.inl bad), sift_goes_unwanted _ _ _ bad]
          · have nextLen : (l.take (i + 1)).length = i + 1 := List.length_take_of_le within
            have stays : ¬ Goes myaddrFunc arfcto (l.take i) a := by
              rintro (gone | ⟨b, mem, eq⟩)
              · exact bad gone
              · exact kept a (List.mem_cons_self) b mem eq
            have dups := dupLoop_eq (getaddr a) l.length (i + 1) l (by omega)
            have shorter : (dupLoop (getaddr a) l.length (i + 1) l).length ≤ i + 1 + fuel := by
              rw [dups, List.length_append, nextLen]
              have few := List.length_filter_le (fun b => decide (getaddr a ≠ getaddr b))
                (l.drop (i + 1))
              rw [List.length_drop] at few
              omega
            have later := ih (i + 1) _ shorter
            rw [dups, List.take_left' nextLen, List.drop_left' nextLen] at later
            simp only [if_neg bad]
            rw [dups, later ?_, upTo, sift_goes_filter, rest, sift_of_stays _ stays,
              List.append_assoc, List.singleton_append]
            intro b mem c mem'
            obtain ⟨mem, differs⟩ := List.mem_filter.mp mem
            rw [upTo, List.mem_append, List.mem_singleton] at mem'
            rcases mem' with mem' | rfl
            · exact kept b (List.mem_cons_of_mem _ mem) c mem'
            · simpa using differs

end Loops

/-! ## When both leave the same -/

section Main
variable (myaddrFunc : List UInt8 → Bool) (arfcto : List Addr)

theorem toGo_goes {before : List Addr} {a : Addr} (h : ToGo myaddrFunc arfcto before a) :
    Goes myaddrFunc arfcto before a := by
  obtain ⟨-, mine | ⟨t, mem, eq⟩ | ⟨b, mem, -, eq⟩⟩ := h
  · exact Or.inl (by simp [unwanted, mine])
  · refine Or.inl ?_
    rw [unwanted, Bool.or_eq_true, List.any_eq_true]
    exact Or.inr ⟨t, mem, by simp [eq]⟩
  · exact Or.inr ⟨b, mem, eq⟩

theorem getaddr_group {g : Addr} (group : ¬ IsMailbox g) : getaddr g = [] := by
  rw [getaddr, if_pos (not_not.mp group)]

theorem unwanted_iff (addr : List UInt8) :
    unwanted myaddrFunc arfcto addr ↔ myaddrFunc addr ∨ ∃ t ∈ arfcto, getaddr t = addr := by
  rw [unwanted, Bool.or_eq_true, List.any_eq_true]
  refine or_congr Iff.rfl (exists_congr fun t => and_congr Iff.rfl ?_)
  rw [decide_eq_true_iff]
  exact eq_comm

theorem goes_toGo_iff (arfccc : List Addr) :
    (∀ front a back, arfccc = front ++ a :: back →
      Goes myaddrFunc arfcto ([] ++ front) a → ToGo myaddrFunc arfcto ([] ++ front) a) ↔
      GroupsApart myaddrFunc arfcto arfccc := by
  simp only [List.nil_append]
  constructor
  · intro agree front g back split group
    have stays : ¬ Goes myaddrFunc arfcto front g :=
      fun goes => group (agree front g back split goes).1
    rw [Goes, getaddr_group group, not_or] at stays
    obtain ⟨wanted, first⟩ := stays
    refine ⟨by simpa using wanted, fun a mem => ?_⟩
    rcases List.mem_append.mp mem with mem | mem
    · exact fun empty => first ⟨a, mem, empty⟩
    -- The first entry behind the group with an empty text would go for the group's sake.
    · have each : ∀ back' rest, back = back' ++ rest → ∀ b ∈ back', getaddr b ≠ [] := by
        intro back'
        induction back' using List.reverseRecOn with
        | nil => exact fun _ _ b mem => absurd mem List.not_mem_nil
        | append_singleton back' b ih =>
            intro rest split'
            rw [List.append_assoc] at split'
            have earlier := ih _ split'
            intro c mem empty
            rcases List.mem_append.mp mem with mem | mem
            · exact earlier c mem empty
            · obtain rfl := List.mem_singleton.mp mem
              have goes : Goes myaddrFunc arfcto (front ++ g :: back') c :=
                Or.inr ⟨g, by simp, by rw [getaddr_group group, empty]⟩
              obtain ⟨-, mine | there | ⟨d, mem', mailbox, eq⟩⟩ :=
                agree (front ++ g :: back') c rest (by rw [split, split']; simp) goes
              · rw [empty] at mine
                exact wanted ((unwanted_iff _ _ _).mpr (Or.inl mine))
              · rw [empty] at there
                exact wanted ((unwanted_iff _ _ _).mpr (Or.inr there))
              · rw [empty] at eq
                rw [List.mem_append, List.mem_cons] at mem'
                rcases mem' with mem' | rfl | mem'
                · exact first ⟨d, mem', eq⟩
                · exact group mailbox
                · exact earlier d mem' eq
      exact each back [] (List.append_nil back).symm a mem
  · intro apart front a back split goes
    by_cases mailbox : IsMailbox a
    · refine ⟨mailbox, ?_⟩
      rcases goes with bad | ⟨b, mem, eq⟩
      · rcases (unwanted_iff _ _ _).mp bad with mine | there
        · exact Or.inl mine
        · exact Or.inr (Or.inl there)
      · by_cases mailbox' : IsMailbox b
        · exact Or.inr (Or.inr ⟨b, mem, mailbox', eq⟩)
        · obtain ⟨front', back', rfl⟩ := List.append_of_mem mem
          have alone := (apart front' b (back' ++ a :: back) (by rw [split]; simp) mailbox').2
          rw [getaddr_group mailbox'] at eq
          exact absurd eq.symm (alone a (by simp))
    · obtain ⟨wanted, alone⟩ := apart front a back split mailbox
      rw [Goes, getaddr_group mailbox, wanted] at goes
      rcases goes with bad | ⟨b, mem, eq⟩
      · cases bad
      · exact absurd eq (alone b (List.mem_append_left _ mem))

/-- What the loops leave is what was promised if and only if the groups share their empty text with
nothing that counts. -/
theorem removeDuplicates_iff (myaddrFunc : List UInt8 → Bool) (oldtocc : List UInt8)
    (oldfrom : Option (List UInt8)) :
    removeDuplicates myaddrFunc oldtocc oldfrom = promised myaddrFunc oldtocc oldfrom ↔
      GroupsApart myaddrFunc ((oldfrom.map addresses).getD []) (addresses oldtocc) := by
  have swept := @removeLoop_eq myaddrFunc ((oldfrom.map addresses).getD [])
    (addresses oldtocc).length 0 (addresses oldtocc) (by omega)
    fun a _ b mem => absurd mem (by simp)
  rw [List.take_zero, List.drop_zero, List.nil_append] at swept
  rw [removeDuplicates, promised, ← goes_toGo_iff, swept]
  exact sift_eq_iff (fun _ _ h => toGo_goes _ _ h) [] (addresses oldtocc)

/-- `friends: a@x, b@x;` -/
def friends : List UInt8 := "friends: a@x, b@x;".toList.map byte

/-- The semicolon goes for a repetition of the group's name. -/
theorem friends_unended :
    removeDuplicates (fun _ => false) friends none ≠ promised (fun _ => false) friends none := by
  decide +kernel

end Main

end Cone.Rfc2045ReplyAddresses
