import Cone.NntpnewsrcMarks
import Cone.Lib.Words

/-! # A newsrc line written and read

`newsrc::operator string` of nntpnewsrc.C, and what the constructor reads from it. -/
set_option autoImplicit false
namespace Cone.Nntpnewsrc

open Cone.Ctype Cone.Lib.Decimal Cone.Lib.Ranges Cone.Lib.Words Cone.Linebreak Cone.UnicodeTablookup
open Cone.NntpnewsrcMarks

def printRange (r : Range) : List UInt8 :=
  decimal r.1 ++ if r.2 > r.1 then byte '-' :: decimal r.2 else []

def printRanges (sep : UInt8) : List Range → List UInt8
  | [] => []
  | r :: rs => sep :: printRange r ++ printRanges (byte ',') rs

/-- `newsrc::operator string` -/
def print (n : Newsrc) : List UInt8 :=
  n.newsgroupname ++ (if n.subscribed then byte ':' else byte '!') :: printRanges SP n.msglist.elems

structure Spaces (tab : Tables LbClass) : Prop where
  space : unicodeIsspace tab SP = true
  digit : ∀ c, isdigit c = true → unicodeIsspace tab c = false
  dash : unicodeIsspace tab (byte '-') = false
  colon : unicodeIsspace tab (byte ':') = false

structure Name (tab : Tables LbClass) (g : List UInt8) : Prop where
  ne_nil : g ≠ []
  head : g.head? ≠ some (byte '#')
  plain : ∀ c ∈ g, unicodeIsspace tab c = false ∧ c ≠ byte ':' ∧ c ≠ byte '!' ∧ c ≠ NL

section Ranges
variable {a b : Nat}

theorem dropWhile_isspace_digits {w : List UInt8} (hw : ∀ c ∈ w.head?, isdigit c = true) :
    w.dropWhile isspace = w := by
  cases w with
  | nil => rfl
  | cons c w =>
      have hc := (isdigit_facts c (hw c rfl)).1
      rw [List.dropWhile_cons_of_neg (by simp [hc])]

theorem head_decimal_append (n : Nat) (rest : List UInt8) :
    ∀ c ∈ (decimal n ++ rest).head?, isdigit c = true := by
  intro c hc
  obtain ⟨d, q, hdq⟩ := List.exists_cons_of_ne_nil (decimal_ne_nil n)
  rw [hdq] at hc
  cases hc
  exact isdigit_of_mem_decimal (by rw [hdq]; exact List.mem_cons_self)

theorem extractNum_decimal {n : Nat} (hn : n < msgnums) {rest : List UInt8}
    (hrest : ∀ c ∈ rest.head?, isdigit c = false) :
    extractNum ⟨decimal n ++ rest, true⟩ = (n, ⟨rest, decide (rest ≠ [])⟩) := by
  have hhead := head_decimal_append n rest
  have hdigits : ∀ c ∈ decimal n, isdigit c = true := fun c => isdigit_of_mem_decimal
  have hstore : storeNum false (decimal n ++ rest) = (n, ⟨rest, decide (rest ≠ [])⟩) := by
    rw [storeNum, takeWhile_append_stop hdigits hrest, dropWhile_append_stop hdigits hrest,
      if_neg (decimal_ne_nil n), readDigits_decimal n hrest, if_neg (Nat.not_le.mpr hn),
      if_neg (by decide), Nat.mod_eq_of_lt hn]
  obtain ⟨c, q, hcq⟩ := List.exists_cons_of_ne_nil (decimal_ne_nil n)
  obtain ⟨-, hminus, hplus⟩ := isdigit_facts c (hdigits c (by rw [hcq]; exact List.mem_cons_self))
  rw [extractNum, if_neg (by simp)]
  dsimp only
  rw [dropWhile_isspace_digits hhead]
  rw [hcq, List.cons_append] at hstore ⊢
  split
  · rename_i heq
    exact absurd (List.cons.inj heq).1 hminus
  · rename_i heq
    exact absurd (List.cons.inj heq).1 hplus
  · exact hstore

theorem readRange_printRange {r : Range} (hr : r.1 ≤ r.2) (hfits : r.2 < msgnums) :
    readRange (printRange r) = r := by
  have hfirst : r.1 < msgnums := by omega
  rw [readRange, printRange]
  by_cases hlt : r.2 > r.1
  · have hdash : ∀ c ∈ (byte '-' :: decimal r.2).head?, isdigit c = false := by
      intro c hc
      cases hc
      decide
    have hlast : extractNum ⟨decimal r.2 ++ [], true⟩ = (r.2, ⟨[], false⟩) :=
      extractNum_decimal hfits (by simp)
    rw [List.append_nil] at hlast
    rw [if_pos hlt, extractNum_decimal hfirst hdash]
    have hchar : extractChar ⟨byte '-' :: decimal r.2, decide (byte '-' :: decimal r.2 ≠ [])⟩ =
        (some 0x2d, ⟨decimal r.2, true⟩) := rfl
    dsimp only
    rw [hchar, hlast, if_pos ⟨rfl, hr⟩]
  · have hsame : r.2 = r.1 := by omega
    rw [if_neg hlt, extractNum_decimal hfirst (by simp)]
    dsimp only
    rw [if_neg]
    · exact Prod.ext rfl hsame.symm
    · intro h
      cases h.1

end Ranges

section Line
variable {tab : Tables LbClass} (grow : Nat → Nat)

theorem printRange_plain (spaces : Spaces tab) (r : Range) :
    ∀ c ∈ printRange r, isSeparator tab c = false := by
  have hdigit : ∀ c, isdigit c = true → isSeparator tab c = false := by
    intro c hc
    have hcomma : ∀ c, isdigit c = true → c ≠ 0x2c := forall_byte (by decide +kernel)
    rw [isSeparator, spaces.digit c hc, Bool.false_or, decide_eq_false (hcomma c hc)]
  intro c hc
  rw [printRange, List.mem_append] at hc
  obtain hc | hc := hc
  · exact hdigit c (isdigit_of_mem_decimal hc)
  · split at hc
    · obtain rfl | hc := List.mem_cons.mp hc
      · rw [isSeparator, spaces.dash]
        rfl
      · exact hdigit c (isdigit_of_mem_decimal hc)
    · cases hc

theorem ranges_word {w rest : List UInt8} (hw : ∀ c ∈ w, isSeparator tab c = false) (hne : w ≠ [])
    (hrest : ∀ c ∈ rest.head?, isSeparator tab c = true) (v : Msglist) :
    ranges tab grow (w ++ rest) v = ranges tab grow rest (addRange grow v w) := by
  obtain ⟨c, w', rfl⟩ := List.exists_cons_of_ne_nil hne
  have hc := hw c List.mem_cons_self
  have hdrop : (c :: w' ++ rest).dropWhile (isSeparator tab) = c :: (w' ++ rest) := by
    rw [List.cons_append, List.dropWhile_cons_of_neg (by rw [hc]; decide)]
  have hw' : ∀ d ∈ w', (!isSeparator tab d) = true := by
    intro d hd
    rw [hw d (List.mem_cons_of_mem _ hd)]
    rfl
  have hstop : ∀ d ∈ rest.head?, (!isSeparator tab d) = false := by
    intro d hd
    rw [hrest d hd]
    rfl
  rw [ranges]
  split
  · rename_i heq
    rw [hdrop] at heq
    cases heq
  · rename_i d ds heq
    rw [hdrop] at heq
    obtain ⟨rfl, rfl⟩ := List.cons.inj heq
    rw [dropWhile_append_stop hw' hstop, takeWhile_append_stop hw' hstop]

theorem ranges_separator {sep : UInt8} (hsep : isSeparator tab sep = true) (s : List UInt8)
    (v : Msglist) : ranges tab grow (sep :: s) v = ranges tab grow s v := by
  have hdrop := List.dropWhile_cons_of_pos hsep (l := s)
  rw [ranges, ranges.eq_def tab grow s v]
  dsimp only
  split
  · rename_i heq
    rw [hdrop] at heq
    rw [heq]
  · rename_i c cs heq
    rw [hdrop] at heq
    rw [heq]

theorem head_printRanges {sep : UInt8} (hsep : isSeparator tab sep = true) (rs : List Range) :
    ∀ c ∈ (printRanges sep rs).head?, isSeparator tab c = true := by
  cases rs with
  | nil =>
      intro c hc
      cases hc
  | cons r rs =>
      intro c hc
      cases hc
      exact hsep

theorem addRange_after {v : Msglist} {r : Range} (hr : 1 ≤ r.1 ∧ r.1 ≤ r.2 ∧ r.2 < msgnums)
    (hafter : ∀ s ∈ v.elems, s.2 + 1 < r.1) :
    (addRange grow v (printRange r)).elems = v.elems ++ [r] := by
  rw [addRange, readRange_printRange hr.2.1 hr.2.2, if_pos (show r.1 > 0 from hr.1)]
  cases hlast : v.elems.getLast? with
  | none => rfl
  | some ending =>
      have hgap := hafter ending (List.mem_of_getLast? hlast)
      dsimp only
      rw [Nat.mod_eq_of_lt (by omega), if_neg (by omega), if_neg (by omega)]
      rfl

theorem ranges_printRanges (spaces : Spaces tab) {sep : UInt8} (hsep : isSeparator tab sep = true)
    {rs : List Range} {v : Msglist} (wf : Wf (v.elems ++ rs)) :
    (ranges tab grow (printRanges sep rs) v).elems = v.elems ++ rs := by
  induction rs generalizing v sep with
  | nil =>
      rw [printRanges, ranges, List.append_nil]
      rfl
  | cons r rs ih =>
      have hcomma : isSeparator tab (byte ',') = true := by
        rw [isSeparator, Bool.or_eq_true]
        exact .inr rfl
      obtain ⟨hleft, hright, hgap⟩ := wf_append_iff.mp wf
      have hr := (wf_cons_iff.mp hright).1
      have hne : printRange r ≠ [] := fun h => decimal_ne_nil r.1 (List.append_eq_nil_iff.mp h).1
      have hadd := addRange_after grow hr fun s hs => hgap s hs r List.mem_cons_self
      have hwf : Wf ((addRange grow v (printRange r)).elems ++ rs) := by
        rw [hadd, List.append_assoc]
        exact wf
      rw [printRanges, List.cons_append, ranges_separator grow hsep,
        ranges_word grow (printRange_plain spaces r) hne (head_printRanges hcomma rs),
        ih hcomma hwf, hadd, List.append_assoc]
      rfl

theorem groupName_colon (n : Newsrc) (s g rest : List UInt8)
    (hg : ∀ c ∈ g, unicodeIsspace tab c = false ∧ c ≠ byte ':' ∧ c ≠ byte '!' ∧ c ≠ NL)
    (hcolon : unicodeIsspace tab (byte ':') = false) :
    groupName tab n s (g ++ byte ':' :: rest) =
      ({ n with newsgroupname := s.take (s.length - (rest.length + 1)) }, byte ':' :: rest) := by
  induction g with
  | nil =>
      rw [List.nil_append, groupName, hcolon, if_neg (by decide),
        if_pos (show byte ':' = 0x3a from rfl)]
  | cons c g ih =>
      obtain ⟨hspace, hc, hbang, -⟩ := hg c List.mem_cons_self
      rw [List.cons_append, groupName, hspace, if_neg (by decide),
        if_neg (show c ≠ 0x3a from hc), if_neg (show c ≠ 0x21 from hbang)]
      exact ih fun d hd => hg d (List.mem_cons_of_mem _ hd)

/-- What is written for a subscribed group is read again. -/
theorem parse_print (spaces : Spaces tab) {n : Newsrc} (name : Name tab n.newsgroupname)
    (hsub : n.subscribed = true) (wf : Wf n.msglist.elems) :
    (parse tab grow (print n)).newsgroupname = n.newsgroupname ∧
      (parse tab grow (print n)).subscribed = true ∧
      (parse tab grow (print n)).msglist.elems = n.msglist.elems := by
  have hshape : print n = n.newsgroupname ++ byte ':' :: printRanges SP n.msglist.elems := by
    rw [print, hsub]
    rfl
  have hspace : isSeparator tab SP = true := by rw [isSeparator, spaces.space, Bool.true_or]
  have hcolon : ∀ c ∈ [byte ':'], isSeparator tab c = false := by
    intro c hc
    rw [List.mem_singleton.mp hc, isSeparator, spaces.colon]
    rfl
  have hname : (print n).take ((print n).length - ((printRanges SP n.msglist.elems).length + 1)) =
      n.newsgroupname := by
    rw [hshape, List.length_append, List.length_cons, Nat.add_sub_cancel, List.take_left]
  have hnot : ¬(print n = [] ∨ (print n).head? = some 0x23) := by
    obtain ⟨c, g, hcg⟩ := List.exists_cons_of_ne_nil name.ne_nil
    have hhead := name.head
    rw [hshape, hcg]
    rw [hcg] at hhead
    intro h
    obtain h | h := h
    · cases h
    · exact hhead h
  have hgroup := groupName_colon empty (print n) n.newsgroupname (printRanges SP n.msglist.elems)
    name.plain spaces.colon
  rw [← hshape, hname] at hgroup
  rw [parse, if_neg hnot, hgroup]
  refine ⟨rfl, rfl, ?_⟩
  have hword : byte ':' :: printRanges SP n.msglist.elems =
      [byte ':'] ++ printRanges SP n.msglist.elems := rfl
  have hskip : addRange grow empty.msglist [byte ':'] = empty.msglist := rfl
  dsimp only
  rw [hword, ranges_word grow hcolon (by decide) (head_printRanges hspace _), hskip]
  exact ranges_printRanges grow spaces hspace wf

end Line
end Cone.Nntpnewsrc
