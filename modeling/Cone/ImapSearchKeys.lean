import Cone.ImapSearchReads

/-! # The program of a command

The program that the grammar finds in a command of `mail::imap::searchMessages`: the keys of the
scope, and behind them the key of the criterion. -/
set_option autoImplicit false
namespace Cone.ImapSearch

open Cone.Ctype Cone.Lib.Decimal
open Cone.ImapBodystructure (Text upper)
open Cone.SearchMessages (Criteria Scope MessageInfo inScope)

/-! ## The program of a command -/

section Program
variable (p : SearchParams)

def scopeKeys : Option (List Key) :=
  match p.scope with
  | .search_all => some [.all]
  | .search_unmarked => some [.all, .not .flagged]
  | .search_marked => some [.all, .flagged]
  | .search_range =>
    if (0 < (p.rangeLo + 1) % 2 ^ 64 ∧ (p.rangeLo + 1) % 2 ^ 64 < 2 ^ 32) ∧
        0 < p.rangeHi ∧ p.rangeHi < 2 ^ 32 then
      some [.sequence ((p.rangeLo + 1) % 2 ^ 64) p.rangeHi]
    else none

def stringKey (field : Field) : Option Key :=
  if arguable p.param2 then some (.string ⟨field, [], p.charset, p.param2⟩) else none

def dateKey (key : DateKey) : Option Key := (readDateText p.param2).map (.date key)

def sizeKey (key : Nat → Key) : Option Key :=
  (readSize (c_str p.param2)).bind fun n => if n < 2 ^ 32 then some (key n) else none

/-- The key of the criterion, which `NOT` may precede. -/
def criterionKey : Option Key :=
  match p.criteria with
  | .replied => some .answered
  | .deleted => some .deleted
  | .draft => some .draft
  | .unread => some .seen
  | .from => stringKey p .from
  | .to => stringKey p .to
  | .cc => stringKey p .cc
  | .bcc => stringKey p .bcc
  | .subject => stringKey p .subject
  | .header => stringKey p .header
  | .body => stringKey p .body
  | .text => stringKey p .text
  | .before => dateKey p .before
  | .on => dateKey p .on
  | .since => dateKey p .since
  | .sentbefore => dateKey p .sentbefore
  | .senton => dateKey p .senton
  | .sentsince => dateKey p .sentsince
  | .larger => sizeKey p .larger
  | .smaller => sizeKey p .smaller

def negated (key : Key) : Key := if notFlag p then key.not else key

end Program

section Keys
variable {charset t t' : Text} {key : Option Key} (fuel : Nat)

theorem readKeys_more (h : readKey charset (t.length + 1) t = key.map fun k => (k, SP :: t')) :
    readKeys charset (fuel + 1) t = key.bind fun k => (readKeys charset fuel t').map (k :: ·) := by
  rw [readKeys, h]
  cases key with
  | none => rfl
  | some k => rfl

theorem readKeys_last (h : readKey charset (t.length + 1) t = key.map fun k => (k, [])) :
    readKeys charset (fuel + 1) t = key.map ([·]) := by
  rw [readKeys, h]
  cases key with
  | none => rfl
  | some k => rfl

theorem readKeys_word {w : Text} {k : Key} (hw : w.all isAtomChar = true)
    (hkey : keywords.lookup (upper w) = some (.plain k)) :
    readKeys charset (fuel + 1) (w ++ SP :: t) = (readKeys charset fuel t).map (k :: ·) := by
  have h : readKey charset ((w ++ SP :: t).length + 1) (w ++ SP :: t) =
      (some k).map fun k => (k, SP :: t) := readKey_plain charset _ (SP :: t) hw hkey (.inr rfl)
  exact readKeys_more fuel h

end Keys

section Command
variable {p : SearchParams} {w : Text} {key : Option Key}

theorem lookup_digit (c : UInt8) (w : Text) (hc : isdigit c = true) :
    keywords.lookup (upper (c :: w)) = none := by
  have hupper : ∀ c, isdigit c = true → (if byte 'a' ≤ c ∧ c ≤ byte 'z' then c - 32 else c) = c :=
    forall_byte (by decide +kernel)
  have hletters : ∀ kw ∈ keywords, kw.1.head?.all (!isdigit ·) = true := by decide
  rw [List.lookup_eq_none_iff]
  intro kw hkw
  have hletter := hletters kw hkw
  rw [bne_iff_ne]
  intro heq
  rw [← heq, upper, List.map_cons, hupper c hc] at hletter
  simp [hc] at hletter

theorem readKeys_last_negated (fuel : Nat) (hw : w ≠ []) (h : Read p.charset w key) :
    readKeys p.charset (fuel + 1) ((if notFlag p then str "NOT " else []) ++ w) =
      key.map fun k => [negated p k] := by
  have hlen : ∃ n, ((if notFlag p then str "NOT " else []) ++ w).length = n + 1 := by
    obtain ⟨c, w', rfl⟩ := List.exists_cons_of_ne_nil hw
    exact ⟨(if notFlag p then str "NOT " else []).length + w'.length, by
      rw [List.length_append, List.length_cons, Nat.add_assoc]⟩
  obtain ⟨n, hn⟩ := hlen
  have hread := read_negated p.charset n (notFlag p) h
  rw [show n + 2 = n + 1 + 1 from rfl, ← hn] at hread
  rw [readKeys_last fuel hread, Option.map_map]
  rfl

theorem readKeys_scope (fuel : Nat) (hw : w ≠ []) (h : Read p.charset w key) :
    readKeys p.charset (fuel + 3)
        (scopeCmd p ++ SP :: ((if notFlag p then str "NOT " else []) ++ w)) =
      (scopeKeys p).bind fun ks => key.map fun k => ks ++ [negated p k] := by
  have hlast : ∀ fuel, readKeys p.charset (fuel + 1) ((if notFlag p then str "NOT " else []) ++ w) =
      key.map fun k => [negated p k] := fun fuel => readKeys_last_negated fuel hw h
  rw [scopeCmd, scopeKeys]
  cases p.scope with
  | search_all =>
      dsimp only
      rw [readKeys_word (fuel + 2) (by decide) rfl, hlast, Option.map_map]
      rfl
  | search_marked =>
      have hsplit : str "ALL FLAGGED" ++ SP :: ((if notFlag p then str "NOT " else []) ++ w) =
          str "ALL" ++ SP :: (str "FLAGGED" ++
            SP :: ((if notFlag p then str "NOT " else []) ++ w)) := rfl
      dsimp only
      rw [hsplit, readKeys_word (fuel + 2) (by decide) rfl, readKeys_word (fuel + 1) (by decide) rfl,
        hlast, Option.map_map, Option.map_map]
      rfl
  | search_unmarked =>
      have hsplit : str "ALL NOT FLAGGED" ++ SP :: ((if notFlag p then str "NOT " else []) ++ w) =
          str "ALL" ++ SP :: (str "NOT" ++ SP :: (str "FLAGGED" ++
            SP :: ((if notFlag p then str "NOT " else []) ++ w))) := rfl
      dsimp only
      rw [hsplit, readKeys_word (fuel + 2) (by decide) rfl]
      have hnot : ∀ rest, readKey p.charset
          ((str "NOT" ++ SP :: (str "FLAGGED" ++ SP :: rest)).length + 1)
          (str "NOT" ++ SP :: (str "FLAGGED" ++ SP :: rest)) =
            (some (Key.flagged.not)).map fun k => (k, SP :: rest) := by
        intro rest
        rw [readKey_not, List.length_append, List.length_cons, ← Nat.add_assoc,
          readKey_plain _ _ (SP :: rest) (by decide) rfl (.inr rfl)]
        rfl
      rw [readKeys_more (fuel + 1) (hnot _), Option.bind_some, hlast, Option.map_map, Option.map_map]
      rfl
  | search_range =>
      dsimp only
      have hword : (decimal ((p.rangeLo + 1) % 2 ^ 64) ++ byte ':' :: decimal p.rangeHi).all
          isAtomChar = true := by
        rw [List.all_eq_true]
        intro c hc
        rw [List.mem_append, List.mem_cons] at hc
        obtain hc | rfl | hc := hc
        · exact isAtomChar_digit c (isdigit_of_mem_decimal hc)
        · decide
        · exact isAtomChar_digit c (isdigit_of_mem_decimal hc)
      obtain ⟨c, w', hcw⟩ := List.exists_cons_of_ne_nil (decimal_ne_nil ((p.rangeLo + 1) % 2 ^ 64))
      have hlookup : keywords.lookup (upper (decimal ((p.rangeLo + 1) % 2 ^ 64) ++
          byte ':' :: decimal p.rangeHi)) = none := by
        rw [hcw]
        exact lookup_digit c _ (isdigit_of_mem_decimal (by rw [hcw]; exact List.mem_cons_self))
      have hread : ∀ rest, readKey p.charset
          ((decimal ((p.rangeLo + 1) % 2 ^ 64) ++ byte ':' :: decimal p.rangeHi ++
            SP :: rest).length + 1)
          (decimal ((p.rangeLo + 1) % 2 ^ 64) ++ byte ':' :: decimal p.rangeHi ++ SP :: rest) =
            (if (0 < (p.rangeLo + 1) % 2 ^ 64 ∧ (p.rangeLo + 1) % 2 ^ 64 < 2 ^ 32) ∧
                0 < p.rangeHi ∧ p.rangeHi < 2 ^ 32 then
              some (Key.sequence ((p.rangeLo + 1) % 2 ^ 64) p.rangeHi) else none).map
                fun k => (k, SP :: rest) := by
        intro rest
        rw [readKey_sequence p.charset _ _ hword hlookup (.inr rfl), readSequence_range]
      rw [readKeys_more (fuel + 2) (hread _), hlast]
      by_cases h : (0 < (p.rangeLo + 1) % 2 ^ 64 ∧ (p.rangeLo + 1) % 2 ^ 64 < 2 ^ 32) ∧
          0 < p.rangeHi ∧ p.rangeHi < 2 ^ 32
      · rw [if_pos h, if_pos h, Option.bind_some, Option.bind_some, Option.map_map]
        rfl
      · rw [if_neg h, if_neg h]
        rfl

theorem scopeCmd_head (p : SearchParams) :
    ∃ c w, scopeCmd p = c :: w ∧ (c = byte 'A' ∨ isdigit c = true) := by
  rw [scopeCmd]
  cases p.scope with
  | search_all => exact ⟨byte 'A', str "LL", rfl, .inl rfl⟩
  | search_marked => exact ⟨byte 'A', str "LL FLAGGED", rfl, .inl rfl⟩
  | search_unmarked => exact ⟨byte 'A', str "LL NOT FLAGGED", rfl, .inl rfl⟩
  | search_range =>
      dsimp only
      obtain ⟨c, w, hcw⟩ := List.exists_cons_of_ne_nil (decimal_ne_nil ((p.rangeLo + 1) % 2 ^ 64))
      rw [hcw]
      exact ⟨c, w ++ byte ':' :: decimal p.rangeHi, rfl,
        .inr (isdigit_of_mem_decimal (by rw [hcw]; exact List.mem_cons_self))⟩

/-- A command without a charset does not look like one that has one. -/
theorem readWord_scopeCmd (rest : Text) :
    upper (readWord (scopeCmd p ++ rest)).1 ≠ str "CHARSET" := by
  have hhead : ∀ c, (c = byte 'A' ∨ isdigit c = true) → isAtomChar c = true ∧
      (if byte 'a' ≤ c ∧ c ≤ byte 'z' then c - 32 else c) ≠ byte 'C' :=
    forall_byte (by decide +kernel)
  obtain ⟨c, w, hcw, hc⟩ := scopeCmd_head p
  rw [hcw, List.cons_append, readWord, List.takeWhile_cons, if_pos (hhead c hc).1, upper,
    List.map_cons]
  intro heq
  exact (hhead c hc).2 (List.cons.inj heq).1

theorem readProgram_command (hw : w ≠ []) (h : Read p.charset w key) :
    readProgram (charsetCmd p ++
        (scopeCmd p ++ SP :: ((if notFlag p then str "NOT " else []) ++ w))) =
      if quotable p.charset then
        (scopeKeys p).bind fun ks => key.map fun k => ks ++ [negated p k]
      else none := by
  obtain ⟨body, hbody⟩ : ∃ body, body =
      scopeCmd p ++ SP :: ((if notFlag p then str "NOT " else []) ++ w) := ⟨_, rfl⟩
  have hlen : 3 ≤ body.length + 1 := by
    obtain ⟨c, w', hcw, -⟩ := scopeCmd_head p
    rw [hbody, hcw, List.length_append, List.length_cons, List.length_cons]
    omega
  obtain ⟨fuel, hfuel⟩ := Nat.exists_eq_add_of_le' hlen
  have hkeys : readKeys p.charset (body.length + 1) body =
      (scopeKeys p).bind fun ks => key.map fun k => ks ++ [negated p k] := by
    rw [hfuel, hbody]
    exact readKeys_scope fuel hw h
  rw [← hbody, charsetCmd]
  by_cases hcharset : p.charset = []
  · have hnone : upper (readWord body).1 ≠ str "CHARSET" := by
      rw [hbody]
      exact readWord_scopeCmd _
    rw [hcharset, if_neg (by simp), List.nil_append, readProgram, if_neg hnone, if_pos (by decide)]
    rw [hcharset] at hkeys
    exact hkeys
  · rw [if_pos (List.length_pos_iff.mpr hcharset)]
    have hsplit : str "CHARSET " ++ quoteSimple p.charset ++ str " " ++ body =
        str "CHARSET" ++ SP :: (quoteSimple p.charset ++ SP :: body) := by
      rw [List.append_assoc, List.append_assoc]
      rfl
    rw [hsplit, readProgram, readWord_append (by decide) (.inr rfl)]
    dsimp only
    rw [if_pos (by decide), readSP, if_pos rfl, Option.bind_some, readAstring_quoteSimple]
    by_cases hq : quotable p.charset = true
    · rw [if_pos hq, if_pos hq, Option.bind_some]
      dsimp only
      rw [readSP, if_pos rfl, Option.bind_some]
      exact hkeys
    · rw [if_neg hq, if_neg hq]
      rfl

theorem cmd_append (t : Text) :
    charsetCmd p ++ scopeCmd p ++ notCmd p ++ SP :: t =
      charsetCmd p ++ (scopeCmd p ++ SP :: ((if notFlag p then str "NOT " else []) ++ t)) := by
  rw [notCmd, List.append_assoc, List.append_assoc]
  cases notFlag p with
  | true => rfl
  | false => rfl

def Says (p : SearchParams) (searchCmd : Text) (stringArg : Option Text) (key : Option Key) : Prop :=
  ∃ w, w ≠ [] ∧ Read p.charset w key ∧ sent searchCmd stringArg =
    charsetCmd p ++ (scopeCmd p ++ SP :: ((if notFlag p then str "NOT " else []) ++ w))

theorem says_flag {key : Key} (hw : w.all isAtomChar = true) (hne : w ≠ [])
    (hkey : keywords.lookup (upper w) = some (.plain key)) :
    Says p (charsetCmd p ++ scopeCmd p ++ notCmd p ++ SP :: w) none (some key) := by
  refine ⟨w, hne, read_plain _ hw hkey, ?_⟩
  rw [← cmd_append, sent]
  exact List.append_nil _

theorem says_argument (hread : Read p.charset (w ++ SP :: argument p.param2) key) :
    Says p (charsetCmd p ++ scopeCmd p ++ notCmd p ++ (SP :: (w ++ [SP]))) (some p.param2) key := by
  refine ⟨w ++ SP :: argument p.param2, by simp, hread, ?_⟩
  rw [← cmd_append, sent, List.append_assoc]
  simp

theorem says_size {n : Nat} (hread : Read p.charset (w ++ SP :: decimal n) key) :
    Says p (charsetCmd p ++ scopeCmd p ++ notCmd p ++ (SP :: (w ++ [SP])) ++ decimal n) none key := by
  refine ⟨w ++ SP :: decimal n, by simp, hread, ?_⟩
  rw [← cmd_append, sent, List.append_assoc]
  simp

theorem checkName_eq_true {fuel : Nat} {b : Text} (h : checkName fuel b = some true) : b = [] := by
  induction fuel with
  | zero => cases h
  | succ fuel ih =>
      cases b with
      | nil => rfl
      | cons c b =>
          rw [checkName] at h
          split at h
          · cases h
          · exact ih h

theorem says_install {fuel : Nat} {searchCmd : Text} {stringArg : Option Text}
    (h : searchMessages fuel true p = some (.install searchCmd stringArg)) :
    Says p searchCmd stringArg (criterionKey p) := by
  rw [searchMessages] at h
  dsimp only at h
  rw [if_neg (by decide)] at h
  rw [criterionKey]
  revert h
  cases p.criteria with
  | replied | deleted | draft | unread =>
      intro h
      cases h
      exact says_flag (by decide) (by decide) rfl
  | «from» =>
      intro h
      cases h
      exact says_argument (read_string p.charset (w := str "FROM") (by decide) rfl)
  | «to» =>
      intro h
      cases h
      exact says_argument (read_string p.charset (w := str "TO") (by decide) rfl)
  | cc =>
      intro h
      cases h
      exact says_argument (read_string p.charset (w := str "CC") (by decide) rfl)
  | bcc =>
      intro h
      cases h
      exact says_argument (read_string p.charset (w := str "BCC") (by decide) rfl)
  | subject =>
      intro h
      cases h
      exact says_argument (read_string p.charset (w := str "SUBJECT") (by decide) rfl)
  | body =>
      intro h
      cases h
      exact says_argument (read_string p.charset (w := str "BODY") (by decide) rfl)
  | text =>
      intro h
      cases h
      exact says_argument (read_string p.charset (w := str "TEXT") (by decide) rfl)
  | before =>
      intro h
      cases h
      exact says_argument (read_date p.charset (w := str "BEFORE") (by decide) rfl)
  | on =>
      intro h
      cases h
      exact says_argument (read_date p.charset (w := str "ON") (by decide) rfl)
  | since =>
      intro h
      cases h
      exact says_argument (read_date p.charset (w := str "SINCE") (by decide) rfl)
  | sentbefore =>
      intro h
      cases h
      exact says_argument (read_date p.charset (w := str "SENTBEFORE") (by decide) rfl)
  | senton =>
      intro h
      cases h
      exact says_argument (read_date p.charset (w := str "SENTON") (by decide) rfl)
  | sentsince =>
      intro h
      cases h
      exact says_argument (read_date p.charset (w := str "SENTSINCE") (by decide) rfl)
  | header =>
      dsimp only
      cases hname : checkName fuel p.param1 with
      | none =>
          intro h
          cases h
      | some ok =>
          cases ok with
          | false =>
              intro h
              cases h
          | true =>
              rw [checkName_eq_true hname]
              intro h
              cases h
              refine ⟨_, by simp, read_header p.charset p.param2, ?_⟩
              rw [← cmd_append, sent, List.append_assoc, List.append_assoc, List.append_assoc]
              rfl
  | larger =>
      dsimp only
      rw [sizeKey]
      cases readSize (c_str p.param2) with
      | none =>
          intro h
          cases h
      | some n =>
          intro h
          cases h
          exact says_size (read_larger p.charset n)
  | smaller =>
      dsimp only
      rw [sizeKey]
      cases readSize (c_str p.param2) with
      | none =>
          intro h
          cases h
      | some n =>
          intro h
          cases h
          exact says_size (read_smaller p.charset n)

theorem readProgram_sent {fuel : Nat} {searchCmd : Text} {stringArg : Option Text}
    (h : searchMessages fuel true p = some (.install searchCmd stringArg)) :
    readProgram (sent searchCmd stringArg) =
      if quotable p.charset then
        (scopeKeys p).bind fun ks => (criterionKey p).map fun k => ks ++ [negated p k]
      else none := by
  obtain ⟨w, hne, hread, hsent⟩ := says_install h
  rw [hsent]
  exact readProgram_command hne hread

end Command
end Cone.ImapSearch
