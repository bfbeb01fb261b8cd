import Cone.Rfc1035Reply

/-! # Uncompressing a name

`rfc1035_replyuncompress` reads one item of the wire format in a round.  It stays in the reply
exactly when the name fits it, and it gives a name exactly when the reply spells one of 255 bytes
with 100 pointers or fewer; the name buffer is never overrun. -/
set_option autoImplicit false
namespace Cone.Rfc1035Reply

open Cone.Ctype Cone.Lib.Checked Cone.Lib.WireNames

section Round
variable (b : List UInt8) {namebuf : Bool} {c : Cursor} {o : Nat}

theorem uncompressLoop_eq (namebuf : Bool) (c : Cursor) :
    uncompressLoop b namebuf c =
      uncompressStep b namebuf c >>= Sum.elim (uncompressLoop b namebuf) .value := by
  rw [uncompressLoop]
  split
  · next h => rw [h]; rfl
  · next h => rw [h]; rfl
  · next h => rw [h]; rfl
  · next h => rw [h]; rfl

theorem peek_reply (o : Nat) :
    peek b ⟨.reply, o⟩ = match b[o]? with
      | none => .fault .outside
      | some l => .value l := rfl

theorem eq_replyEnd_iff : (⟨.reply, o⟩ : Ptr) = replyEnd b ↔ o = b.length := by
  rw [replyEnd, Ptr.mk.injEq]
  exact and_iff_right rfl

def roundAt (namebuf : Bool) (c : Cursor) (o : Nat) :
    Item → Outcome Fault (Cursor ⊕ (List UInt8 × Ptr))
  | .missing => if o = b.length then .null else .fault .outside
  | .root => .value (.inr (c.name, c.caller.getD ⟨.reply, o + 1⟩))
  | .label l =>
    if grown c.i l ≤ RFC1035_MAXNAMESIZE then do
      let bytes ← labelBytes b namebuf ⟨.reply, o + 1⟩ l
      .value (.inl { c with
        ptr := ⟨.reply, o + 1 + l⟩, i := grown c.i l, name := c.dotted namebuf ++ bytes })
    else .null
  | .reserved => .null
  | .cut => .null
  | .pointer target =>
    if target < b.length ∧ c.cnt < 100 then
      let caller := c.caller.getD ⟨.reply, o + 2⟩
      .value (.inl { c with ptr := ⟨.reply, target⟩, caller := some caller, cnt := c.cnt + 1 })
    else .null

theorem bits_of_lt : ∀ l : UInt8, 63 < l → l < 0xC0 → l &&& 0xC0 ≠ 0xC0 :=
  forall_byte (by decide +kernel)

theorem bits_of_le : ∀ l : UInt8, 0xC0 ≤ l → l &&& 0xC0 = 0xC0 :=
  forall_byte (by decide +kernel)

theorem uncompressStep_eq (hptr : c.ptr = ⟨.reply, o⟩) (hi : c.i ≤ RFC1035_MAXNAMESIZE) :
    uncompressStep b namebuf c = roundAt b namebuf c o (item b o) := by
  unfold uncompressStep
  rw [hptr]
  by_cases hmissing : b.length ≤ o
  · rw [item_missing hmissing, roundAt]
    by_cases hend : o = b.length
    · rw [if_pos hend, if_pos ((eq_replyEnd_iff b).mpr hend)]
    · rw [if_neg hend, if_neg (mt (eq_replyEnd_iff b).mp hend), peek_reply,
        List.getElem?_eq_none hmissing]
      rfl
  have hlt : o < b.length := Nat.lt_of_not_le hmissing
  have hbyte := List.getElem?_eq_getElem hlt
  rw [if_neg (mt (eq_replyEnd_iff b).mp hlt.ne), peek_reply, hbyte, value_bind, item, hbyte]
  generalize b[o] = l
  dsimp only
  by_cases hzero : l = 0
  · rw [if_pos hzero, if_neg (by rw [hzero]; decide), if_pos hzero, store_of_le (by omega)]
    rfl
  rw [if_neg hzero, if_neg hzero]
  by_cases hle : l ≤ 63
  · rw [if_pos hle, if_neg (UInt8.not_lt.mpr hle), labelStep_eq, roundAt]
    dsimp only
    by_cases hroom : grown c.i l.toNat ≤ RFC1035_MAXNAMESIZE
    · rw [if_pos hroom, if_pos hroom]
      change _ = labelBytes b namebuf (Ptr.add ⟨.reply, o⟩ 1) l.toNat >>= _
      cases labelBytes b namebuf (Ptr.add ⟨.reply, o⟩ 1) l.toNat <;> rfl
    · rw [if_neg hroom, if_neg hroom]
      rfl
  rw [if_neg hle, if_pos (UInt8.not_le.mp hle), pointerStep]
  by_cases hreserved : l < 0xC0
  · rw [if_pos hreserved, if_pos (bits_of_lt l (UInt8.not_le.mp hle) hreserved)]
    rfl
  rw [if_neg hreserved, if_neg (not_not.mpr (bits_of_le l (UInt8.not_lt.mp hreserved)))]
  have hnext : Ptr.add ⟨.reply, o⟩ 1 = replyEnd b ↔ o + 1 = b.length := eq_replyEnd_iff b
  dsimp only
  by_cases hcut : b.length ≤ o + 1
  · rw [List.getElem?_eq_none hcut, if_pos (hnext.mpr (by omega))]
    rfl
  have hbyte' := List.getElem?_eq_getElem (Nat.lt_of_not_le hcut)
  have hpeek : peek b (Ptr.add ⟨.reply, o⟩ 1) = .value b[o + 1] := by
    rw [Ptr.add, peek_reply, hbyte']
  rw [if_neg (mt hnext.mp (by omega)), hbyte', roundAt, hpeek, value_bind]
  by_cases hinside : (l &&& 63).toNat * 2 ^ 8 + b[o + 1].toNat < b.length
  · rw [if_neg (by omega)]
    by_cases hfew : c.cnt < 100
    · rw [if_neg (by omega), if_pos ⟨hinside, hfew⟩]
      rfl
    · rw [if_pos (by omega), if_neg (fun h => hfew h.2)]
      rfl
  · rw [if_pos (by omega), if_neg (fun h => hinside h.1)]
    rfl

theorem copy_inside (n : Nat) {o : Nat} (h : o + n ≤ b.length) :
    copy b ⟨.reply, o⟩ n = .value ((b.drop o).take n) := by
  induction n generalizing o with
  | zero => rw [copy, List.take_zero]
  | succ n ih =>
      have hlt : o < b.length := by omega
      rw [copy, peek_reply, List.getElem?_eq_getElem hlt, value_bind, Ptr.add_mk, ih (by omega),
        value_bind, List.drop_eq_getElem_cons hlt, List.take_succ_cons]

theorem copy_outside (n : Nat) {o : Nat} (hn : 0 < n) (h : b.length < o + n) :
    ¬ Safe (copy b ⟨.reply, o⟩ n) := by
  induction n generalizing o with
  | zero => omega
  | succ n ih =>
      rw [copy, peek_reply]
      by_cases hlt : o < b.length
      · rw [List.getElem?_eq_getElem hlt, value_bind, Ptr.add_mk, safe_bind]
        intro hsafe
        exact ih (by omega) (by omega) hsafe.1
      · rw [List.getElem?_eq_none (Nat.le_of_not_lt hlt), fault_bind]
        exact not_safe_fault _

theorem lt_grown {l : Nat} (hl : 0 < l) (len : Nat) : len < grown len l := by
  rw [grown]
  split <;> omega

end Round

section Safety
variable {b : List UInt8} {namebuf : Bool}

theorem labelBytes_cases (b : List UInt8) (namebuf : Bool) (o : Nat) {l : Nat} (hl : 0 < l) :
    (∃ bytes, labelBytes b namebuf ⟨.reply, o⟩ l = .value bytes ∧
        (namebuf = true → bytes.length = l)) ∨
      (¬ Safe (labelBytes b namebuf ⟨.reply, o⟩ l) ∧ b.length < o + l) := by
  cases namebuf with
  | false => exact Or.inl ⟨[], rfl, nofun⟩
  | true =>
      by_cases hfits : o + l ≤ b.length
      · refine Or.inl ⟨_, copy_inside b l hfits, fun _ => ?_⟩
        rw [List.length_take, List.length_drop, Nat.min_eq_left (by omega)]
      · exact Or.inr ⟨copy_outside b l hl (by omega), by omega⟩

theorem safe_uncompressLoop {c : Cursor} {o : Nat} (hptr : c.ptr = ⟨.reply, o⟩)
    (hi : c.i ≤ RFC1035_MAXNAMESIZE) :
    Safe (uncompressLoop b namebuf c) ↔ FitsFrom b ⟨o, c.i, c.cnt⟩ := by
  induction hn : c.left using Nat.strong_induction_on generalizing c o with
  | _ n ih =>
    rw [uncompressLoop_eq, uncompressStep_eq b hptr hi]
    have hinside : item b o ≠ .missing → o ≤ b.length := by
      intro hne
      by_contra hlt
      exact hne (item_missing (by omega))
    cases hitem : item b o with
    | missing =>
        have hge : b.length ≤ o := by
          by_contra hlt
          exact item_ne_missing (Nat.lt_of_not_le hlt) hitem
        rw [fitsFrom_of_stop fun q => not_move_stuck (Or.inl hitem), roundAt]
        by_cases hend : o = b.length
        · rw [if_pos hend]
          exact iff_of_true safe_null hend.le
        · rw [if_neg hend]
          exact iff_of_false (not_safe_fault _) (by dsimp only; omega)
    | root =>
        rw [fitsFrom_of_stop fun q => not_move_root hitem, roundAt]
        exact iff_of_true (safe_value _) (hinside (by rw [hitem]; intro no; cases no))
    | reserved =>
        rw [fitsFrom_of_stop fun q => not_move_stuck (Or.inr (Or.inl hitem)), roundAt]
        exact iff_of_true safe_null (hinside (by rw [hitem]; intro no; cases no))
    | cut =>
        rw [fitsFrom_of_stop fun q => not_move_stuck (Or.inr (Or.inr hitem)), roundAt]
        exact iff_of_true safe_null (hinside (by rw [hitem]; intro no; cases no))
    | pointer target =>
        have hle := hinside (by rw [hitem]; intro no; cases no)
        rw [roundAt]
        by_cases hgoes : target < b.length ∧ c.cnt < 100
        · rw [if_pos hgoes, fitsFrom_of_move hle fun r =>
            (move_pointer (p := ⟨o, c.i, c.cnt⟩) hitem).trans (and_iff_right hgoes)]
          exact ih _ (by rw [← hn]; simp only [Cursor.left]; omega) rfl hi rfl
        · rw [if_neg hgoes, fitsFrom_of_stop fun q hq =>
            hgoes ((move_pointer (p := ⟨o, c.i, c.cnt⟩) hitem).mp hq).1]
          exact iff_of_true safe_null hle
    | label l =>
        have hle := hinside (by rw [hitem]; intro no; cases no)
        have hl := (item_label hitem).1
        rw [roundAt]
        by_cases hroom : grown c.i l ≤ RFC1035_MAXNAMESIZE
        · rw [if_pos hroom, fitsFrom_of_move hle fun r =>
            (move_label (p := ⟨o, c.i, c.cnt⟩) hitem).trans (and_iff_right hroom)]
          have hgrown := lt_grown hl c.i
          rcases labelBytes_cases b namebuf (o + 1) hl with
            ⟨bytes, hbytes, -⟩ | ⟨hfault, hpast⟩
          · rw [hbytes]
            exact ih _ (by rw [← hn]; simp only [Cursor.left]; omega) rfl hroom rfl
          · apply iff_of_false
            · intro hsafe
              exact hfault (safe_bind.mp (safe_bind.mp hsafe).1).1
            · intro hwalk
              have hle' : o + 1 + l ≤ b.length := hwalk _ .refl
              omega
        · rw [if_neg hroom, fitsFrom_of_stop fun q hq =>
            hroom ((move_label (p := ⟨o, c.i, c.cnt⟩) hitem).mp hq).1]
          exact iff_of_true safe_null hle

end Safety

section Value
variable {b : List UInt8} {namebuf : Bool}

def Result (b : List UInt8) (namebuf : Bool) (c : Cursor) (o : Nat) (name : List UInt8) (p : Ptr) :
    Prop :=
  ∃ ls k e, Spells b o ls k ∧ Ends b o e ∧ c.cnt + k ≤ 100 ∧
    dottedLen c.i ls ≤ RFC1035_MAXNAMESIZE ∧
    name = (if namebuf then dotted c.name ls else c.name) ∧ p = c.caller.getD ⟨.reply, e⟩

theorem result_stuck {c : Cursor} {o : Nat} {name : List UInt8} {p : Ptr}
    (h : Stuck (item b o)) : ¬ Result b namebuf c o name p := by
  intro ⟨ls, k, e, hs, _⟩
  exact not_spells h hs

theorem result_root {c : Cursor} {o : Nat} {name : List UInt8} {p : Ptr}
    (h : item b o = .root) (hi : c.i ≤ RFC1035_MAXNAMESIZE) (hcnt : c.cnt ≤ 100) :
    Result b namebuf c o name p ↔ name = c.name ∧ p = c.caller.getD ⟨.reply, o + 1⟩ := by
  constructor
  · intro ⟨ls, k, e, hs, he, _, _, hname, hp⟩
    obtain ⟨rfl, rfl⟩ := (spells_root h).mp hs
    obtain rfl := (ends_root h).mp he
    refine ⟨?_, hp⟩
    rw [hname, dotted_nil, ite_self]
  · intro ⟨hname, hp⟩
    refine ⟨[], 0, o + 1, .root h, .root h, hcnt, hi, ?_, hp⟩
    rw [hname, dotted_nil, ite_self]

theorem result_pointer {c : Cursor} {o target : Nat} {name : List UInt8} {p : Ptr}
    (h : item b o = .pointer target) :
    Result b namebuf c o name p ↔ c.cnt < 100 ∧
      Result b namebuf { c with
        ptr := ⟨.reply, target⟩, caller := some (c.caller.getD ⟨.reply, o + 2⟩),
        cnt := c.cnt + 1 } target name p := by
  constructor
  · intro ⟨ls, k, e, hs, he, hcnt, hlen, hname, hp⟩
    obtain ⟨k', rfl, hs'⟩ := (spells_pointer h).mp hs
    obtain rfl := (ends_pointer h).mp he
    obtain ⟨e', he'⟩ := hs'.ends
    exact ⟨by omega, ls, k', e', hs', he', by dsimp only; omega, hlen, hname, hp⟩
  · intro ⟨_, ls, k, e, hs, he, hcnt, hlen, hname, hp⟩
    exact ⟨ls, k + 1, o + 2, .pointer h hs, .pointer h, by dsimp only at hcnt; omega, hlen, hname, hp⟩

theorem dotted_true {c : Cursor} (hname : c.name.length = c.i) :
    c.dotted true = if c.name = [] then c.name else c.name ++ [byte '.'] := by
  rw [Cursor.dotted, ← hname]
  by_cases hnil : c.name = []
  · rw [if_pos hnil, if_neg (by simp [hnil])]
  · rw [if_neg hnil, if_pos ⟨by simpa using hnil, rfl⟩]

theorem result_label {c : Cursor} {o l : Nat} {bytes name : List UInt8} {p : Ptr}
    (h : item b o = .label l) (hname : namebuf = true → c.name.length = c.i)
    (hbytes : labelBytes b namebuf ⟨.reply, o + 1⟩ l = .value bytes) :
    Result b namebuf c o name p ↔
      Result b namebuf { c with
        ptr := ⟨.reply, o + 1 + l⟩, i := grown c.i l, name := c.dotted namebuf ++ bytes }
        (o + 1 + l) name p := by
  have hsame : ∀ {rest k}, Spells b (o + 1 + l) rest k →
      (if namebuf then dotted (c.dotted namebuf ++ bytes) rest else c.dotted namebuf ++ bytes) =
        (if namebuf then dotted c.name ((b.drop (o + 1)).take l :: rest) else c.name) := by
    intro rest k hs
    cases namebuf with
    | false =>
        cases hbytes
        simp [Cursor.dotted]
    | true =>
        have hcopy := copy_inside b l (Nat.le_of_lt hs.lt_length)
        cases hcopy.symm.trans hbytes
        rw [dotted_true (hname rfl), if_pos rfl, if_pos rfl, dotted_cons]
  have hlen : ∀ {rest k}, Spells b (o + 1 + l) rest k →
      dottedLen c.i ((b.drop (o + 1)).take l :: rest) = dottedLen (grown c.i l) rest := by
    intro rest k hs
    have hlt := hs.lt_length
    rw [dottedLen_cons, List.length_take, List.length_drop, Nat.min_eq_left (by omega)]
  constructor
  · intro ⟨ls, k, e, hs, he, hcnt, hroom, hres, hp⟩
    obtain ⟨rest, rfl, hs'⟩ := (spells_label h).mp hs
    exact ⟨rest, k, e, hs', (ends_label h).mp he, hcnt, (hlen hs').symm.trans_le hroom,
      hres.trans (hsame hs').symm, hp⟩
  · intro ⟨rest, k, e, hs, he, hcnt, hroom, hres, hp⟩
    exact ⟨_, k, e, .label h hs, .label h he, hcnt, (hlen hs).trans_le hroom,
      hres.trans (hsame hs), hp⟩

theorem not_result_full {c : Cursor} {o l : Nat} {name : List UInt8} {p : Ptr}
    (h : item b o = .label l) (hfull : ¬ grown c.i l ≤ RFC1035_MAXNAMESIZE) :
    ¬ Result b namebuf c o name p := by
  intro ⟨ls, k, e, hs, _, _, hroom, _⟩
  obtain ⟨rest, rfl, hs'⟩ := (spells_label h).mp hs
  have hlt := hs'.lt_length
  rw [dottedLen_cons, List.length_take, List.length_drop, Nat.min_eq_left (by omega)] at hroom
  exact hfull (Nat.le_trans (le_dottedLen _ _) hroom)

theorem uncompressLoop_eq_value {c : Cursor} {o : Nat} (hptr : c.ptr = ⟨.reply, o⟩)
    (hi : c.i ≤ RFC1035_MAXNAMESIZE) (hcnt : c.cnt ≤ 100)
    (hname : namebuf = true → c.name.length = c.i) {name : List UInt8} {p : Ptr} :
    uncompressLoop b namebuf c = .value (name, p) ↔ Result b namebuf c o name p := by
  induction hn : c.left using Nat.strong_induction_on generalizing c o with
  | _ n ih =>
    rw [uncompressLoop_eq, uncompressStep_eq b hptr hi]
    cases hitem : item b o with
    | missing =>
        rw [roundAt]
        apply iff_of_false _ (result_stuck (Or.inl hitem))
        split <;> intro no <;> cases no
    | root =>
        rw [result_root hitem hi hcnt, roundAt]
        simp [eq_comm]
    | reserved => exact iff_of_false (by intro no; cases no) (result_stuck (Or.inr (Or.inl hitem)))
    | cut => exact iff_of_false (by intro no; cases no) (result_stuck (Or.inr (Or.inr hitem)))
    | pointer target =>
        rw [result_pointer hitem, roundAt]
        by_cases hgoes : target < b.length ∧ c.cnt < 100
        · rw [if_pos hgoes]
          apply Iff.trans _ (and_iff_right hgoes.2).symm
          exact ih _ (by rw [← hn]; simp only [Cursor.left]; omega) rfl hi (by dsimp only; omega)
            hname rfl
        · rw [if_neg hgoes]
          apply iff_of_false (by intro no; cases no)
          rintro ⟨hfew, ls, k, e, hs, _⟩
          exact hgoes ⟨hs.lt_length, hfew⟩
    | label l =>
        have hl := (item_label hitem).1
        have hgrown := lt_grown hl c.i
        rw [roundAt]
        by_cases hroom : grown c.i l ≤ RFC1035_MAXNAMESIZE
        · rw [if_pos hroom]
          rcases labelBytes_cases b namebuf (o + 1) hl with ⟨bytes, hbytes, hlen⟩ | ⟨hfault, hpast⟩
          · rw [result_label hitem hname hbytes, hbytes, value_bind, value_bind, Sum.elim_inl]
            have hname' : namebuf = true → (c.dotted namebuf ++ bytes).length = grown c.i l := by
              intro htrue
              rw [htrue, dotted_true (hname htrue), grown_length, hname htrue, hlen htrue]
            exact ih _ (by rw [← hn]; simp only [Cursor.left]; omega) rfl hroom hcnt hname' rfl
          · apply iff_of_false
            · intro hvalue
              obtain ⟨_, hstep, -⟩ := bind_eq_value.mp hvalue
              obtain ⟨_, hbytes, -⟩ := bind_eq_value.mp hstep
              rw [hbytes] at hfault
              exact hfault (safe_value _)
            · rintro ⟨ls, k, e, hs, _⟩
              obtain ⟨rest, _, hs'⟩ := (spells_label hitem).mp hs
              have hlt := hs'.lt_length
              omega
        · rw [if_neg hroom]
          exact iff_of_false (by intro no; cases no) (not_result_full hitem hroom)

end Value

section Uncompress
variable {b : List UInt8} {namebuf : Bool} {o : Nat}

theorem safe_replyuncompress : Safe (replyuncompress b ⟨.reply, o⟩ namebuf) ↔ Fits b o :=
  safe_uncompressLoop rfl (Nat.zero_le _)

def Named (b : List UInt8) (o e : Nat) (ls : List (List UInt8)) : Prop :=
  ∃ k, Spells b o ls k ∧ k ≤ 100 ∧ dottedLen 0 ls ≤ RFC1035_MAXNAMESIZE ∧ Ends b o e

/-- Uncompressing gives a name exactly when the reply spells one that keeps to the limits. -/
theorem replyuncompress_eq_value {name : List UInt8} {p : Ptr} :
    replyuncompress b ⟨.reply, o⟩ namebuf = .value (name, p) ↔
      ∃ e ls, Named b o e ls ∧ name = (if namebuf then dotted [] ls else []) ∧
        p = ⟨.reply, e⟩ := by
  rw [replyuncompress, uncompressLoop_eq_value rfl (Nat.zero_le _) (Nat.zero_le _) fun _ => rfl]
  constructor
  · intro ⟨ls, k, e, hs, he, hk, hlen, hname, hp⟩
    exact ⟨e, ls, ⟨k, hs, by simpa using hk, hlen, he⟩, hname, hp⟩
  · intro ⟨e, ls, ⟨k, hs, hk, hlen, he⟩, hname, hp⟩
    exact ⟨ls, k, e, hs, he, by simpa using hk, hlen, hname, hp⟩

end Uncompress
end Cone.Rfc1035Reply
