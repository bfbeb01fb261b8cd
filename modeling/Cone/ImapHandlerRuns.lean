import Cone.ImapHandler

/-! # Cutting a server response into calls

However a response is cut into calls of `process`, the same tokens are handed; behind a syntax
error the rest of the line is eaten, with the literals in it. -/
set_option autoImplicit false
namespace Cone.ImapHandler

open Cone.Ctype Cone.Lib.Decimal
open Cone.ImapBodystructure (Text upper)
open Cone.ImapSearch (unicode_isspace)
open Cone.ImapparsefmtReads (Token)

section Swallow

def behindHeader : Text → Option Text
  | [] => none
  | c :: b =>
    if c = NL then some b
    else if c = CR then
      match b with
      | [] => none
      | d :: b => if d = NL then some b else none
    else none

def literalSize : Nat → Text → Option (Nat × Text)
  | _, [] => none
  | n, c :: b =>
    if c = RBRACE then (behindHeader b).map fun rest => (n, rest)
    else if isdigit c = false then none
    else literalSize (nextSize n c) b

def swallowWithin : Nat → Text → Option Text
  | 0, _ => none
  | _ + 1, [] => none
  | fuel + 1, c :: b =>
    if c = NL then some b
    else if c = LBRACE then
      match literalSize 0 b with
      | some (n, rest) => swallowWithin fuel (rest.drop n)
      | none => swallowWithin fuel b
    else swallowWithin fuel b

def swallow (text : Text) : Option Text := swallowWithin text.length text

theorem behindHeader_length {b rest : Text} (hb : behindHeader b = some rest) :
    rest.length < b.length := by
  cases b with
  | nil => cases hb
  | cons c b =>
      rw [behindHeader.eq_def] at hb
      simp only at hb
      rw [List.length_cons]
      split at hb
      · cases hb
        omega
      · split at hb
        · cases b with
          | nil => cases hb
          | cons d b =>
              simp only at hb
              split at hb
              · cases hb
                rw [List.length_cons]
                omega
              · cases hb
        · cases hb

theorem literalSize_length {n n' : Nat} {b rest : Text} (hb : literalSize n b = some (n', rest)) :
    rest.length < b.length := by
  induction b generalizing n with
  | nil => cases hb
  | cons c b ih =>
      rw [literalSize] at hb
      rw [List.length_cons]
      split at hb
      · obtain ⟨rest', hrest, hpair⟩ := Option.map_eq_some_iff.1 hb
        cases hpair
        have hlt := behindHeader_length hrest
        omega
      · split at hb
        · cases hb
        · have hlt := ih hb
          omega

end Swallow

section Recovery
variable {sub : Subclass} {h : Handler} {c : UInt8} {b text : Text}

theorem feed_ended (h : Handler) (behind text : Text) :
    feed sub (h, .ended behind) text = (h, .ended (behind ++ text)) := by
  induction text generalizing behind with
  | nil => rw [List.append_nil]; rfl
  | cons c text ih =>
      rw [feed_cons]
      exact (ih (behind ++ [c])).trans (by rw [List.append_assoc]; rfl)

theorem feed_uninstalled (h0 : h.uninstalled = true) (text : Text) :
    feed sub (base h) text = (h, .ended text) := by
  have hbase : base h = (h, .ended []) := by
    rw [base, h0]
    rfl
  rw [hbase, feed_ended, List.nil_append]

structure Recovering (h : Handler) : Prop where
  installed : h.uninstalled = false
  errormode : h.errormode = true
  stringmode : h.stringmode = false

theorem Recovering.clean (hr : Recovering h) (hleft : h.largestringleft = 0) : Clean h :=
  ⟨hr.installed, hr.stringmode, hleft⟩

theorem Recovering.fail (hr : Recovering h) : h.fail = h := by
  rw [Handler.fail, if_pos hr.errormode]

theorem startLiteral_errormode (herror : h.errormode = true) (n : Nat) :
    h.startLiteral sub n =
      { h with largestringsize := n, largestringleft := n, stringbuffer := [] } := by
  rw [Handler.startLiteral]
  simp only [herror, Bool.true_eq_false, and_false, false_and, if_false]

theorem opening_recovering (hr : Recovering h) (hnl : c ≠ NL) (hbrace : c ≠ LBRACE) :
    opening sub h c = base h := by
  rw [opening, if_neg hnl, if_neg hbrace, if_pos hr.errormode, ite_self]

theorem feed_recovering (sub : Subclass) (hr : Recovering h) (hleft : h.largestringleft = 0)
    (hnl : c ≠ NL) (hbrace : c ≠ LBRACE) : feed sub (base h) (c :: b) = feed sub (base h) b := by
  rw [feed_cons, step_base (hr.clean hleft), opening_recovering hr hnl hbrace]

def endOf (m : Machine) : Option (List Token × Text) :=
  match m.2 with
  | .ended behind => some (m.1.tokens, behind)
  | _ => none

theorem endOf_base (hr : Recovering h) : endOf (base h) = none := by
  rw [base_of hr.installed hr.stringmode]
  rfl

def afterHeader (sub : Subclass) (h : Handler) (b : Text) :
    Option (Nat × Text) → Option (List Token × Text)
  | some (n, rest) => endOf (feed sub (base (h.startLiteral sub n)) rest)
  | none => endOf (feed sub (base h) b)

theorem endOf_brace (hr : Recovering h) (hleft : h.largestringleft = 0) (n : Nat) (b : Text) :
    endOf (feed sub (h, .brace n) b) =
      afterHeader sub h b ((behindHeader b).map fun rest => (n, rest)) := by
  cases b with
  | nil => exact (endOf_base hr).symm
  | cons c b =>
      have hopen : step sub (base h) c = opening sub h c := step_base (hr.clean hleft) c
      by_cases hcr : c = CR
      · have hnl : c ≠ NL := by
          rw [hcr]
          decide
        have hpass : feed sub (base h) (c :: b) = feed sub (base h) b :=
          feed_recovering sub hr hleft hnl (by rw [hcr]; decide)
        have hstep : step sub (h, .brace n) c = (h, .braceCR n) := by simp only [step, if_pos hcr]
        rw [feed_cons, hstep, behindHeader.eq_def]
        simp only [if_neg hnl, if_pos hcr]
        cases b with
        | nil =>
            rw [Option.map_none, afterHeader, hpass]
            exact (endOf_base hr).symm
        | cons d b =>
            by_cases hd : d = NL
            · simp only [if_pos hd, Option.map_some, afterHeader]
              rw [feed_cons, step]
              simp only [hd, ne_eq, not_true_eq_false, if_false]
            · simp only [if_neg hd, Option.map_none, afterHeader]
              rw [hpass, feed_cons, feed_cons, step_base (hr.clean hleft), step]
              simp only [ne_eq, hd, not_false_eq_true, if_true, hr.fail]
      · rw [feed_cons, step, behindHeader.eq_def]
        simp only [if_neg hcr]
        by_cases hnl : c = NL
        · simp only [hnl, ne_eq, not_true_eq_false, if_false, if_true, Option.map_some, afterHeader]
        · simp only [ne_eq, hnl, not_false_eq_true, if_true, if_false, Option.map_none, afterHeader,
            hr.fail]
          rw [feed_cons, hopen]

theorem endOf_header (hr : Recovering h) (hleft : h.largestringleft = 0) (n : Nat) (b : Text) :
    endOf (feed sub (h, .header n) b) = afterHeader sub h b (literalSize n b) := by
  induction b generalizing n with
  | nil => exact (endOf_base hr).symm
  | cons c b ih =>
      -- a byte of the header is passed over when the header is none
      have hpass (o : Option (Nat × Text)) (hnl : c ≠ NL) (hbrace : c ≠ LBRACE) :
          afterHeader sub h (c :: b) o = afterHeader sub h b o := by
        cases o with
        | none => rw [afterHeader, afterHeader, feed_recovering sub hr hleft hnl hbrace]
        | some r => rfl
      rw [feed_cons, step, literalSize]
      by_cases hrbrace : c = RBRACE
      · simp only [if_pos hrbrace]
        rw [hpass _ (by rw [hrbrace]; decide) (by rw [hrbrace]; decide)]
        exact endOf_brace hr hleft n b
      · simp only [if_neg hrbrace]
        by_cases hdigit : isdigit c = false
        · simp only [if_pos hdigit, afterHeader, hr.fail]
          rw [feed_cons, step_base (hr.clean hleft)]
        · simp only [if_neg hdigit]
          have hnl : c ≠ NL := by
            rintro rfl
            exact hdigit (by decide)
          have hbrace : c ≠ LBRACE := by
            rintro rfl
            exact hdigit (by decide)
          rw [hpass _ hnl hbrace]
          exact ih (nextSize n c)

theorem literal_recovering (sub : Subclass) (hr : Recovering h) (b : Text) :
    Recovering (literal sub h b).2 ∧ (literal sub h b).2.tokens = h.tokens ∧
      (literal sub h b).1 = min b.length h.largestringleft ∧
      (literal sub h b).2.largestringleft = h.largestringleft - min b.length h.largestringleft := by
  have hkeep {left : Nat} {stringbuffer : Text} :
      Recovering { h with largestringleft := left, stringbuffer := stringbuffer } :=
    ⟨hr.installed, hr.errormode, hr.stringmode⟩
  by_cases hwant : sub.wantLargeString h.tokens h.pieces = true
  · have hskip : literal sub h b = (min b.length h.largestringleft,
        { h with largestringleft := h.largestringleft - min b.length h.largestringleft }) := by
      simp only [literal, if_pos hwant, if_pos hr.errormode]
    rw [hskip]
    exact ⟨hkeep, rfl, rfl, rfl⟩
  · have hskip : literal sub h b = (min b.length h.largestringleft, { h with
        largestringleft := h.largestringleft - min b.length h.largestringleft
        stringbuffer :=
          (h.stringbuffer ++ b.take (min b.length h.largestringleft)).take 8192 }) := by
      rw [literal]
      dsimp only
      rw [if_neg hwant, if_neg fun hand => absurd (hr.errormode.symm.trans hand.2) (by decide)]
    rw [hskip]
    exact ⟨hkeep, rfl, rfl, rfl⟩

theorem endOf_literal (sub : Subclass) (hr : Recovering h) (text : Text) :
    ∃ h', Recovering h' ∧ h'.largestringleft = 0 ∧ h'.tokens = h.tokens ∧
      endOf (feed sub (base h) text) =
        endOf (feed sub (base h') (text.drop h.largestringleft)) := by
  by_cases hleft : h.largestringleft = 0
  · exact ⟨h, hr, hleft, rfl, by rw [hleft, List.drop_zero]⟩
  have hsteady : h.Steady sub := fun herror _ => absurd (hr.errormode.symm.trans herror) (by decide)
  by_cases hshort : text.length ≤ h.largestringleft
  · -- the literal goes on behind the text
    refine ⟨{ h with largestringleft := 0 }, ⟨hr.installed, hr.errormode, hr.stringmode⟩, rfl, rfl,
      ?_⟩
    rw [List.drop_eq_nil_of_le hshort]
    refine Eq.trans ?_ (endOf_base ⟨hr.installed, hr.errormode, hr.stringmode⟩).symm
    by_cases hnil : text = []
    · rw [hnil]
      exact endOf_base hr
    · rw [feed_literal hsteady hr.installed hr.stringmode hnil hshort]
      exact endOf_base (literal_recovering sub hr text).1
  · have hne : text ≠ [] := by
      rintro rfl
      exact hshort (Nat.zero_le _)
    obtain ⟨hr', htokens, hcount, hleft'⟩ := literal_recovering sub hr text
    have hmin : min text.length h.largestringleft = h.largestringleft := by omega
    rw [hmin] at hcount hleft'
    refine ⟨(literal sub h text).2, hr', by omega, htokens, ?_⟩
    rw [(literal_reads hsteady hr.installed hr.stringmode (by omega) hne).2.2, hcount]

theorem feed_swallow (hr : Recovering h) (fuel : Nat)
    (hfuel : (text.drop h.largestringleft).length ≤ fuel) :
    endOf (feed sub (base h) text) =
      (swallowWithin fuel (text.drop h.largestringleft)).map fun rest => (h.tokens, rest) := by
  induction fuel generalizing h text with
  | zero =>
      obtain ⟨h', hr', -, -, hskip⟩ := endOf_literal sub hr text
      have hnil : text.drop h.largestringleft = [] := List.eq_nil_of_length_eq_zero (by omega)
      rw [hskip, hnil]
      exact endOf_base hr'
  | succ fuel ih =>
      obtain ⟨h', hr', hleft, htokens, hskip⟩ := endOf_literal sub hr text
      rw [hskip, ← htokens]
      generalize text.drop h.largestringleft = b at hfuel ⊢
      have hnext (b : Text) (hb : b.length ≤ fuel) : endOf (feed sub (base h') b) =
          (swallowWithin fuel b).map fun rest => (h'.tokens, rest) := by
        have hdrop : endOf (feed sub (base h') b) =
            (swallowWithin fuel (b.drop h'.largestringleft)).map fun rest => (h'.tokens, rest) :=
          ih hr' (by rw [hleft]; exact hb)
        rwa [hleft] at hdrop
      cases b with
      | nil => exact endOf_base hr'
      | cons c b =>
          rw [List.length_cons] at hfuel
          rw [swallowWithin]
          by_cases hnl : c = NL
          · rw [if_pos hnl, feed_cons, step_base (hr'.clean hleft), opening, if_pos hnl,
              feed_uninstalled (by rfl)]
            simp only [endOf, Handler.endOfLine, Handler.uninstall, hr'.errormode,
              Bool.true_eq_false, and_false, if_false, Option.map_some]
          rw [if_neg hnl]
          by_cases hbrace : c = LBRACE
          · have hopen : opening sub h' c = (h', .header 0) := by
              rw [opening, if_neg hnl, if_neg (by rw [hbrace]; decide), if_pos hbrace]
            rw [if_pos hbrace, feed_cons, step_base (hr'.clean hleft), hopen,
              endOf_header hr' hleft]
            cases hsize : literalSize 0 b with
            | none => exact hnext b (by omega)
            | some size =>
                obtain ⟨n, rest⟩ := size
                have hlt := literalSize_length hsize
                have hr'' : Recovering (h'.startLiteral sub n) := by
                  rw [startLiteral_errormode hr'.errormode]
                  exact ⟨hr'.installed, hr'.errormode, hr'.stringmode⟩
                have hleft' : (h'.startLiteral sub n).largestringleft = n := by
                  rw [startLiteral_errormode hr'.errormode]
                have htokens' : (h'.startLiteral sub n).tokens = h'.tokens := by
                  rw [startLiteral_errormode hr'.errormode]
                have hlength : (rest.drop n).length ≤ fuel := by
                  rw [List.length_drop]
                  omega
                have hrest := ih hr'' (by rw [hleft']; exact hlength)
                rw [hleft', htokens'] at hrest
                exact hrest
          · rw [if_neg hbrace, feed_recovering sub hr' hleft hnl hbrace]
            exact hnext b (by omega)

end Recovery

section Done
variable {sub : Subclass} {h : Handler} {text : Text}

/-- Not in a token that `done()` forbids. -/
def Reading.Outside : Reading → Prop
  | .between => True
  | .header _ => True
  | .brace _ => True
  | .braceCR _ => True
  | _ => False

theorem fail_done (herror : h.errormode = false) : h.fail = h.error := by
  rw [Handler.fail, herror]
  rfl

theorem startLiteral_done (hdone : h.donemode = true) (herror : h.errormode = false) (n : Nat) :
    h.startLiteral sub n = h.error.startLiteral sub n := by
  simp only [Handler.startLiteral, Handler.error, hdone, herror, Bool.true_eq_false, and_self,
    and_false, false_and, if_true, if_false]

theorem endOf_done (hc : Clean h) (hdone : h.donemode = true) (herror : h.errormode = false)
    {r : Reading} (hr : r.Outside) :
    endOf (feed sub (h, r) text) = endOf (feed sub (h.error, r) text) := by
  induction text generalizing r with
  | nil => cases r <;> first | rfl | exact hr.elim
  | cons c text ih =>
      have hbase : base h = (h, .between) := base_of hc.installed hc.stringmode
      have hbase' : base h.error = (h.error, .between) := base_of hc.installed hc.stringmode
      have hopen : endOf (feed sub (opening sub h c) text) =
          endOf (feed sub (opening sub h.error c) text) := by
        have heat : h.error.errormode = true := rfl
        rw [opening, opening]
        by_cases hnl : c = NL
        · rw [if_pos hnl, if_pos hnl, feed_uninstalled (by rfl), feed_uninstalled (by rfl)]
          simp only [endOf, Handler.endOfLine, Handler.uninstall, Handler.error, hdone,
            Bool.true_eq_false, false_and, if_false]
        rw [if_neg hnl, if_neg hnl]
        by_cases hspace : unicode_isspace c = true
        · rw [if_pos hspace, if_pos hspace, hbase, hbase']
          exact ih trivial
        rw [if_neg hspace, if_neg hspace]
        by_cases hbrace : c = LBRACE
        · rw [if_pos hbrace, if_pos hbrace]
          exact ih trivial
        · rw [if_neg hbrace, if_neg hbrace, if_neg (Bool.eq_false_iff.1 herror), if_pos hdone,
            if_pos heat]
      rw [feed_cons, feed_cons]
      cases r with
      | between =>
          rw [← hbase, ← hbase', step_base hc, step_base hc.error]
          exact hopen
      | header n =>
          rw [step, step]
          dsimp only
          split
          · exact ih trivial
          · split
            · rw [fail_done herror]
              rfl
            · exact ih trivial
      | brace n =>
          rw [step, step]
          dsimp only
          split
          · exact ih trivial
          · rw [fail_done herror, startLiteral_done hdone herror]
            rfl
      | braceCR n =>
          rw [step, step]
          dsimp only
          rw [fail_done herror, startLiteral_done hdone herror]
          rfl
      | quoted s => exact hr.elim
      | escape s => exact hr.elim
      | atom s bracket_cnt => exact hr.elim
      | ended behind => exact hr.elim

end Done

section Quiet
variable {sub : Subclass} {h : Handler}

structure Quiet (h : Handler) : Prop where
  stringmode : h.errormode = true ∨ h.donemode = true → h.stringmode = false
  left : h.donemode = true → h.errormode = false → h.largestringleft = 0
  quote : h.stringmode = true → h.largestringleft = 0

theorem quiet_of (hstring : h.stringmode = false) (hleft : h.largestringleft = 0) : Quiet h :=
  ⟨fun _ => hstring, fun _ _ => hleft, fun _ => hleft⟩

theorem Clean.quiet (hc : Clean h) : Quiet h := quiet_of hc.stringmode hc.left

theorem endOf_quiet (hquiet : Quiet h) (hinstalled : h.uninstalled = false)
    (hover : h.errormode = true ∨ h.donemode = true) (text : Text) :
    endOf (feed sub (base h) text) =
      (swallow (text.drop h.largestringleft)).map fun rest => (h.tokens, rest) := by
  have hstring := hquiet.stringmode hover
  by_cases herror : h.errormode = true
  · exact feed_swallow ⟨hinstalled, herror, hstring⟩ _ (Nat.le_refl _)
  · have herror' : h.errormode = false := Bool.eq_false_iff.2 herror
    have hdone : h.donemode = true := hover.resolve_left herror
    have hc : Clean h := ⟨hinstalled, hstring, hquiet.left hdone herror'⟩
    have hr : Recovering h.error := ⟨hinstalled, rfl, hstring⟩
    have hbase : base h.error = (h.error, .between) := base_of hinstalled hstring
    rw [base_of hinstalled hstring,
      endOf_done hc hdone herror' (show Reading.between.Outside from trivial), ← hbase]
    exact feed_swallow hr _ (Nat.le_refl _)

theorem quoted_handler (s : Text) (cnt : Nat) (b : Text) :
    (quoted sub h s cnt b).2 = h ∨ (∃ s', (quoted sub h s cnt b).2 = h.string sub s') ∨
      (quoted sub h s cnt b).2 = h.closed sub := by
  fun_induction quoted sub h s cnt b with
  | case1 s cnt => exact Or.inl rfl
  | case2 s cnt b => exact Or.inr (Or.inl ⟨s, rfl⟩)
  | case3 s cnt hquote => exact Or.inl rfl
  | case4 s cnt b hquote => exact Or.inr (Or.inr rfl)
  | case5 s cnt c b hnl hquote ih => exact ih
  | case6 s cnt b hquote hback => exact Or.inr (Or.inr rfl)
  | case7 s cnt c b hquote hback hnl ih => exact ih

theorem startLiteral_quiet (hc : Clean h) (n : Nat) : Quiet (h.startLiteral sub n) := by
  rw [Handler.startLiteral]
  dsimp only
  split
  · exact ⟨fun _ => hc.stringmode, fun _ (herror : true = false) => absurd herror (by decide),
      fun hstring => absurd (hstring.symm.trans hc.stringmode) (by decide)⟩
  · rename_i hdone
    split
    · rename_i hempty
      exact quiet_of hc.stringmode hempty.2
    · exact ⟨fun _ => hc.stringmode, fun hdone' herror => absurd ⟨hdone', herror⟩ hdone,
        fun hstring => absurd (hstring.symm.trans hc.stringmode) (by decide)⟩

theorem behindCR_quiet (hc : Clean h) (n cnt : Nat) (c : UInt8) :
    Quiet (behindCR sub h n cnt c).2 := by
  rw [behindCR]
  split
  · exact hc.fail.quiet
  · exact startLiteral_quiet hc n

theorem header_quiet (hc : Clean h) (n cnt : Nat) (b : Text) :
    Quiet (header sub h n cnt b).2 := by
  induction b generalizing n cnt with
  | nil => exact hc.quiet
  | cons c b ih =>
      rw [header]
      split
      · cases b with
        | nil => exact hc.quiet
        | cons d b =>
            rw [behindBrace.eq_def]
            dsimp only
            split
            · cases b with
              | nil => exact hc.quiet
              | cons e b => exact behindCR_quiet hc n _ e
            · exact behindCR_quiet hc n _ d
      · split
        · exact hc.fail.quiet
        · exact ih (nextSize n c) (cnt + 1)

theorem atom_quiet (hc : Clean h) (s : Text) (bracket_cnt cnt : Nat) (b : Text) :
    Quiet (atom sub h s bracket_cnt cnt b).2 := by
  induction b generalizing s bracket_cnt cnt with
  | nil => exact hc.quiet
  | cons c b ih =>
      rw [atom]
      split
      · split
        · exact (hc.hand sub _).quiet
        · split
          · split
            · exact (hc.hand sub _).quiet
            · exact ih _ _ _
          · exact ih _ _ _
      · split
        · exact (hc.hand sub _).quiet
        · exact ih _ _ _

theorem endOfLine_quiet (hc : Clean h) : Quiet (h.endOfLine sub) := by
  rw [Handler.endOfLine]
  split
  · exact quiet_of hc.stringmode hc.left
  · exact quiet_of hc.stringmode hc.left

theorem scan_quiet (hc : Clean h) (cnt : Nat) (b : Text) : Quiet (scan sub h cnt b).2 := by
  induction b generalizing h cnt with
  | nil => exact hc.quiet
  | cons c b ih =>
      rw [scan]
      split
      · exact endOfLine_quiet hc
      split
      · exact ih hc (cnt + 1)
      split
      · exact header_quiet hc 0 (cnt + 1) b
      split
      · exact ih hc (cnt + 1)
      rename_i herror
      split
      · exact ih hc.error (cnt + 1)
      rename_i hdone
      split
      · exact (hc.hand sub _).quiet
      split
      · exact ⟨fun hover => (hover.elim herror hdone).elim, fun _ _ => hc.left, fun _ => hc.left⟩
      split
      · exact atom_quiet hc [c] 0 (cnt + 1) b
      · exact hc.error.quiet

theorem literal_quiet (hquiet : Quiet h) (hsub : h.Steady sub) (hstring : h.stringmode = false)
    (hleft : h.largestringleft > 0) (b : Text) : Quiet (literal sub h b).2 := by
  have hquote {g : Handler} (hg : g.stringmode = false) (hleft' : g.donemode = true →
      g.errormode = false → g.largestringleft = 0) : Quiet g :=
    ⟨fun _ => hg, hleft', fun hstring => absurd (hstring.symm.trans hg) (by decide)⟩
  have hdone (hdone : h.donemode = true) (herror : h.errormode = false) : False := by
    have hzero := hquiet.left hdone herror
    omega
  rw [literal]
  dsimp only
  split
  · rename_i hwant
    split
    · rename_i herror
      exact hquote hstring fun _ hnone => absurd (herror.symm.trans hnone) (by decide)
    · rename_i herror
      have herror' : h.errormode = false := Bool.eq_false_iff.2 herror
      split
      · rename_i hlast
        exact quiet_of hstring hlast
      · have hpiece := (hsub herror' hleft h.pieces
          (h.pieces ++ b.take (min b.length h.largestringleft)) hwant).2
        rw [Handler.handPiece]
        dsimp only
        rw [hpiece]
        refine hquote hstring fun (hdone' : (h.donemode || false) = true) _ => ?_
        rw [Bool.or_false] at hdone'
        exact (hdone hdone' herror').elim
  · split
    · rename_i hlast
      exact quiet_of hstring hlast.1
    · exact hquote hstring fun hdone' herror => (hdone hdone' herror).elim

theorem process_quiet (hquiet : Quiet h) (hsub : h.Steady sub) (hinstalled : h.uninstalled = false)
    (b : Text) : Quiet (process sub h b).2 := by
  rw [process]
  split
  · rename_i hstring
    have hleft := hquiet.quote hstring
    rcases @quoted_handler sub h [] 0 b with heq | ⟨s, heq⟩ | heq
    · rw [heq]
      exact hquiet
    · rw [heq]
      exact quiet_of rfl hleft
    · rw [heq]
      exact quiet_of rfl hleft
  · rename_i hstring
    have hstring' : h.stringmode = false := Bool.eq_false_iff.2 hstring
    split
    · rename_i hleft
      exact literal_quiet hquiet hsub hstring' hleft b
    · rename_i hleft
      exact scan_quiet ⟨hinstalled, hstring', by omega⟩ 0 b

end Quiet

section FolderCount

inductive Next where
  | get_count
  | get_fetch
  | get_fetch_item
  | get_fetch_uid
  | get_fetch_flags
  | get_fetch_flag
  | get_internaldate
  | get_rfc822size
  | get_body
  deriving DecidableEq, Repr

structure FolderCount where
  next_func : Next
  accept_largestring : Bool
  deriving DecidableEq, Repr

def FolderCount.get (s : FolderCount) (next : Next) : FolderCount × Reaction :=
  ({ s with next_func := next }, ⟨false, false⟩)

def FolderCount.done (s : FolderCount) : FolderCount × Reaction := (s, ⟨true, false⟩)

def FolderCount.error (s : FolderCount) : FolderCount × Reaction := (s, ⟨false, true⟩)

/-- The name of an item; `ENVELOPE` and `BODYSTRUCTURE` are left out. -/
def FolderCount.item (s : FolderCount) (name : Text) : FolderCount × Reaction :=
  if name = str "UID" then s.get .get_fetch_uid
  else if name = str "FLAGS" then s.get .get_fetch_flags
  else if name = str "INTERNALDATE" then s.get .get_internaldate
  else if name = str "RFC822.SIZE" then s.get .get_rfc822size
  else if str "BODY[" <+: name ∨ str "BODY.PEEK[" <+: name then
    let s : FolderCount := ⟨.get_body, true⟩
    if name.idxOf? RBRACKET = some (name.length - 1) then s.get .get_body else s.error
  else s.error

/-- `process(Token)` of `mail::imapFOLDER_COUNT`. -/
def FolderCount.process (s : FolderCount) (t : Token) : FolderCount × Reaction :=
  match s.next_func, t with
  | .get_count, .ATOM name =>
    if upper name = str "FETCH" then s.get .get_fetch else s.done
  | .get_count, _ => s.error
  | .get_fetch, t =>
    let s := { s with next_func := .get_fetch_item }
    if t = .char (byte '(') then s.get .get_fetch_item else s.error
  | .get_fetch_item, t =>
    let s := { s with accept_largestring := false }
    match t with
    | .char c => if c = byte ')' then s.done else s.error
    | .ATOM name => s.item (upper name)
    | _ => s.error
  | .get_fetch_uid, .ATOM _ => s.get .get_fetch_item
  | .get_fetch_uid, _ => s.error
  | .get_fetch_flags, .NIL => s.get .get_fetch_item
  | .get_fetch_flags, t => if t = .char (byte '(') then s.get .get_fetch_flag else s.error
  | .get_fetch_flag, .ATOM _ => s.get .get_fetch_flag
  | .get_fetch_flag, t => if t = .char (byte ')') then s.get .get_fetch_item else s.error
  | .get_internaldate, .ATOM _ => s.get .get_fetch_item
  | .get_internaldate, .STRING _ => s.get .get_fetch_item
  | .get_internaldate, _ => s.error
  | .get_rfc822size, .ATOM _ => s.get .get_fetch_item
  | .get_rfc822size, _ => s.error
  | .get_body, .STRING _ => s.get .get_fetch_item
  | .get_body, .LARGESTRING _ => s.get .get_body
  | .get_body, _ => s.error

def FolderCount.after (tokens : List Token) : FolderCount × Reaction :=
  tokens.foldl (fun s t => s.1.process t) (⟨.get_count, false⟩, ⟨false, false⟩)

def pieceTokens (tokens : List Token) (pieces : Text) : List Token :=
  if pieces = [] then tokens else tokens ++ [.LARGESTRING pieces]

/-- `mail::imapFOLDER_COUNT`, for what follows the number of a message. -/
def imapFOLDER_COUNT : Subclass where
  process tokens := (FolderCount.after tokens).2
  processPiece tokens pieces := (FolderCount.after (pieceTokens tokens pieces)).2
  wantLargeString tokens pieces :=
    (FolderCount.after (pieceTokens tokens pieces)).1.accept_largestring

end FolderCount

section RunSpec
variable {sub : Subclass} {start h h' : Handler} {text rest rest' : Text}

theorem Steady.of_append {more : Text} (hsub : Steady sub start (text ++ more)) :
    Steady sub start text :=
  fun t h rest hbefore run => hsub t h rest (hbefore.trans (List.prefix_append text more)) run

theorem Steady.now (hsub : Steady sub start text) (run : Run sub start text h rest) :
    h.Steady sub := hsub text h rest (List.prefix_refl text) run

theorem run_feed (hsub : Steady sub start text) (run : Run sub start text h rest) :
    feed sub (base h) rest = feed sub (base start) text := by
  induction run with
  | start => rfl
  | arrive more run ih => rw [feed_append, feed_append, ih hsub.of_append]
  | call run installed busy ih =>
      rw [← ih hsub]
      exact (process_reads (hsub.now run) installed busy).2.symm

theorem run_quiet (hsub : Steady sub start text) (hstart : Quiet start)
    (run : Run sub start text h rest) : Quiet h := by
  induction run with
  | start => exact hstart
  | arrive more run ih => exact ih hsub.of_append
  | call run installed busy ih =>
      exact process_quiet (ih hsub) (hsub.now run) installed _

theorem run_uninstalled (hsub : Steady sub start text) (run : Run sub start text h rest)
    (h0 : h.uninstalled = true) : feed sub (base start) text = (h, .ended rest) := by
  rw [← run_feed hsub run, feed_uninstalled h0]

/-- There is nothing to do until more arrives. -/
def Idle (sub : Subclass) (h : Handler) (rest : Text) : Prop :=
  h.uninstalled = true ∨ rest = [] ∨ (process sub h rest).1 = 0

theorem endOf_incomplete {m : Machine} (hm : m.2.Incomplete) : endOf m = none := by
  obtain ⟨h, r⟩ := m
  cases r with
  | between => exact hm.elim
  | ended behind => exact hm.elim
  | _ => rfl

theorem idle_feed (hsub : Steady sub start text) (run : Run sub start text h rest)
    (hidle : Idle sub h rest) :
    (feed sub (base start) text).1.tokens = h.tokens ∧
      endOf (feed sub (base start) text) =
        if h.uninstalled then some (h.tokens, rest) else none := by
  by_cases hended : h.uninstalled = true
  · rw [if_pos hended, run_uninstalled hsub run hended]
    exact ⟨rfl, rfl⟩
  · rw [if_neg hended, ← run_feed hsub run]
    have hinstalled : h.uninstalled = false := Bool.eq_false_iff.2 hended
    by_cases hrest : rest = []
    · subst hrest
      refine ⟨rfl, ?_⟩
      show endOf (base h) = none
      rw [base, if_neg hended]
      split <;> rfl
    · have hzero := (hidle.resolve_left hended).resolve_left hrest
      rcases (process_reads (hsub.now run) hinstalled hrest).1 with
        ⟨hpos, -⟩ | ⟨-, hinside, htokens⟩
      · omega
      · exact ⟨htokens, endOf_incomplete hinside⟩

instance (h : Handler) (rest : Text) : Decidable (Idle sub h rest) :=
  inferInstanceAs (Decidable (_ ∨ _ ∨ _))

def calls (sub : Subclass) : Nat → Handler → Text → Handler × Text
  | 0, h, rest => (h, rest)
  | n + 1, h, rest =>
    if h.uninstalled = false ∧ rest ≠ [] then
      calls sub n (process sub h rest).2 (rest.drop (process sub h rest).1)
    else (h, rest)

def deliver (sub : Subclass) (n : Nat) (s : Handler × Text) (cuts : List Text) : Handler × Text :=
  cuts.foldl (fun s more => calls sub n s.1 (s.2 ++ more)) s

theorem run_calls (n : Nat) (run : Run sub start text h rest) :
    Run sub start text (calls sub n h rest).1 (calls sub n h rest).2 := by
  induction n generalizing h rest with
  | zero => exact run
  | succ n ih =>
      rw [calls]
      split
      · rename_i hbusy
        exact ih (run.call hbusy.1 hbusy.2)
      · exact run

theorem run_deliver (n : Nat) (cuts : List Text) (run : Run sub start text h rest) :
    Run sub start (text ++ cuts.flatten) (deliver sub n (h, rest) cuts).1
      (deliver sub n (h, rest) cuts).2 := by
  induction cuts generalizing text h rest with
  | nil =>
      rw [List.flatten_nil, List.append_nil]
      exact run
  | cons more cuts ih =>
      rw [List.flatten_cons, ← List.append_assoc]
      exact ih (run_calls n (run.arrive more))

/-- Behind the header of a literal. -/
structure Handler.Begins (h : Handler) (n : Nat) : Prop where
  installed : h.uninstalled = false
  errormode : h.errormode = false
  stringmode : h.stringmode = false
  left : h.largestringleft = n
  stringbuffer : h.stringbuffer = []
  pieces : h.pieces = []

theorem literal_string (hbegins : h.Begins text.length) :
    (literal sub h text).2.tokens = h.tokens ++
      [.STRING (if sub.wantLargeString h.tokens [] then text else text.take 8192)] := by
  have hnone : ¬ h.errormode = true := Bool.eq_false_iff.1 hbegins.errormode
  rw [literal]
  dsimp only
  rw [hbegins.left, hbegins.pieces, hbegins.stringbuffer, Nat.min_self, Nat.sub_self,
    List.take_length, List.nil_append]
  by_cases hwant : sub.wantLargeString h.tokens [] = true
  · rw [if_pos hwant, if_pos hwant, if_neg hnone, if_pos rfl]
    rfl
  · rw [if_neg hwant, if_neg hwant, if_pos ⟨rfl, hbegins.errormode⟩]
    rfl

/-- However a response is cut into calls, the same tokens are handed. -/
theorem response_cuts (sub : Subclass) (text : Text)
    (hsub : Steady sub imapHandlerStructured text) :
    (∀ h rest h' rest', Run sub imapHandlerStructured text h rest → Idle sub h rest →
      Run sub imapHandlerStructured text h' rest' → Idle sub h' rest' →
      h.tokens = h'.tokens ∧ h.uninstalled = h'.uninstalled ∧
        (h.uninstalled = true → rest = rest')) ∧
    (∀ h rest, Run sub imapHandlerStructured text h rest → h.uninstalled = false → rest ≠ [] →
      0 < (process sub h rest).1 ∧ (process sub h rest).1 ≤ rest.length ∨
        (process sub h rest).1 = 0 ∧ (feed sub (base h) rest).2.Incomplete) ∧
    (∀ t more h rest h' rest', t ++ more = text → Run sub imapHandlerStructured t h rest →
      h.uninstalled = false → h.errormode = true ∨ h.donemode = true →
      Run sub imapHandlerStructured text h' rest' → Idle sub h' rest' →
      if h'.uninstalled then
        h'.tokens = h.tokens ∧ swallow ((rest ++ more).drop h.largestringleft) = some rest'
      else swallow ((rest ++ more).drop h.largestringleft) = none) ∧
    ∀ t p h h', t ++ p = text → p ≠ [] → Run sub imapHandlerStructured t h [] →
      h.Begins p.length → Run sub imapHandlerStructured text h' [] →
      h'.tokens = h.tokens ++
        [.STRING (if sub.wantLargeString h.tokens [] then p else p.take 8192)] := by
  refine ⟨?_, ?_, ?_, ?_⟩
  · intro h rest h' rest' run hidle run' hidle'
    obtain ⟨htokens, hend⟩ := idle_feed hsub run hidle
    obtain ⟨htokens', hend'⟩ := idle_feed hsub run' hidle'
    rw [hend] at hend'
    refine ⟨htokens.symm.trans htokens', ?_, ?_⟩
    · cases hleft : h.uninstalled <;> cases hright : h'.uninstalled
      · rfl
      · simp [hleft, hright] at hend'
      · simp [hleft, hright] at hend'
      · rfl
    · intro hended
      rw [if_pos hended] at hend'
      split at hend'
      · exact congrArg Prod.snd (Option.some.inj hend')
      · cases hend'
  · intro h rest run hinstalled hrest
    exact (process_reads (hsub.now run) hinstalled hrest).1.imp_right fun hnone =>
      ⟨hnone.1, hnone.2.1⟩
  · rintro t more h rest h' rest' rfl run hinstalled hover run' hidle'
    have hquiet := run_quiet hsub.of_append (quiet_of rfl rfl) run
    have hend := (idle_feed hsub run' hidle').2
    rw [feed_append, ← run_feed hsub.of_append run, ← feed_append,
      endOf_quiet hquiet hinstalled hover] at hend
    cases hswallow : swallow ((rest ++ more).drop h.largestringleft) with
    | none =>
        rw [hswallow] at hend
        split
        · rename_i hended
          rw [if_pos hended] at hend
          cases hend
        · rfl
    | some behind =>
        rw [hswallow] at hend
        split
        · rename_i hended
          rw [if_pos hended] at hend
          obtain ⟨htokens, hrest⟩ := Prod.mk.inj (Option.some.inj hend)
          exact ⟨htokens.symm, by rw [hrest]⟩
        · rename_i hended
          rw [if_neg hended] at hend
          cases hend
  · rintro t p h h' rfl hne run hbegins run'
    have hfeed := run_feed hsub run'
    rw [feed_append, ← run_feed hsub.of_append run] at hfeed
    have hlast : base h' = base (literal sub h p).2 := hfeed.trans
      (feed_literal (hsub.of_append.now run) hbegins.installed hbegins.stringmode hne
        hbegins.left.ge)
    have hhandler : h' = (literal sub h p).2 := congrArg Prod.fst hlast
    rw [hhandler]
    exact literal_string hbegins

def collector : Subclass :=
  ⟨fun _ => ⟨false, false⟩, fun _ _ => ⟨false, false⟩, fun _ _ => true⟩

def bodies : List Text :=
  [str "FETCH (BODY[] \x7b2\x7d\r\nab\x7b3\x7d\r\nc", str "de)\r\nOK"]

theorem response_cuts_collector :
    (deliver collector 20 (imapHandlerStructured, []) [bodies.flatten]).1.tokens =
      (deliver collector 20 (imapHandlerStructured, []) bodies).1.tokens := by
  have hsteady : Steady collector imapHandlerStructured bodies.flatten :=
    fun _ _ _ _ _ _ _ _ _ _ => ⟨rfl, rfl⟩
  have hcuts := response_cuts collector bodies.flatten hsteady
  exact (hcuts.1 _ _ _ _ (run_deliver 20 [bodies.flatten] Run.start) (by decide +kernel)
    (run_deliver 20 bodies Run.start) (by decide +kernel)).1

/-- The second literal is not asked for; its pieces are an error, and the whole is a token. -/
theorem cut_within_unasked :
    ∃ h rest h' rest', Run imapFOLDER_COUNT imapHandlerStructured bodies.flatten h rest ∧
      Run imapFOLDER_COUNT imapHandlerStructured bodies.flatten h' rest' ∧
      h.uninstalled = true ∧ h'.uninstalled = true ∧ rest = rest' ∧
      h.tokens = h'.tokens ++ [.STRING (str "cde")] :=
  ⟨_, _, _, _, run_deliver 20 [bodies.flatten] Run.start, run_deliver 20 bodies Run.start,
    by decide +kernel, by decide +kernel, by decide +kernel, by decide +kernel⟩

end RunSpec
end Cone.ImapHandler
