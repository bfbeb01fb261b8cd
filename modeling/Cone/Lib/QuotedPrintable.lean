import Cone.Ctype

/-! # Quoted-printable text as tokens

A well-formed text is a sequence of literal bytes, escapes and soft line breaks.  The lemmas say
where such a text may be cut: an `=` begins a token wherever it stands, and a line end closes
one. -/
set_option autoImplicit false
namespace Cone.Lib.QuotedPrintable

open Cone.Ctype

abbrev EQ : UInt8 := 61

def hexDigit (n : Nat) : UInt8 := xdigit.getD n 0

inductive Token where
  | literal (c : UInt8)
  | escape (c : UInt8)
  | softBreak
  deriving DecidableEq, Repr

def Token.render : Token → List UInt8
  | .literal c => [c]
  | .escape c => [EQ, hexDigit (c.toNat / 16), hexDigit (c.toNat % 16)]
  | .softBreak => [EQ, NL]

def Token.value : Token → List UInt8
  | .literal c => [c]
  | .escape c => [c]
  | .softBreak => []

def Token.Plain : Token → Prop
  | .literal c => c ≠ EQ ∧ c ≠ NUL
  | _ => True

def render (ts : List Token) : List UInt8 := ts.flatMap Token.render
def value (ts : List Token) : List UInt8 := ts.flatMap Token.value

@[simp] theorem render_nil : render [] = [] := rfl
@[simp] theorem value_nil : value [] = [] := rfl
@[simp] theorem render_cons (t : Token) (ts : List Token) :
    render (t :: ts) = t.render ++ render ts := rfl
@[simp] theorem value_cons (t : Token) (ts : List Token) :
    value (t :: ts) = t.value ++ value ts := rfl
@[simp] theorem render_append (ts us : List Token) : render (ts ++ us) = render ts ++ render us :=
  List.flatMap_append
@[simp] theorem value_append (ts us : List Token) : value (ts ++ us) = value ts ++ value us :=
  List.flatMap_append

theorem hexDigit_facts (n : Nat) (h : n < 16) :
    hexDigit n ≠ EQ ∧ hexDigit n ≠ NL ∧ hexDigit n ≠ NUL ∧ strchr xdigit (hexDigit n) = some n := by
  have all : ∀ n : Fin 16, hexDigit n ≠ EQ ∧ hexDigit n ≠ NL ∧ hexDigit n ≠ NUL ∧
      strchr xdigit (hexDigit n) = some n.val := by decide +kernel
  exact all ⟨n, h⟩

theorem render_ne_nul (ts : List Token) (plain : ∀ t ∈ ts, t.Plain) : NUL ∉ render ts := by
  induction ts with
  | nil => simp
  | cons t ts ih =>
      have tail := ih fun u hu => plain u (List.mem_cons_of_mem t hu)
      have head := plain t (List.mem_cons_self ..)
      rw [render_cons, List.mem_append]
      rintro (inHead | inTail)
      · cases t with
        | literal c => exact head.2 (by simpa [Token.render, eq_comm] using inHead)
        | escape c =>
            have hi := (hexDigit_facts (c.toNat / 16) (by have := c.toNat_lt; omega)).2.2.1
            have lo := (hexDigit_facts (c.toNat % 16) (by omega)).2.2.1
            simp +decide [Token.render, hi.symm, lo.symm] at inHead
        | softBreak => simp +decide at inHead
      · exact tail inTail

theorem cut_after_newline (ts : List Token) (u rest : List UInt8) (noNewline : NL ∉ u)
    (text : u ++ NL :: rest = render ts) :
    ∃ line after, ts = line ++ after ∧ u ++ [NL] = render line ∧ rest = render after ∧
      ∃ front last, line = front ++ [last] ∧ Token.softBreak ∉ front := by
  induction ts generalizing u with
  | nil => simp at text
  | cons t ts ih =>
      -- `t` is either the line's last token or lies inside `u`
      have step : ∀ u', u = t.render ++ u' → t ≠ .softBreak →
          ∃ line after, t :: ts = line ++ after ∧ u ++ [NL] = render line ∧ rest = render after ∧
            ∃ front last, line = front ++ [last] ∧ Token.softBreak ∉ front := by
        intro u' hu hard
        subst hu
        rw [render_cons, List.append_assoc, List.append_cancel_left_eq] at text
        obtain ⟨line, after, rfl, hline, hrest, front, last, rfl, soft⟩ :=
          ih u' (fun h => noNewline (List.mem_append_right _ h)) text
        refine ⟨t :: (front ++ [last]), after, rfl, ?_, hrest, t :: front, last, rfl, ?_⟩
        · rw [render_cons, ← hline, List.append_assoc]
        · simp only [List.mem_cons, not_or]
          exact ⟨hard.symm, soft⟩
      cases t with
      | literal c =>
          cases u with
          | nil =>
              simp only [List.nil_append, render_cons, Token.render, List.singleton_append,
                List.cons.injEq] at text
              obtain ⟨rfl, hrest⟩ := text
              exact ⟨[.literal NL], ts, rfl, rfl, hrest, [], .literal NL, rfl, by simp⟩
          | cons d u' =>
              have hd : d = c := by
                simpa [Token.render] using (List.cons.inj text).1
              exact step u' (by rw [hd]; rfl) (by simp)
      | escape c =>
          have hi := (hexDigit_facts (c.toNat / 16) (by have := c.toNat_lt; omega)).2.1
          have lo := (hexDigit_facts (c.toNat % 16) (by omega)).2.1
          match u, text with
          | [], text => simp +decide [Token.render] at text
          | [_], text => simp [Token.render, hi.symm] at text
          | [_, _], text => simp [Token.render, lo.symm] at text
          | d :: e :: f :: u', text =>
              simp only [render_cons, Token.render, List.cons_append, List.nil_append,
                List.cons.injEq] at text
              obtain ⟨rfl, rfl, rfl, -⟩ := text
              exact step u' rfl (by simp)
      | softBreak =>
          match u, text with
          | [], text => simp +decide [Token.render] at text
          | [d], text =>
              simp only [render_cons, Token.render, List.cons_append, List.nil_append,
                List.cons.injEq, true_and] at text
              obtain ⟨rfl, hrest⟩ := text
              exact ⟨[.softBreak], ts, rfl, rfl, hrest, [], .softBreak, rfl, by simp⟩
          | d :: e :: u', text =>
              simp only [render_cons, Token.render, List.cons_append, List.nil_append,
                List.cons.injEq] at text
              exact absurd (by simp [text.2.1]) noNewline

theorem cut_in_line (ts : List Token) (kept rest : List UInt8) (noNewline : NL ∉ kept)
    (text : kept ++ rest = render ts)
    (fits : rest.head? = some EQ ∨ ∀ u v, kept = u ++ EQ :: v → 2 ≤ v.length) :
    ∃ front after, ts = front ++ after ∧ kept = render front ∧ rest = render after ∧
      Token.softBreak ∉ front := by
  induction ts generalizing kept with
  | nil =>
      obtain ⟨hk, hr⟩ := List.append_eq_nil_iff.mp text
      exact ⟨[], [], rfl, hk, hr, by simp⟩
  | cons t ts ih =>
      have step : ∀ kept', kept = t.render ++ kept' → t ≠ .softBreak →
          ∃ front after, t :: ts = front ++ after ∧ kept = render front ∧ rest = render after ∧
            Token.softBreak ∉ front := by
        intro kept' hk hard
        subst hk
        rw [render_cons, List.append_assoc, List.append_cancel_left_eq] at text
        have fits' : rest.head? = some EQ ∨ ∀ u v, kept' = u ++ EQ :: v → 2 ≤ v.length := by
          refine fits.imp id fun h u v huv => ?_
          exact h (t.render ++ u) v (by rw [huv, List.append_assoc])
        obtain ⟨front, after, rfl, hfront, hrest, soft⟩ :=
          ih kept' (fun h => noNewline (List.mem_append_right _ h)) text fits'
        refine ⟨t :: front, after, rfl, by rw [render_cons, hfront], hrest, ?_⟩
        simp only [List.mem_cons, not_or]
        exact ⟨hard.symm, soft⟩
      -- a cut inside a token that starts with `=` breaks `fits`
      have inside : ∀ pre post, kept = EQ :: pre → pre.length < 2 → rest = post →
          post.head? ≠ some EQ → False := by
        intro pre post hk short hr head
        subst hr
        rcases fits with h | h
        · exact head h
        · have := h [] pre hk
          omega
      cases kept with
      | nil => exact ⟨[], t :: ts, rfl, rfl, text, by simp⟩
      | cons d kept =>
          cases t with
          | literal c =>
              have hd : d = c := by
                simpa [Token.render] using (List.cons.inj text).1
              exact step kept (by rw [hd]; rfl) (by simp)
          | escape c =>
              have hi := (hexDigit_facts (c.toNat / 16) (by have := c.toNat_lt; omega)).1
              have lo := (hexDigit_facts (c.toNat % 16) (by omega)).1
              match kept, text with
              | [], text =>
                  simp only [render_cons, Token.render, List.cons_append, List.nil_append,
                    List.cons.injEq] at text
                  obtain ⟨rfl, hrest⟩ := text
                  exact (inside [] _ rfl (by simp) hrest (by simpa using hi)).elim
              | [e], text =>
                  simp only [render_cons, Token.render, List.cons_append, List.nil_append,
                    List.cons.injEq] at text
                  obtain ⟨rfl, rfl, hrest⟩ := text
                  exact (inside [_] _ rfl (by simp) hrest (by simpa using lo)).elim
              | e :: f :: kept', text =>
                  simp only [render_cons, Token.render, List.cons_append, List.nil_append,
                    List.cons.injEq] at text
                  obtain ⟨rfl, rfl, rfl, -⟩ := text
                  exact step kept' rfl (by simp)
          | softBreak =>
              match kept, text with
              | [], text =>
                  simp only [render_cons, Token.render, List.cons_append, List.nil_append,
                    List.cons.injEq] at text
                  obtain ⟨rfl, hrest⟩ := text
                  exact (inside [] _ rfl (by simp) hrest (by simp +decide)).elim
              | e :: kept', text =>
                  simp only [render_cons, Token.render, List.cons_append, List.nil_append,
                    List.cons.injEq] at text
                  exact absurd (by simp [text.2.1]) noNewline

end Cone.Lib.QuotedPrintable
