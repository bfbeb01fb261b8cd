import Cone.Lib.Decimal

/-! # Text with embedded attributes

`textAttributes` of htmlparser.C: the attributes of a text as a string between two `\x7F`, and
`getAttributedText`. -/
set_option autoImplicit false
namespace Cone.TextAttributes

open Cone.Ctype Cone.Lib.Decimal

abbrev Text := List UInt8

def DEL : UInt8 := 0x7F
def ESC : UInt8 := 0x80

section Attributes

structure TextAttributes where
  bold : Bool
  underline : Bool
  reverse : Bool
  italic : Bool
  bgcolor : UInt32
  fgcolor : UInt32
  url : Text
  deriving DecidableEq, Repr

def textAttributes : TextAttributes := ⟨false, false, false, false, 0, 0, []⟩

/-- `\x7F` is written as `\x80\x80`, and `\x80` as `\x80\x81`. -/
def escape : Text → Text
  | [] => []
  | b :: url => if b = DEL ∨ b = ESC then ESC :: (b + 1) :: escape url else b :: escape url

def unescape : Text → Text
  | [] => []
  | b :: s =>
    if b ≠ ESC then b :: unescape s
    else
      match s with
      | [] => []
      | c :: s => (c - 1) :: unescape s

/-- `strchr(d, b)-d`; the terminating zero is found too. -/
def digit (b : UInt8) : Option Nat := strchr (str "0123456789" ++ [NUL]) b

def shift (c : UInt32) (d : Nat) : UInt32 := c * 10 + UInt32.ofNat d

def TextAttributes.color (a : TextAttributes) (fg : Bool) : UInt32 :=
  if fg then a.fgcolor else a.bgcolor

def TextAttributes.setColor (a : TextAttributes) (fg : Bool) (c : UInt32) : TextAttributes :=
  if fg then { a with fgcolor := c } else { a with bgcolor := c }

def read (fg : Bool) (a : TextAttributes) : Text → TextAttributes
  | [] => a
  | b :: s =>
    match digit b with
    | some d => read fg (a.setColor fg (shift (a.color fg) d)) s
    | none =>
      if b = byte 'B' then read fg { a with bold := true } s
      else if b = byte 'I' then read fg { a with italic := true } s
      else if b = byte 'U' then read fg { a with underline := true } s
      else if b = byte 'R' then read fg { a with reverse := true } s
      else if b = byte '.' then read true a s
      else if b = byte 'L' then { a with url := unescape s }
      else read fg a s

def ofString (s : Text) : TextAttributes := read false textAttributes s

def TextAttributes.flags (a : TextAttributes) : Text :=
  (if a.bold then str "B" else []) ++ (if a.underline then str "U" else []) ++
    (if a.reverse then str "R" else []) ++ (if a.italic then str "I" else [])

/-- What stands between the two `\x7F`. -/
def TextAttributes.body (a : TextAttributes) : Text :=
  (if a.flags = [] then str "N" else a.flags) ++
    (if a.bgcolor ≠ 0 then decimal a.bgcolor.toNat else []) ++
    (if a.fgcolor ≠ 0 then byte '.' :: decimal a.fgcolor.toNat else []) ++
    (if a.url ≠ [] then byte 'L' :: escape a.url else [])

def TextAttributes.toString (a : TextAttributes) : Text := DEL :: a.body ++ [DEL]

end Attributes

section Texts

abbrev Pair := TextAttributes × Text

structure Reading where
  currentAttr : TextAttributes
  currentString : Text
  vec : List Pair

def Reading.push (r : Reading) : Reading :=
  { r with currentString := [], vec := r.vec ++ [(r.currentAttr, r.currentString)] }

def Reading.switch (r : Reading) (nextAttr : TextAttributes) : Reading :=
  { (if nextAttr ≠ r.currentAttr ∧ r.currentString ≠ [] then r.push else r) with
    currentAttr := nextAttr }

mutual

def readText (r : Reading) : Text → Reading
  | [] => r
  | b :: s =>
    if b ≠ DEL then readText { r with currentString := r.currentString ++ [b] } s
    else readAttributes r [] s

/-- Up to the next `\x7F` or the end, `c` so far. -/
def readAttributes (r : Reading) (c : Text) : Text → Reading
  | [] => r.switch (ofString c)
  | b :: s =>
    if b ≠ DEL then readAttributes r (c ++ [b]) s else readText (r.switch (ofString c)) s

end

def getAttributedText (s : Text) : List Pair :=
  let r := readText ⟨textAttributes, [], []⟩ s
  if r.currentString ≠ [] then r.push.vec else r.vec

def concat (pairs : List Pair) : Text := pairs.flatMap fun p => p.1.toString ++ p.2

def mergeInto (p : Pair) : List Pair → List Pair
  | [] => [p]
  | q :: pairs => if p.1 = q.1 then (p.1, p.2 ++ q.2) :: pairs else p :: q :: pairs

/-- Neighbours with equal attributes are one. -/
def merge (pairs : List Pair) : List Pair := pairs.foldr mergeInto []

def dropEmpty (pairs : List Pair) : List Pair := pairs.filter fun p => p.2 ≠ []

end Texts

section AttributeSpec
variable {a : TextAttributes} {fg : Bool} {b : UInt8} {s : Text}

theorem unescape_escape (url : Text) : unescape (escape url) = url := by
  induction url with
  | nil => rfl
  | cons b url ih =>
      rw [escape]
      by_cases hb : b = DEL ∨ b = ESC
      · have hback : b + 1 - 1 = b := by
          rcases hb with rfl | rfl
          · rfl
          · rfl
        rw [if_pos hb, unescape.eq_def]
        simp only [ne_eq, not_true_eq_false, if_false, hback, ih]
      · have hesc : b ≠ ESC := fun hesc => hb (Or.inr hesc)
        rw [if_neg hb, unescape.eq_def]
        simp only [if_pos hesc, ih]

theorem escape_not_del (url : Text) : DEL ∉ escape url := by
  induction url with
  | nil => exact List.not_mem_nil
  | cons b url ih =>
      rw [escape]
      by_cases hb : b = DEL ∨ b = ESC
      · have hnext : DEL ≠ b + 1 := by
          rcases hb with rfl | rfl
          · decide
          · decide
        rw [if_pos hb, List.mem_cons, List.mem_cons, not_or, not_or]
        exact ⟨by decide, hnext, ih⟩
      · rw [if_neg hb, List.mem_cons, not_or]
        exact ⟨fun hdel => hb (Or.inl hdel.symm), ih⟩

theorem digit_facts : ∀ b, isdigit b = true →
    digit b = some (b.toNat - (byte '0').toNat) ∧ b ≠ DEL :=
  forall_byte (by decide +kernel)

theorem setColor_color (a : TextAttributes) (fg : Bool) : a.setColor fg (a.color fg) = a := by
  cases fg <;> rfl

theorem color_setColor (a : TextAttributes) (fg : Bool) (c : UInt32) :
    (a.setColor fg c).color fg = c := by
  cases fg <;> rfl

theorem setColor_setColor (a : TextAttributes) (fg : Bool) (c d : UInt32) :
    (a.setColor fg c).setColor fg d = a.setColor fg d := by
  cases fg <;> rfl

theorem read_digits (ds : List UInt8) (hds : ∀ d ∈ ds, isdigit d = true) (fg : Bool)
    (a : TextAttributes) (s : Text) :
    read fg a (ds ++ s) = read fg (a.setColor fg
      (ds.foldl (fun c d => shift c (d.toNat - (byte '0').toNat)) (a.color fg))) s := by
  induction ds generalizing a with
  | nil => rw [List.nil_append, List.foldl_nil, setColor_color]
  | cons d ds ih =>
      obtain ⟨hdigit, -⟩ := digit_facts d (hds d List.mem_cons_self)
      rw [List.cons_append, read, hdigit]
      dsimp only
      rw [ih (fun d hd => hds d (List.mem_cons_of_mem _ hd)), color_setColor, setColor_setColor,
        List.foldl_cons]

theorem foldl_shift (ds : List UInt8) (n : Nat) :
    ds.foldl (fun c d => shift c (d.toNat - (byte '0').toNat)) (UInt32.ofNat n) =
      UInt32.ofNat (ds.foldl (fun n d => 10 * n + (d.toNat - (byte '0').toNat)) n) := by
  induction ds generalizing n with
  | nil => rfl
  | cons d ds ih =>
      have hshift : shift (UInt32.ofNat n) (d.toNat - (byte '0').toNat) =
          UInt32.ofNat (10 * n + (d.toNat - (byte '0').toNat)) := by
        rw [shift, UInt32.ofNat_add, Nat.mul_comm, UInt32.ofNat_mul]
        rfl
      rw [List.foldl_cons, List.foldl_cons, hshift, ih]

theorem read_color (fg : Bool) (a : TextAttributes) (hzero : a.color fg = 0) (c : UInt32)
    (s : Text) : read fg a (decimal c.toNat ++ s) = read fg (a.setColor fg c) s := by
  have hdigits : ∀ d ∈ (decimal c.toNat), isdigit d = true := fun d => isdigit_of_mem_decimal
  have hvalue : (decimal c.toNat).foldl (fun n d => 10 * n + (d.toNat - (byte '0').toNat)) 0 =
      c.toNat := by
    rw [decimal, foldl_digits _ fun c hc => Nat.isDigit_of_mem_toDigits (by decide) (by decide) hc,
      Nat.ofDigitChars_ten_toDigits]
  have hfold : (decimal c.toNat).foldl (fun c d => shift c (d.toNat - (byte '0').toNat)) 0 = c := by
    have hshift := foldl_shift (decimal c.toNat) 0
    rw [hvalue, UInt32.ofNat_toNat] at hshift
    exact hshift
  rw [read_digits _ hdigits, hzero, hfold]

theorem read_flags (a : TextAttributes) (s : Text) :
    read false textAttributes ((if a.flags = [] then str "N" else a.flags) ++ s) =
      read false { a with bgcolor := 0, fgcolor := 0, url := [] } s := by
  obtain ⟨bold, underline, reverse, italic, bgcolor, fgcolor, url⟩ := a
  cases bold <;> cases underline <;> cases reverse <;> cases italic <;> rfl

theorem read_bgcolor (a : TextAttributes) (hzero : a.bgcolor = 0) (c : UInt32) (s : Text) :
    read false a ((if c ≠ 0 then decimal c.toNat else []) ++ s) =
      read false { a with bgcolor := c } s := by
  by_cases hc : c = 0
  · rw [if_neg (not_not_intro hc), hc, List.nil_append, ← hzero]
  · rw [if_pos hc, read_color false a hzero]
    rfl

theorem read_url (fg : Bool) (a : TextAttributes) (hnone : a.url = []) (url : Text) :
    read fg a (if url ≠ [] then byte 'L' :: escape url else []) = { a with url := url } := by
  by_cases hurl : url = []
  · rw [if_neg (not_not_intro hurl), hurl, read, ← hnone]
  · have hread : read fg a (byte 'L' :: escape url) =
        { a with url := unescape (escape url) } := rfl
    rw [if_pos hurl, hread, unescape_escape]

theorem ofString_body (a : TextAttributes) : ofString a.body = a := by
  rw [ofString, TextAttributes.body, List.append_assoc, List.append_assoc, read_flags,
    read_bgcolor _ rfl]
  by_cases hfg : a.fgcolor = 0
  · rw [if_neg (not_not_intro hfg), List.nil_append, read_url _ _ rfl, ← hfg]
  · have hdot (s : Text) : read false { a with fgcolor := 0, url := [] } (byte '.' :: s) =
        read true { a with fgcolor := 0, url := [] } s := rfl
    rw [if_pos hfg, List.cons_append, hdot, read_color true _ rfl, read_url _ _ rfl]
    rfl

theorem decimal_not_del (n : Nat) : DEL ∉ decimal n := by
  intro hmem
  exact (digit_facts DEL (isdigit_of_mem_decimal hmem)).2 rfl

theorem flags_not_del (a : TextAttributes) :
    DEL ∉ (if a.flags = [] then str "N" else a.flags) := by
  obtain ⟨bold, underline, reverse, italic, bgcolor, fgcolor, url⟩ := a
  cases bold <;> cases underline <;> cases reverse <;> cases italic <;> exact of_decide_eq_true rfl

theorem body_not_del (a : TextAttributes) : DEL ∉ a.body := by
  rw [TextAttributes.body, List.mem_append, List.mem_append, List.mem_append, not_or, not_or,
    not_or]
  refine ⟨⟨⟨flags_not_del a, ?_⟩, ?_⟩, ?_⟩
  · split
    · exact decimal_not_del _
    · exact List.not_mem_nil
  · split
    · rw [List.mem_cons, not_or]
      exact ⟨by decide, decimal_not_del _⟩
    · exact List.not_mem_nil
  · split
    · rw [List.mem_cons, not_or]
      exact ⟨by decide, escape_not_del _⟩
    · exact List.not_mem_nil

end AttributeSpec

section TextSpec
variable {r : Reading} {p q : Pair} {pairs : List Pair}

theorem readText_append (text : Text) (htext : DEL ∉ text) (r : Reading) (s : Text) :
    readText r (text ++ s) = readText { r with currentString := r.currentString ++ text } s := by
  induction text generalizing r with
  | nil => rw [List.nil_append, List.append_nil]
  | cons b text ih =>
      rw [List.mem_cons, not_or] at htext
      have hb : b ≠ DEL := fun hdel => htext.1 hdel.symm
      rw [List.cons_append, readText, if_pos hb, ih htext.2]
      simp only [List.append_assoc, List.singleton_append]

theorem readAttributes_append (body : Text) (hbody : DEL ∉ body) (r : Reading) (c s : Text) :
    readAttributes r c (body ++ DEL :: s) = readText (r.switch (ofString (c ++ body))) s := by
  induction body generalizing c with
  | nil =>
      rw [List.nil_append, readAttributes, if_neg (not_not_intro rfl), List.append_nil]
  | cons b body ih =>
      rw [List.mem_cons, not_or] at hbody
      have hb : b ≠ DEL := fun hdel => hbody.1 hdel.symm
      rw [List.cons_append, readAttributes, if_pos hb, ih hbody.2, List.append_assoc]
      rfl

theorem readText_pair (p : Pair) (htext : DEL ∉ p.2) (r : Reading) (s : Text) :
    readText r (p.1.toString ++ p.2 ++ s) =
      readText { r.switch p.1 with
        currentString := (r.switch p.1).currentString ++ p.2 } s := by
  have hstring : p.1.toString ++ p.2 ++ s = DEL :: (p.1.body ++ DEL :: (p.2 ++ s)) := by
    rw [TextAttributes.toString]
    simp only [List.append_assoc, List.cons_append, List.nil_append]
  rw [hstring, readText, if_neg (not_not_intro rfl), readAttributes_append _ (body_not_del p.1),
    List.nil_append, ofString_body, readText_append _ htext]

theorem merge_cons (p : Pair) (pairs : List Pair) :
    merge (p :: pairs) = mergeInto p (merge pairs) := rfl

theorem mergeInto_twice (a : TextAttributes) (s t : Text) (pairs : List Pair) :
    mergeInto (a, s) (mergeInto (a, t) pairs) = mergeInto (a, s ++ t) pairs := by
  cases pairs with
  | nil => rw [mergeInto, mergeInto, mergeInto, if_pos rfl]
  | cons q pairs =>
      by_cases hq : a = q.1
      · simp only [mergeInto, if_pos hq, if_true, List.append_assoc]
      · simp only [mergeInto, if_neg hq, if_true]

theorem mergeInto_head (p : Pair) (pairs : List Pair) :
    ∃ t rest, mergeInto p pairs = (p.1, t) :: rest := by
  cases pairs with
  | nil => exact ⟨p.2, [], rfl⟩
  | cons q pairs =>
      rw [mergeInto]
      split
      · exact ⟨_, _, rfl⟩
      · exact ⟨p.2, _, rfl⟩

theorem mergeInto_other (hne : p.1 ≠ q.1) (pairs : List Pair) :
    mergeInto p (mergeInto q pairs) = p :: mergeInto q pairs := by
  obtain ⟨t, rest, hhead⟩ := mergeInto_head q pairs
  rw [hhead, mergeInto, if_neg hne]

theorem dropEmpty_text (hp : p.2 ≠ []) (pairs : List Pair) :
    dropEmpty (p :: pairs) = p :: dropEmpty pairs :=
  List.filter_cons_of_pos (decide_eq_true hp)

theorem dropEmpty_none (hp : p.2 = []) (pairs : List Pair) :
    dropEmpty (p :: pairs) = dropEmpty pairs :=
  List.filter_cons_of_neg (by simpa using hp)

def Reading.result (r : Reading) : List Pair :=
  if r.currentString ≠ [] then r.push.vec else r.vec

theorem readText_concat (pairs : List Pair) (htexts : ∀ p ∈ pairs, DEL ∉ p.2) (r : Reading) :
    (readText r (concat pairs)).result =
      r.vec ++ dropEmpty (merge ((r.currentAttr, r.currentString) :: pairs)) := by
  induction pairs generalizing r with
  | nil =>
      have hconcat : readText r (concat []) = r := rfl
      have hmerge : merge [(r.currentAttr, r.currentString)] =
          [(r.currentAttr, r.currentString)] := rfl
      rw [hconcat, hmerge, Reading.result]
      by_cases hstring : r.currentString ≠ []
      · rw [if_pos hstring, dropEmpty_text hstring]
        rfl
      · rw [if_neg hstring, dropEmpty_none (not_not.1 hstring)]
        exact (List.append_nil _).symm
  | cons p pairs ih =>
      have hconcat : concat (p :: pairs) = p.1.toString ++ p.2 ++ concat pairs :=
        List.flatMap_cons
      rw [hconcat, readText_pair p (htexts p List.mem_cons_self),
        ih fun q hq => htexts q (List.mem_cons_of_mem _ hq)]
      have hnext : (p.1, p.2) = p := rfl
      by_cases hsame : p.1 = r.currentAttr
      · have hswitch : r.switch p.1 = r := by
          rw [Reading.switch, if_neg fun h => h.1 hsame, hsame]
        rw [hswitch, merge_cons, merge_cons, merge_cons, ← hsame, ← hnext, mergeInto_twice]
      · have hother : r.currentAttr ≠ p.1 := fun heq => hsame heq.symm
        rw [merge_cons (r.currentAttr, r.currentString), merge_cons p, mergeInto_other hother]
        by_cases hstring : r.currentString ≠ []
        · have hswitch : r.switch p.1 =
              ⟨p.1, [], r.vec ++ [(r.currentAttr, r.currentString)]⟩ := by
            rw [Reading.switch, if_pos ⟨hsame, hstring⟩, Reading.push]
          rw [hswitch, dropEmpty_text hstring]
          exact List.append_assoc _ _ _
        · have hswitch : r.switch p.1 = ⟨p.1, [], r.vec⟩ := by
            rw [Reading.switch, if_neg fun h => hstring h.2, not_not.1 hstring]
          rw [hswitch, dropEmpty_none (not_not.1 hstring)]
          rfl

/-- The pairs come back, neighbours with equal attributes as one, without the empty texts. -/
theorem getAttributedText_concat (pairs : List Pair) (htexts : ∀ p ∈ pairs, DEL ∉ p.2) :
    getAttributedText (concat pairs) = dropEmpty (merge pairs) := by
  have hread := readText_concat pairs htexts ⟨textAttributes, [], []⟩
  rw [List.nil_append] at hread
  refine hread.trans ?_
  -- no text stands before the first attribute
  cases pairs with
  | nil => rfl
  | cons p pairs =>
      rw [merge_cons, merge_cons]
      by_cases hsame : textAttributes = p.1
      · have hnext : p = (textAttributes, p.2) := by rw [hsame]
        rw [hnext, mergeInto_twice]
        rfl
      · rw [mergeInto_other hsame, dropEmpty_none rfl]

def bold : TextAttributes := { textAttributes with bold := true }

def link : TextAttributes := { textAttributes with fgcolor := 4, url := [0x7F, 0x80, byte 'L'] }

theorem getAttributedText_concat_link :
    getAttributedText (concat [(bold, str "a"), (link, str "b")]) =
      dropEmpty (merge [(bold, str "a"), (link, str "b")]) :=
  getAttributedText_concat _ (by decide)

/-- Behind an attribute without text, the same attribute begins another pair. -/
theorem empty_text_between :
    getAttributedText (concat [(bold, str "a"), (link, []), (bold, str "b")]) ≠
      merge (dropEmpty [(bold, str "a"), (link, []), (bold, str "b")]) := by
  decide +kernel

end TextSpec
end Cone.TextAttributes
