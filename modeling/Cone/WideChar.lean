import Mathlib.Data.List.SplitBy

/-! # Editable text in graphemes

`widecharbuf` and `editablewidechar` of widechar.C. -/
set_option autoImplicit false
namespace Cone.WideChar

abbrev UText := List UInt32

def TAB : UInt32 := 9

section Graphemes

/-- What the locale and the Unicode tables say; `init_unicode` converts to the locale's wide
characters and back. -/
structure Locale where
  has : UInt32 → Bool
  convert : UText → UText
  wcwidth : UInt32 → Int
  unicode_grapheme_break : UInt32 → UInt32 → Bool
  convert_has : ∀ text, (∀ c ∈ text, has c = true) → convert text = text

variable (loc : Locale)

def graphemes (ustring : UText) : List UText :=
  ustring.splitBy fun first second =>
    second ≠ TAB && first ≠ TAB && !loc.unicode_grapheme_break first second

def get_unicode_substring (ustring : UText) (first_grapheme grapheme_cnt : Nat) : UText :=
  if (graphemes loc ustring).length ≤ first_grapheme then []
  else
    (ustring.drop first_grapheme).take
      (min grapheme_cnt ((graphemes loc ustring).length - first_grapheme))

def charwidth (ch : UInt32) (atcol : Nat) : Nat :=
  if ch ≠ TAB then
    if loc.wcwidth ch = -1 then 1 else (loc.wcwidth ch).toNat
  else 8 - atcol % 8

def width : Nat → UText → Nat
  | _, [] => 0
  | col, c :: g => charwidth loc c col + width (col + charwidth loc c col) g

/-- `widecharbuf::wcwidth` -/
def widths : Nat → List UText → Nat
  | _, [] => 0
  | col, g :: gs => width loc col g + widths (col + width loc col g) gs

end Graphemes

section Editable

structure Editable where
  before_insert : UText
  inserted : UText
  after_insert : UText
  deriving DecidableEq, Repr

variable (loc : Locale)

def set_contents (before after : UText) : Editable :=
  ⟨loc.convert before, [], loc.convert after⟩

def Editable.get_contents (e : Editable) : UText × UText :=
  (e.before_insert ++ e.inserted, e.after_insert)

def contents_cut (e : Editable) (cut_pos : Nat) (cut_text : UText) : Editable × UText :=
  let n := (graphemes loc e.before_insert).length
  let m := (graphemes loc e.after_insert).length
  if cut_pos = n ∧ e.inserted = [] then (e, cut_text)
  else if cut_pos < n then
    (set_contents loc (get_unicode_substring loc e.before_insert 0 cut_pos) e.after_insert,
      get_unicode_substring loc e.before_insert cut_pos (n - cut_pos))
  else if n < cut_pos then
    (set_contents loc e.before_insert
        (get_unicode_substring loc e.after_insert (cut_pos - n) (m - (cut_pos - n))),
      get_unicode_substring loc e.after_insert 0 (cut_pos - n))
  else (set_contents loc e.before_insert e.after_insert, cut_text)

def insert_to_before (e : Editable) : Editable :=
  set_contents loc e.get_contents.1 e.get_contents.2

def to_before (e : Editable) : Editable :=
  let e := insert_to_before loc e
  { e with before_insert := e.before_insert ++ e.after_insert, after_insert := [] }

def to_after (e : Editable) : Editable :=
  let e := insert_to_before loc e
  { e with before_insert := [], after_insert := e.before_insert ++ e.after_insert }

def fit : Nat → Nat → List UText → Nat × Nat × Nat
  | col, o, [] => (0, col, o)
  | col, o, g :: gs =>
    if width loc col g > o then (0, col, o)
    else
      let r := fit (col + width loc col g) (o - width loc col g) gs
      (r.1 + 1, r.2)

def to_position (e : Editable) (o : Nat) : Editable :=
  let e := insert_to_before loc e
  let r := fit loc 0 o (graphemes loc e.before_insert)
  if r.1 < (graphemes loc e.before_insert).length then
    let cut := contents_cut loc e r.1 []
    set_contents loc cut.1.get_contents.1 (cut.2 ++ cut.1.get_contents.2)
  else
    let r := fit loc r.2.1 r.2.2 (graphemes loc e.after_insert)
    let cut := contents_cut loc e r.1 []
    set_contents loc (cut.1.get_contents.1 ++ cut.2) cut.1.get_contents.2

def Editable.whole (e : Editable) : UText := e.before_insert ++ e.inserted ++ e.after_insert

def cells (e : Editable) : List UText :=
  graphemes loc e.before_insert ++ graphemes loc e.after_insert

end Editable

section Pieces
variable {loc : Locale} {t : UText} {n : Nat}

theorem flatten_graphemes (t : UText) : (graphemes loc t).flatten = t :=
  List.flatten_splitBy _ t

theorem graphemes_ne_nil {g : UText} (hg : g ∈ graphemes loc t) : g ≠ [] :=
  List.ne_nil_of_mem_splitBy hg

def Single (loc : Locale) (t : UText) : Prop := ∀ g ∈ graphemes loc t, g.length = 1

theorem length_le_flatten (gs : List UText) (hgs : ∀ g ∈ gs, g ≠ []) :
    gs.length ≤ gs.flatten.length := by
  induction gs with
  | nil => exact Nat.le_refl 0
  | cons g gs ih =>
      have hpos := List.length_pos_iff.2 (hgs g List.mem_cons_self)
      have hrest := ih fun g hg => hgs g (List.mem_cons_of_mem _ hg)
      rw [List.flatten_cons, List.length_append, List.length_cons]
      omega

theorem single_of_length (gs : List UText) (hgs : ∀ g ∈ gs, g ≠ [])
    (hlength : gs.flatten.length ≤ gs.length) : ∀ g ∈ gs, g.length = 1 := by
  induction gs with
  | nil => exact fun g hg => absurd hg List.not_mem_nil
  | cons g gs ih =>
      have hpos := List.length_pos_iff.2 (hgs g List.mem_cons_self)
      have htail : ∀ g ∈ gs, g ≠ [] := fun g hg => hgs g (List.mem_cons_of_mem _ hg)
      have hrest := length_le_flatten gs htail
      rw [List.flatten_cons, List.length_append, List.length_cons] at hlength
      intro d hd
      rcases List.mem_cons.1 hd with rfl | hd
      · omega
      · exact ih htail (by omega) d hd

theorem take_flatten (gs : List UText) (hgs : ∀ g ∈ gs, g.length = 1) (n : Nat) :
    (gs.take n).flatten = gs.flatten.take n ∧ (gs.drop n).flatten = gs.flatten.drop n := by
  induction gs generalizing n with
  | nil => simp
  | cons g gs ih =>
      obtain ⟨c, rfl⟩ := List.length_eq_one_iff.1 (hgs g List.mem_cons_self)
      cases n with
      | zero => simp
      | succ n =>
          obtain ⟨htake, hdrop⟩ := ih (fun g hg => hgs g (List.mem_cons_of_mem _ hg)) n
          simp only [List.take_succ_cons, List.drop_succ_cons, List.flatten_cons,
            List.cons_append, List.nil_append, htake, hdrop, and_self]

theorem length_graphemes_le (loc : Locale) (t : UText) : (graphemes loc t).length ≤ t.length := by
  have hle := length_le_flatten (graphemes loc t) fun g hg => graphemes_ne_nil hg
  rwa [flatten_graphemes] at hle

/-- The characters of the first graphemes are all there is only when each is one character. -/
theorem take_length_iff (loc : Locale) (t : UText) :
    t.take (graphemes loc t).length = t ↔ Single loc t := by
  constructor
  · intro hall
    have hlength := congrArg List.length hall
    rw [List.length_take] at hlength
    refine single_of_length _ (fun g hg => graphemes_ne_nil hg) ?_
    rw [flatten_graphemes]
    omega
  · intro hsingle
    have hall := (take_flatten _ hsingle (graphemes loc t).length).1
    rw [List.take_length, flatten_graphemes] at hall
    exact hall.symm

theorem Single.take (hsingle : Single loc t) (n : Nat) :
    ((graphemes loc t).take n).flatten = t.take n := by
  rw [(take_flatten _ hsingle n).1, flatten_graphemes]

theorem Single.drop (hsingle : Single loc t) (n : Nat) :
    ((graphemes loc t).drop n).flatten = t.drop n := by
  rw [(take_flatten _ hsingle n).2, flatten_graphemes]

theorem substring_take (loc : Locale) (t : UText) (n : Nat) :
    get_unicode_substring loc t 0 n = t.take (min n (graphemes loc t).length) := by
  rw [get_unicode_substring]
  split
  · rename_i hle
    have hzero : (graphemes loc t).length = 0 := by omega
    rw [hzero, Nat.min_zero, List.take_zero]
  · rw [Nat.sub_zero, List.drop_zero]

theorem substring_drop (loc : Locale) (t : UText) (n : Nat) :
    get_unicode_substring loc t n ((graphemes loc t).length - n) =
      (t.take (graphemes loc t).length).drop n := by
  rw [get_unicode_substring, List.drop_take]
  split
  · rename_i hle
    have hzero : (graphemes loc t).length - n = 0 := by omega
    rw [hzero, List.take_zero]
  · rw [Nat.min_self]

/-- The two sides of a cut give back as many characters as there are graphemes. -/
theorem substring_parts (loc : Locale) (t : UText) (n : Nat) :
    get_unicode_substring loc t 0 n ++
        get_unicode_substring loc t n ((graphemes loc t).length - n) =
      t.take (graphemes loc t).length := by
  rw [substring_take, substring_drop]
  have htake : t.take (min n (graphemes loc t).length) =
      (t.take (graphemes loc t).length).take n := List.take_take.symm
  rw [htake, List.take_append_drop]

theorem substring_iff (loc : Locale) (t : UText) (n : Nat) :
    (get_unicode_substring loc t 0 n = ((graphemes loc t).take n).flatten ∧
        get_unicode_substring loc t n ((graphemes loc t).length - n) =
          ((graphemes loc t).drop n).flatten) ↔ Single loc t := by
  constructor
  · rintro ⟨htake, hdrop⟩
    rw [← take_length_iff, ← substring_parts loc t n, htake, hdrop, ← List.flatten_append,
      List.take_append_drop, flatten_graphemes]
  · intro hsingle
    have hlength : (graphemes loc t).length = t.length := by
      have hall := congrArg List.length ((take_length_iff loc t).2 hsingle)
      have hle := length_graphemes_le loc t
      rw [List.length_take] at hall
      omega
    refine ⟨?_, ?_⟩
    · rw [substring_take, hsingle.take, hlength, ← List.take_take, List.take_length]
    · rw [substring_drop, (take_length_iff loc t).2 hsingle, hsingle.drop]

end Pieces

section Widths
variable {loc : Locale}

theorem widths_append (col : Nat) (gs hs : List UText) :
    widths loc col (gs ++ hs) = widths loc col gs + widths loc (col + widths loc col gs) hs := by
  induction gs generalizing col with
  | nil => simp [widths]
  | cons g gs ih => rw [List.cons_append, widths, widths, ih, Nat.add_assoc, Nat.add_assoc]

structure Longest (loc : Locale) (col o : Nat) (gs : List UText) (n : Nat) : Prop where
  le : n ≤ gs.length
  fits : widths loc col (gs.take n) ≤ o
  most : ∀ m, n < m → m ≤ gs.length → o < widths loc col (gs.take m)

theorem fit_longest (col o : Nat) (gs : List UText) :
    Longest loc col o gs (fit loc col o gs).1 ∧
      (fit loc col o gs).2 = (col + widths loc col (gs.take (fit loc col o gs).1),
        o - widths loc col (gs.take (fit loc col o gs).1)) := by
  induction gs generalizing col o with
  | nil =>
      refine ⟨⟨Nat.le_refl 0, Nat.zero_le o, fun m hm hle => ?_⟩, rfl⟩
      have hpos : 0 < m := hm
      rw [List.length_nil] at hle
      omega
  | cons g gs ih =>
      rw [fit]
      by_cases hwide : width loc col g > o
      · rw [if_pos hwide]
        refine ⟨⟨Nat.zero_le _, Nat.zero_le o, fun m hm _ => ?_⟩, rfl⟩
        obtain ⟨m, rfl⟩ := Nat.exists_eq_succ_of_ne_zero (by omega : m ≠ 0)
        rw [List.take_succ_cons, widths]
        omega
      · obtain ⟨⟨hle, hfits, hmost⟩, hleft⟩ := ih (col + width loc col g) (o - width loc col g)
        rw [if_neg hwide]
        refine ⟨⟨?_, ?_, ?_⟩, ?_⟩
        · rw [List.length_cons]
          exact Nat.succ_le_succ hle
        · rw [List.take_succ_cons, widths]
          omega
        · dsimp only
          intro m hm hlength
          obtain ⟨m, rfl⟩ := Nat.exists_eq_succ_of_ne_zero (by omega : m ≠ 0)
          rw [List.length_cons] at hlength
          have hlonger := hmost m (by omega) (by omega)
          rw [List.take_succ_cons, widths]
          omega
        · dsimp only
          rw [hleft, List.take_succ_cons, widths, Nat.add_assoc, Nat.sub_sub]

/-- Only one number of graphemes is the most. -/
theorem Longest.unique {col o n m : Nat} {gs : List UText} (hn : Longest loc col o gs n)
    (hm : Longest loc col o gs m) : n = m := by
  by_contra hne
  rcases Nat.lt_or_gt_of_ne hne with hlt | hlt
  · have hwide := hn.most m hlt hm.le
    have hfits := hm.fits
    omega
  · have hwide := hm.most n hlt hn.le
    have hfits := hn.fits
    omega

/-- Graphemes that all fit, and those behind them. -/
theorem Longest.append {o n : Nat} {gs hs : List UText} (hgs : widths loc 0 gs ≤ o)
    (hn : Longest loc (widths loc 0 gs) (o - widths loc 0 gs) hs n) :
    Longest loc 0 o (gs ++ hs) (gs.length + n) := by
  have htake (m : Nat) : (gs ++ hs).take (gs.length + m) = gs ++ hs.take m :=
    List.take_length_add_append m
  refine ⟨?_, ?_, ?_⟩
  · rw [List.length_append]
    have hle := hn.le
    omega
  · have hfits := hn.fits
    rw [htake, widths_append, Nat.zero_add]
    omega
  · intro m hm hle
    rw [List.length_append] at hle
    obtain ⟨k, rfl⟩ : ∃ k, m = gs.length + k := ⟨m - gs.length, by omega⟩
    have hmost := hn.most k (by omega) (by omega)
    rw [htake, widths_append, Nat.zero_add]
    omega

end Widths

section Spec
variable {loc : Locale} {e : Editable} {before after : UText}

def Shown (loc : Locale) (text : UText) : Prop := ∀ c ∈ text, loc.has c = true

theorem Shown.sublist {t u : UText} (ht : Shown loc t) (hu : u.Sublist t) : Shown loc u :=
  fun c hc => ht c (hu.subset hc)

theorem Shown.append {t u : UText} (ht : Shown loc t) (hu : Shown loc u) : Shown loc (t ++ u) :=
  fun c hc => (List.mem_append.1 hc).elim (ht c) (hu c)

theorem set_contents_shown (hbefore : Shown loc before) (hafter : Shown loc after) :
    set_contents loc before after = ⟨before, [], after⟩ := by
  rw [set_contents, loc.convert_has before hbefore, loc.convert_has after hafter]

theorem substring_sublist (loc : Locale) (t : UText) (n k : Nat) :
    (get_unicode_substring loc t n k).Sublist t := by
  rw [get_unicode_substring]
  split
  · exact List.nil_sublist t
  · exact (List.take_sublist _ _).trans (List.drop_sublist _ _)

theorem insert_to_before_shown (hshown : Shown loc e.whole) :
    insert_to_before loc e = ⟨e.before_insert ++ e.inserted, [], e.after_insert⟩ :=
  set_contents_shown (hshown.sublist (List.sublist_append_left _ _))
    (hshown.sublist (List.sublist_append_right _ _))

theorem cut_before (hbefore : Shown loc before) (hafter : Shown loc after) {k : Nat}
    (hk : k < (graphemes loc before).length) (cut_text : UText) :
    contents_cut loc ⟨before, [], after⟩ k cut_text =
      (⟨get_unicode_substring loc before 0 k, [], after⟩,
        get_unicode_substring loc before k ((graphemes loc before).length - k)) := by
  rw [contents_cut]
  dsimp only
  rw [if_neg fun h => by omega, if_pos hk,
    set_contents_shown (hbefore.sublist (substring_sublist loc before 0 k)) hafter]

theorem cut_nothing (before after cut_text : UText) :
    contents_cut loc ⟨before, [], after⟩ (graphemes loc before).length cut_text =
      (⟨before, [], after⟩, cut_text) := by
  rw [contents_cut]
  dsimp only
  rw [if_pos ⟨rfl, rfl⟩]

theorem cut_after (hbefore : Shown loc before) (hafter : Shown loc after) {k : Nat}
    (hk : (graphemes loc before).length < k) (cut_text : UText) :
    contents_cut loc ⟨before, [], after⟩ k cut_text =
      (⟨before, [], get_unicode_substring loc after (k - (graphemes loc before).length)
          ((graphemes loc after).length - (k - (graphemes loc before).length))⟩,
        get_unicode_substring loc after 0 (k - (graphemes loc before).length)) := by
  rw [contents_cut]
  dsimp only
  rw [if_neg fun h => by omega, if_neg (by omega), if_pos hk,
    set_contents_shown hbefore (hafter.sublist (substring_sublist loc after _ _))]

def Cuts (loc : Locale) (e : Editable) (cut_pos : Nat) : Prop :=
  let n := (graphemes loc e.before_insert).length
  contents_cut loc e cut_pos [] =
    (⟨((cells loc e).take (min cut_pos n)).flatten, [],
        ((cells loc e).drop (max cut_pos n)).flatten⟩,
      (((cells loc e).take (max cut_pos n)).drop (min cut_pos n)).flatten)

theorem cuts_iff (hbefore : Shown loc before) (hafter : Shown loc after) (cut_pos : Nat) :
    Cuts loc ⟨before, [], after⟩ cut_pos ↔
      (cut_pos < (graphemes loc before).length → Single loc before) ∧
        ((graphemes loc before).length < cut_pos → Single loc after) := by
  have htake (k : Nat) (hk : k ≤ (graphemes loc before).length) :
      (cells loc ⟨before, [], after⟩).take k = (graphemes loc before).take k :=
    List.take_append_of_le_length hk
  have hdrop (k : Nat) :
      (cells loc ⟨before, [], after⟩).drop ((graphemes loc before).length + k) =
        (graphemes loc after).drop k := List.drop_length_add_append k
  have hlonger (k : Nat) :
      (cells loc ⟨before, [], after⟩).take ((graphemes loc before).length + k) =
        graphemes loc before ++ (graphemes loc after).take k := List.take_length_add_append k
  have hnone := hdrop 0
  rw [Nat.add_zero, List.drop_zero] at hnone
  rcases Nat.lt_trichotomy cut_pos (graphemes loc before).length with hlt | heq | hgt
  · have hle : cut_pos ≤ (graphemes loc before).length := Nat.le_of_lt hlt
    rw [Cuts]
    dsimp only
    rw [cut_before hbefore hafter hlt, Nat.min_eq_left hle, Nat.max_eq_right hle, htake _ hle,
      htake _ (Nat.le_refl _), hnone, List.take_length, flatten_graphemes]
    constructor
    · intro hcut
      obtain ⟨he, hcut⟩ := Prod.mk.inj hcut
      have hsingle := (substring_iff loc before cut_pos).1
        ⟨congrArg Editable.before_insert he, hcut⟩
      exact ⟨fun _ => hsingle, fun h => by omega⟩
    · rintro ⟨hsingle, -⟩
      obtain ⟨hhead, htail⟩ := (substring_iff loc before cut_pos).2 (hsingle hlt)
      rw [hhead, htail]
  · rw [heq]
    refine iff_of_true ?_ ⟨fun h => absurd h (Nat.lt_irrefl _), fun h => absurd h (Nat.lt_irrefl _)⟩
    rw [Cuts]
    dsimp only
    rw [cut_nothing, Nat.min_self, Nat.max_self, htake _ (Nat.le_refl _), hnone, List.take_length,
      flatten_graphemes, flatten_graphemes, List.drop_length]
    rfl
  · obtain ⟨k, rfl⟩ : ∃ k, cut_pos = (graphemes loc before).length + k :=
      ⟨cut_pos - (graphemes loc before).length, by omega⟩
    have hle : (graphemes loc before).length ≤ (graphemes loc before).length + k :=
      Nat.le_add_right _ _
    rw [Cuts]
    dsimp only
    rw [cut_after hbefore hafter hgt, Nat.min_eq_right hle, Nat.max_eq_left hle, hdrop, hlonger,
      htake _ (Nat.le_refl _), List.take_length, flatten_graphemes, List.drop_left,
      Nat.add_sub_cancel_left]
    constructor
    · intro hcut
      obtain ⟨he, hcut⟩ := Prod.mk.inj hcut
      have hsingle := (substring_iff loc after k).1
        ⟨hcut, congrArg Editable.after_insert he⟩
      exact ⟨fun h => by omega, fun _ => hsingle⟩
    · rintro ⟨-, hsingle⟩
      obtain ⟨hhead, htail⟩ := (substring_iff loc after k).2 (hsingle hgt)
      rw [hhead, htail]

/-- What the header promises of `to_position`: no character is lost, and the most graphemes that
fit stand before the insertion point. -/
def Positions (loc : Locale) (e : Editable) (o : Nat) : Prop :=
  (to_position loc e o).whole = e.whole ∧
    ∃ n, Longest loc 0 o (cells loc (insert_to_before loc e)) n ∧
      (to_position loc e o).inserted = [] ∧
      (to_position loc e o).before_insert =
        ((cells loc (insert_to_before loc e)).take n).flatten

/-- When that holds, of a value with nothing pending. -/
def PositionFits (loc : Locale) (before after : UText) (o : Nat) : Prop :=
  Single loc before ∧
    (widths loc 0 (graphemes loc before) ≤ o →
      Longest loc (widths loc 0 (graphemes loc before))
          (o - widths loc 0 (graphemes loc before)) (graphemes loc after) 0 ∨
        before = [] ∧ Single loc after)

theorem Longest.of_short {o k : Nat} {gs : List UText} (hk : Longest loc 0 o gs k)
    (hshort : k < gs.length) (hs : List UText) : Longest loc 0 o (gs ++ hs) k := by
  have htake {m : Nat} (hm : m ≤ gs.length) : (gs ++ hs).take m = gs.take m :=
    List.take_append_of_le_length hm
  refine ⟨?_, ?_, ?_⟩
  · rw [List.length_append]
    omega
  · rw [htake hk.le]
    exact hk.fits
  · intro m hm _
    by_cases hle : m ≤ gs.length
    · rw [htake hle]
      exact hk.most m hm hle
    · have hall := hk.most gs.length hshort (Nat.le_refl _)
      have hlonger : (gs ++ hs).take m = gs ++ hs.take (m - gs.length) := by
        rw [List.take_append, List.take_of_length_le (by omega)]
      rw [List.take_length] at hall
      rw [hlonger, widths_append]
      omega

theorem flatten_take_eq_nil {t : UText} {k : Nat} (hk : k ≤ (graphemes loc t).length) :
    ((graphemes loc t).take k).flatten = [] ↔ k = 0 := by
  constructor
  · intro hnil
    have hle := length_le_flatten ((graphemes loc t).take k) fun g hg =>
      graphemes_ne_nil (List.mem_of_mem_take hg)
    rw [hnil, List.length_take, List.length_nil] at hle
    omega
  · rintro rfl
    rfl

theorem insert_to_before_nothing (hbefore : Shown loc before) (hafter : Shown loc after) :
    insert_to_before loc ⟨before, [], after⟩ = ⟨before, [], after⟩ := by
  have hinsert : insert_to_before loc ⟨before, [], after⟩ =
      set_contents loc (before ++ []) after := rfl
  rw [hinsert, List.append_nil, set_contents_shown hbefore hafter]

theorem whole_nothing (before after : UText) :
    (Editable.mk before [] after).whole = before ++ after := by
  rw [Editable.whole, List.append_nil]

theorem positions_before (hbefore : Shown loc before) (hafter : Shown loc after) (o : Nat)
    (hk : (fit loc 0 o (graphemes loc before)).1 < (graphemes loc before).length) :
    Positions loc ⟨before, [], after⟩ o ↔ Single loc before := by
  obtain ⟨hlongest, -⟩ := @fit_longest loc 0 o (graphemes loc before)
  have hparts := substring_parts loc before (fit loc 0 o (graphemes loc before)).1
  have hposition : to_position loc ⟨before, [], after⟩ o =
      ⟨get_unicode_substring loc before 0 (fit loc 0 o (graphemes loc before)).1, [],
        get_unicode_substring loc before (fit loc 0 o (graphemes loc before)).1
          ((graphemes loc before).length - (fit loc 0 o (graphemes loc before)).1) ++ after⟩ := by
    rw [to_position, insert_to_before_nothing hbefore hafter]
    dsimp only
    rw [if_pos hk, cut_before hbefore hafter hk]
    dsimp only [Editable.get_contents]
    rw [List.append_nil, set_contents_shown (hbefore.sublist (substring_sublist loc _ _ _))
      ((hbefore.sublist (substring_sublist loc _ _ _)).append hafter)]
  have hwhole : (to_position loc ⟨before, [], after⟩ o).whole =
      before.take (graphemes loc before).length ++ after := by
    rw [hposition, whole_nothing, ← List.append_assoc, hparts]
  rw [Positions, hwhole, whole_nothing, insert_to_before_nothing hbefore hafter, hposition,
    List.append_left_inj, take_length_iff]
  constructor
  · exact fun h => h.1
  · intro hsingle
    refine ⟨hsingle, _, hlongest.of_short hk (graphemes loc after), rfl, ?_⟩
    dsimp only
    rw [((substring_iff loc before _).2 hsingle).1]
    exact congrArg List.flatten (List.take_append_of_le_length hlongest.le).symm

theorem positions_after (hbefore : Shown loc before) (hafter : Shown loc after) (o : Nat)
    (hk : ¬ (fit loc 0 o (graphemes loc before)).1 < (graphemes loc before).length) :
    Positions loc ⟨before, [], after⟩ o ↔ PositionFits loc before after o := by
  obtain ⟨hlongest, hleft⟩ := @fit_longest loc 0 o (graphemes loc before)
  have hall : (fit loc 0 o (graphemes loc before)).1 = (graphemes loc before).length := by
    have hle := hlongest.le
    omega
  have hfits := hlongest.fits
  rw [hall, List.take_length] at hfits
  rw [hall, List.take_length, Nat.zero_add] at hleft
  -- the graphemes behind the insertion point that fit
  obtain ⟨hc, -⟩ := @fit_longest loc (widths loc 0 (graphemes loc before))
    (o - widths loc 0 (graphemes loc before)) (graphemes loc after)
  have hposition : to_position loc ⟨before, [], after⟩ o =
      let cut := contents_cut loc ⟨before, [], after⟩
        (fit loc (widths loc 0 (graphemes loc before))
          (o - widths loc 0 (graphemes loc before)) (graphemes loc after)).1 []
      set_contents loc (cut.1.get_contents.1 ++ cut.2) cut.1.get_contents.2 := by
    rw [to_position, insert_to_before_nothing hbefore hafter]
    dsimp only
    rw [if_neg hk, hleft]
  generalize (fit loc (widths loc 0 (graphemes loc before))
    (o - widths loc 0 (graphemes loc before)) (graphemes loc after)).1 = c at hc hposition
  have hwanted : ((cells loc ⟨before, [], after⟩).take
      ((graphemes loc before).length + c)).flatten =
        before ++ ((graphemes loc after).take c).flatten := by
    rw [cells, List.take_length_add_append, List.flatten_append, flatten_graphemes]
  have hpositions : Positions loc ⟨before, [], after⟩ o ↔
      (to_position loc ⟨before, [], after⟩ o).whole = before ++ after ∧
        (to_position loc ⟨before, [], after⟩ o).inserted = [] ∧
        (to_position loc ⟨before, [], after⟩ o).before_insert =
          before ++ ((graphemes loc after).take c).flatten := by
    have hcells : Longest loc 0 o (cells loc ⟨before, [], after⟩)
        ((graphemes loc before).length + c) := Longest.append hfits hc
    rw [Positions, whole_nothing, insert_to_before_nothing hbefore hafter, ← hwanted]
    refine and_congr_right fun _ => ⟨?_, fun h => ⟨_, hcells, h⟩⟩
    rintro ⟨n, hn, h⟩
    rwa [hn.unique hcells] at h
  have hzero : Longest loc (widths loc 0 (graphemes loc before))
      (o - widths loc 0 (graphemes loc before)) (graphemes loc after) 0 ↔ c = 0 :=
    ⟨fun h => hc.unique h, fun h => h ▸ hc⟩
  have hnil : before = [] ↔ (graphemes loc before).length = 0 := by
    rw [List.length_eq_zero_iff, graphemes, List.splitBy_eq_nil]
  rw [hpositions, PositionFits, hzero]
  rcases Nat.lt_trichotomy c (graphemes loc before).length with hlt | heq | hgt
  · -- the cut is made before the insertion point, and taken back
    have hresult : to_position loc ⟨before, [], after⟩ o =
        ⟨before.take (graphemes loc before).length, [], after⟩ := by
      rw [hposition, cut_before hbefore hafter hlt]
      dsimp only [Editable.get_contents]
      rw [List.append_nil, substring_parts, set_contents_shown
        (hbefore.sublist (List.take_sublist _ _)) hafter]
    rw [hresult, whole_nothing, List.append_left_inj, take_length_iff]
    dsimp only
    have hne : before ≠ [] := by
      rw [Ne, hnil]
      omega
    constructor
    · rintro ⟨hsingle, -, hplace⟩
      rw [(take_length_iff loc before).2 hsingle, List.self_eq_append_right,
        flatten_take_eq_nil hc.le] at hplace
      exact ⟨hsingle, fun _ => Or.inl hplace⟩
    · rintro ⟨hsingle, hplace⟩
      refine ⟨hsingle, rfl, ?_⟩
      rw [(hplace hfits).resolve_right fun h => hne h.1, (take_length_iff loc before).2 hsingle,
        List.take_zero, List.flatten_nil, List.append_nil]
  · -- nothing is cut
    have hresult : to_position loc ⟨before, [], after⟩ o = ⟨before, [], after⟩ := by
      rw [hposition, heq, cut_nothing]
      dsimp only [Editable.get_contents]
      rw [List.append_nil, List.append_nil, set_contents_shown hbefore hafter]
    rw [hresult, whole_nothing]
    dsimp only
    rw [List.self_eq_append_right, flatten_take_eq_nil hc.le]
    constructor
    · rintro ⟨-, -, hplace⟩
      refine ⟨?_, fun _ => Or.inl hplace⟩
      rw [hnil.2 (by omega)]
      exact fun g hg => absurd hg List.not_mem_nil
    · rintro ⟨-, hplace⟩
      refine ⟨rfl, rfl, ?_⟩
      rcases hplace hfits with hplace | ⟨hplace, -⟩
      · exact hplace
      · rw [heq]
        exact hnil.1 hplace
  · -- the cut is made too early behind the insertion point
    obtain ⟨k, hk⟩ : ∃ k, k = c - (graphemes loc before).length := ⟨_, rfl⟩
    have hresult : to_position loc ⟨before, [], after⟩ o =
        ⟨before ++ get_unicode_substring loc after 0 k, [],
          get_unicode_substring loc after k ((graphemes loc after).length - k)⟩ := by
      rw [hposition, cut_after hbefore hafter hgt, ← hk]
      dsimp only [Editable.get_contents]
      rw [List.append_nil, set_contents_shown
        (hbefore.append (hafter.sublist (substring_sublist loc _ _ _)))
        (hafter.sublist (substring_sublist loc _ _ _))]
    rw [hresult, whole_nothing, List.append_assoc, substring_parts, List.append_right_inj,
      take_length_iff]
    dsimp only
    rw [List.append_right_inj]
    constructor
    · rintro ⟨hsingle, -, hplace⟩
      have hlength := congrArg List.length hplace
      have hle := length_graphemes_le loc after
      have hcle := hc.le
      rw [((substring_iff loc after k).2 hsingle).1, hsingle.take, hsingle.take,
        List.length_take, List.length_take] at hlength
      have hempty : before = [] := hnil.2 (by omega)
      refine ⟨?_, fun _ => Or.inr ⟨hempty, hsingle⟩⟩
      rw [hempty]
      exact fun g hg => absurd hg List.not_mem_nil
    · rintro ⟨-, hplace⟩
      obtain ⟨hempty, hsingle⟩ := (hplace hfits).resolve_left (by omega)
      have hzero := hnil.1 hempty
      refine ⟨hsingle, rfl, ?_⟩
      rw [((substring_iff loc after k).2 hsingle).1, hk, hzero, Nat.sub_zero]

theorem positions_iff (hbefore : Shown loc before) (hafter : Shown loc after) (o : Nat) :
    Positions loc ⟨before, [], after⟩ o ↔ PositionFits loc before after o := by
  by_cases hk : (fit loc 0 o (graphemes loc before)).1 < (graphemes loc before).length
  · obtain ⟨hlongest, -⟩ := @fit_longest loc 0 o (graphemes loc before)
    have hwide := hlongest.most _ hk (Nat.le_refl _)
    rw [List.take_length] at hwide
    rw [positions_before hbefore hafter o hk, PositionFits]
    exact ⟨fun h => ⟨h, fun hfits => by omega⟩, fun h => h.1⟩
  · exact positions_after hbefore hafter o hk

/-- What the header says of the operations. -/
structure Conforms (loc : Locale) (e : Editable) (o cut_pos : Nat) : Prop where
  contents : ∀ before after, Shown loc before → Shown loc after →
    (set_contents loc before after).get_contents = (before, after)
  insert_to_before : (insert_to_before loc e).whole = e.whole
  to_before : (to_before loc e).whole = e.whole
  to_after : (to_after loc e).whole = e.whole
  to_position : Positions loc e o
  contents_cut : e.inserted = [] → Cuts loc e cut_pos

def accents : Locale where
  has _ := true
  convert text := text
  wcwidth c := if c = 0x301 then 0 else 1
  unicode_grapheme_break _ second := second ≠ 0x301
  convert_has _ _ := rfl

end Spec
end Cone.WideChar
