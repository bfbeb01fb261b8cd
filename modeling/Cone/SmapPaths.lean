import Mathlib.Data.List.TakeWhile
import Cone.Smap
import Cone.Utf7RoundTrip

/-! # The words of SMAP folders

`words2path` and `path2words` of smap.C, and the words of a line that `quoteSMAP` quotes.  iconv is
`utf8ToUcs2`, with the pieces that it hands over, and `ucs2ToUtf8`. -/
set_option autoImplicit false
namespace Cone.SmapPaths

open Cone.Ctype Cone.Smap Cone.Utf7 Cone.Utf7RoundTrip

def SLASH : UInt8 := byte '/'

section Paths
variable (utf8ToUcs2 : Text → List (List UInt16)) (ucs2ToUtf8 : List UInt16 → Text)

/-- `mail::iconvert::convert` into `x-imap-modutf7 " /"` -/
def convert (word : Text) : Text := toImap [SP, SLASH] (utf8ToUcs2 word)

/-- `mail::iconvert::convert` from `x-imap-modutf7` -/
def convertBack (component : Text) : Text := ucs2ToUtf8 (fromImap [component]).2

def words2path (w : List Text) : Text :=
  w.foldl (fun path word =>
    (if path.length > 0 then path ++ [SLASH] else path) ++ convert utf8ToUcs2 word) []

def components (path : Text) : List Text :=
  match path with
  | [] => []
  | c :: rest =>
    (c :: rest).takeWhile (· ≠ SLASH) ::
      components (((c :: rest).dropWhile (· ≠ SLASH)).drop 1)
  termination_by path.length
  decreasing_by
    have h := (List.dropWhile_suffix (· ≠ SLASH) (l := c :: rest)).length_le
    simp only [List.length_drop, List.length_cons] at h ⊢
    omega

def path2words (path : Text) : List Text :=
  let words := (components path).map (convertBack ucs2ToUtf8)
  if words = [] then [[]] else words

end Paths

section Quotes

def quoteSMAP (s : Text) : Text :=
  byte '"' :: (s.flatMap fun c => if c = byte '"' then [byte '"', c] else [c]) ++ [byte '"']

def quotedLine (words : List Text) : Text := [SP].intercalate (words.map quoteSMAP)

end Quotes

section Munged
variable {p : ToUtf7}

def NoSlash (p : ToUtf7) : Prop :=
  SLASH ∈ p.smapmunge ∧ SLASH ∉ p.out ∧ SLASH ∉ p.utf7encodebuf

theorem slash_ne_sextet (n : Nat) : SLASH ≠ mbase64Char (n % 64) := by
  have hall : ∀ n < 64, SLASH ≠ mbase64Char n := by decide +kernel
  exact hall (n % 64) (Nat.mod_lt n (by decide))

theorem NoSlash.encodeFlush (h : NoSlash p) : NoSlash (encodeFlush p) :=
  ⟨h.1, fun mem => (List.mem_append.1 mem).elim h.2.1 h.2.2, List.not_mem_nil⟩

theorem NoSlash.encodeAdd (h : NoSlash p) {c : UInt8} (hc : SLASH ≠ c) :
    NoSlash (encodeAdd p c) := by
  have hadd {q : ToUtf7} (hq : NoSlash q) :
      NoSlash { q with utf7encodebuf := q.utf7encodebuf ++ [c] } :=
    ⟨hq.1, hq.2.1, fun mem =>
      (List.mem_append.1 mem).elim hq.2.2 fun mem => hc (List.mem_singleton.1 mem)⟩
  rw [Utf7.encodeAdd]
  split
  · exact hadd h.encodeFlush
  · exact hadd h

theorem NoSlash.utf7off (h : NoSlash p) : NoSlash (utf7off p) := by
  have hoff : NoSlash { p with utfmode := false } := h
  rw [Utf7.utf7off]
  split
  · exact h
  · dsimp only
    split
    · exact (hoff.encodeAdd (slash_ne_sextet _)).encodeAdd (by decide)
    · exact hoff.encodeAdd (by decide)

theorem NoSlash.emitLoop (h : NoSlash p) (fuel : Nat) : NoSlash (emitLoop fuel p) := by
  induction fuel generalizing p with
  | zero => exact h
  | succ fuel ih =>
      rw [Utf7.emitLoop]
      split
      · have hcount : NoSlash { p with utf7bitcount := p.utf7bitcount - 6 } := h
        exact ih (hcount.encodeAdd (slash_ne_sextet _))
      · exact h

theorem NoSlash.convertBits (h : NoSlash p) (utext : UInt16) : NoSlash (convertBits p utext) := by
  have hbits : NoSlash { p with
      utf7bits := (p.utf7bits * 2 ^ 16 + utext.toNat) % 2 ^ 32
      utf7bitcount := p.utf7bitcount + 16 } := h
  exact hbits.emitLoop _

theorem NoSlash.convertUnit (h : NoSlash p) (utext : UInt16) : NoSlash (convertUnit p utext) := by
  rw [Utf7.convertUnit]
  split
  · rename_i hplain
    have hslash : SLASH ≠ utext.toUInt8 := by
      rintro heq
      rw [isPlain, ← heq, List.contains_iff_mem.2 h.1] at hplain
      simp at hplain
    dsimp only
    split
    · exact (h.utf7off.encodeAdd hslash).encodeAdd (by decide)
    · exact h.utf7off.encodeAdd hslash
  · split
    · have hstart : NoSlash { p with utfmode := true, utf7bitcount := 0 } := h
      exact (hstart.encodeAdd (by decide)).convertBits utext
    · exact h.convertBits utext

theorem slash_not_mem_toImap (texts : List (List UInt16)) : SLASH ∉ toImap [SP, SLASH] texts := by
  have hstart : NoSlash (ToUtf7.init [SP, SLASH]) := by
    refine ⟨?_, List.not_mem_nil, List.not_mem_nil⟩
    decide
  have hunits (us : List UInt16) {p : ToUtf7} (h : NoSlash p) : NoSlash (doConvertToutf7 p us) := by
    induction us generalizing p with
    | nil => exact h
    | cons u us ih => exact ih (h.convertUnit u)
  have hall {p : ToUtf7} (h : NoSlash p) : NoSlash (texts.foldl doConvertToutf7 p) := by
    induction texts generalizing p with
    | nil => exact h
    | cons us texts ih => exact ih (hunits us h)
  exact (hall hstart).utf7off.encodeFlush.2.1

end Munged

section PathsSpec
variable {utf8ToUcs2 : Text → List (List UInt16)} {ucs2ToUtf8 : List UInt16 → Text}
variable {w : List Text}

theorem slash_not_mem_convert (word : Text) : SLASH ∉ convert utf8ToUcs2 word :=
  slash_not_mem_toImap _

theorem components_last {a : Text} (ha : SLASH ∉ a) (hne : a ≠ []) : components a = [a] := by
  have hall : ∀ c ∈ a, decide (c ≠ SLASH) = true := fun c mem =>
    decide_eq_true fun heq => ha (heq ▸ mem)
  cases a with
  | nil => exact absurd rfl hne
  | cons c a =>
      rw [components, List.takeWhile_eq_self_iff.2 hall, List.dropWhile_eq_nil_iff.2 hall]
      rw [List.drop_nil, components]

theorem components_slash {a : Text} (ha : SLASH ∉ a) (rest : Text) :
    components (a ++ SLASH :: rest) = a :: components rest := by
  have hall : ∀ c ∈ a, decide (c ≠ SLASH) = true := fun c mem =>
    decide_eq_true fun heq => ha (heq ▸ mem)
  have htake : (a ++ SLASH :: rest).takeWhile (· ≠ SLASH) = a := by
    rw [List.takeWhile_append_of_pos hall, List.takeWhile_cons_of_neg (by simp), List.append_nil]
  have hdrop : (a ++ SLASH :: rest).dropWhile (· ≠ SLASH) = SLASH :: rest := by
    rw [List.dropWhile_append_of_pos hall, List.dropWhile_cons_of_neg (by simp)]
  cases hpath : a ++ SLASH :: rest with
  | nil => simp at hpath
  | cons c path =>
      rw [components, ← hpath, htake, hdrop]
      rfl

/-- What iconv gives back. -/
def Returned (utf8ToUcs2 : Text → List (List UInt16)) (ucs2ToUtf8 : List UInt16 → Text)
    (word : Text) : Prop :=
  word ≠ [] ∧ ucs2ToUtf8 (utf8ToUcs2 word).flatten = word

instance (word : Text) : Decidable (Returned utf8ToUcs2 ucs2ToUtf8 word) :=
  inferInstanceAs (Decidable (_ ∧ _))

theorem convertBack_convert {word : Text} (h : Returned utf8ToUcs2 ucs2ToUtf8 word) :
    convertBack ucs2ToUtf8 (convert utf8ToUcs2 word) = word := by
  rw [convertBack, convert, fromImap_toImap List.flatten_singleton]
  exact h.2

theorem convert_ne_nil (hempty : ucs2ToUtf8 [] = []) {word : Text}
    (h : Returned utf8ToUcs2 ucs2ToUtf8 word) : convert utf8ToUcs2 word ≠ [] := by
  intro hnil
  have hback := convertBack_convert h
  rw [hnil] at hback
  exact h.1 (hback.symm.trans hempty)

theorem foldl_words {path : Text} (hpath : path ≠ []) (w : List Text) :
    w.foldl (fun path word =>
        (if path.length > 0 then path ++ [SLASH] else path) ++ convert utf8ToUcs2 word) path =
      path ++ w.flatMap fun word => SLASH :: convert utf8ToUcs2 word := by
  induction w generalizing path with
  | nil => exact (List.append_nil path).symm
  | cons word w ih =>
      have hlen : path.length > 0 := List.length_pos_iff.2 hpath
      rw [List.foldl_cons, if_pos hlen, ih (by simp), List.flatMap_cons]
      simp only [List.append_assoc, List.cons_append, List.nil_append]

theorem components_words (hempty : ucs2ToUtf8 [] = [])
    (hw : ∀ word ∈ w, Returned utf8ToUcs2 ucs2ToUtf8 word) {a : Text} (ha : SLASH ∉ a)
    (hne : a ≠ []) :
    components (a ++ w.flatMap fun word => SLASH :: convert utf8ToUcs2 word) =
      a :: w.map (convert utf8ToUcs2) := by
  induction w generalizing a with
  | nil => rw [List.flatMap_nil, List.append_nil, components_last ha hne]; rfl
  | cons word w ih =>
      have hword := hw word List.mem_cons_self
      rw [List.flatMap_cons, List.cons_append, components_slash ha,
        ih (fun v mem => hw v (List.mem_cons_of_mem word mem)) (slash_not_mem_convert word)
          (convert_ne_nil hempty hword)]
      rfl

theorem path2words_words2path (hempty : ucs2ToUtf8 [] = []) (hne : w ≠ [])
    (hw : ∀ word ∈ w, Returned utf8ToUcs2 ucs2ToUtf8 word) :
    path2words ucs2ToUtf8 (words2path utf8ToUcs2 w) = w := by
  cases w with
  | nil => exact absurd rfl hne
  | cons word w =>
      have hword := convert_ne_nil hempty (hw word List.mem_cons_self)
      have hback : (word :: w).map (convertBack ucs2ToUtf8 ∘ convert utf8ToUcs2) = word :: w :=
        (List.map_congr_left fun v mem => convertBack_convert (hw v mem)).trans (List.map_id _)
      have hcomponents : components (words2path utf8ToUcs2 (word :: w)) =
          (word :: w).map (convert utf8ToUcs2) := by
        rw [words2path, List.foldl_cons]
        exact (congrArg components (foldl_words hword w)).trans
          (components_words hempty (fun v mem => hw v (List.mem_cons_of_mem word mem))
            (slash_not_mem_convert word) hword)
      simp only [path2words, hcomponents, List.map_map, hback]
      exact if_neg (List.cons_ne_nil word w)

end PathsSpec

section QuotesSpec

theorem quoted_flatMap (s : Text) {rest : Text} (hne : rest ≠ [])
    (hrest : rest.head? ≠ some (byte '"')) :
    quoted ((s.flatMap fun c => if c = byte '"' then [byte '"', c] else [c]) ++
      byte '"' :: rest) = (s, rest) := by
  induction s with
  | nil =>
      cases rest with
      | nil => exact absurd rfl hne
      | cons d rest =>
          have hd : d ≠ byte '"' := fun heq => hrest (congrArg some heq)
          rw [List.flatMap_nil, List.nil_append, quoted, if_pos rfl, if_neg hd]
  | cons c s ih =>
      rw [List.flatMap_cons, List.append_assoc]
      by_cases hc : c = byte '"'
      · subst hc
        rw [if_pos rfl, List.cons_append, List.cons_append, List.nil_append, quoted, if_pos rfl,
          if_pos rfl, ih]
      · rw [if_neg hc, List.cons_append, List.nil_append]
        cases hbody : (s.flatMap fun c => if c = byte '"' then [byte '"', c] else [c]) ++
            byte '"' :: rest with
        | nil => simp at hbody
        | cons d body =>
            rw [quoted, if_neg hc, ← hbody, ih]

theorem parseWords_quoteSMAP {words : List Text} (hok : words ≠ [str "+OK"])
    (herr : words ≠ [str "-ERR"]) {s : Text} (hs : NUL ∉ s) {rest : Text} (hne : rest ≠ [])
    (hrest : rest.head? ≠ some (byte '"')) :
    parseWords words (quoteSMAP s ++ rest) = parseWords (words ++ [s]) rest := by
  have hcstr : cstr s = s :=
    List.takeWhile_eq_self_iff.2 fun c mem => decide_eq_true fun heq => hs (heq ▸ mem)
  have hbody := quoted_flatMap s hne hrest
  rw [quoteSMAP, List.cons_append, List.cons_append, List.append_assoc, List.singleton_append,
    parseWords, if_neg (by decide), if_neg hok, if_neg herr, if_neg (not_not.2 rfl), hbody, hcstr]

theorem parseWords_line (words ws : List Text) (hfirst : words.head? = some (str "*"))
    (hws : ∀ s ∈ ws, NUL ∉ s) :
    parseWords words ((ws.flatMap fun s => SP :: quoteSMAP s) ++ [NL]) = .words (words ++ ws) := by
  induction ws generalizing words with
  | nil =>
      rw [List.flatMap_nil, List.nil_append, parseWords, if_pos (by decide), parseWords,
        List.append_nil]
  | cons s ws ih =>
      have hok : words ≠ [str "+OK"] := by
        rintro rfl
        exact absurd hfirst (by decide)
      have herr : words ≠ [str "-ERR"] := by
        rintro rfl
        exact absurd hfirst (by decide)
      rw [List.flatMap_cons, List.cons_append, List.cons_append, parseWords, if_pos (by decide),
        List.append_assoc, parseWords_quoteSMAP hok herr (hws s List.mem_cons_self)]
      · rw [ih (words ++ [s]) _ fun t mem => hws t (List.mem_cons_of_mem s mem), List.append_assoc,
          List.singleton_append]
        rw [List.head?_append, hfirst]
        rfl
      · simp
      · cases ws with
        | nil => decide
        | cons t ws =>
            rw [List.flatMap_cons]
            exact fun h => absurd (Option.some.inj h) (by decide)

theorem quotedLine_cons (s : Text) (ws : List Text) :
    quotedLine (s :: ws) = quoteSMAP s ++ ws.flatMap fun s => SP :: quoteSMAP s := by
  induction ws generalizing s with
  | nil => simp [quotedLine, List.intercalate]
  | cons t ws ih =>
      have hrest := ih t
      rw [quotedLine] at hrest
      rw [List.flatMap_cons, List.cons_append, ← hrest, quotedLine, List.map_cons, List.map_cons,
        List.intercalate_cons_cons, List.append_assoc, List.singleton_append]

theorem newline_not_mem_quoteSMAP {s : Text} (hs : NL ∉ s) : NL ∉ quoteSMAP s := by
  have hquote : NL ≠ byte '"' := by decide
  intro mem
  rw [quoteSMAP, List.cons_append] at mem
  rcases List.mem_cons.1 mem with heq | mem
  · exact hquote heq
  · rcases List.mem_append.1 mem with mem | mem
    · obtain ⟨c, hc, mem⟩ := List.mem_flatMap.1 mem
      have hcs : NL ≠ c := fun heq => hs (heq ▸ hc)
      split at mem
      · rcases List.mem_pair.1 mem with heq | heq
        · exact hquote heq
        · exact hcs heq
      · exact hcs (List.mem_singleton.1 mem)
    · exact hquote (List.mem_singleton.1 mem)

theorem singleLineProcess_quotedLine (accepts : Reply → Bool) (account : Account) {ws : List Text}
    (hws : ∀ s ∈ ws, NUL ∉ s ∧ NL ∉ s) (rest : Text) :
    singleLineProcess accepts account (quotedLine (str "*" :: ws) ++ NL :: rest) =
      (if accepts (.words (str "*" :: ws)) then (quotedLine (str "*" :: ws)).length + 1 else 0,
        account, [.answered (.words (str "*" :: ws)) (accepts (.words (str "*" :: ws)))]) := by
  have hline := quotedLine_cons (str "*") ws
  have hnl : NL ∉ quotedLine (str "*" :: ws) := by
    intro mem
    rw [hline] at mem
    rcases List.mem_append.1 mem with mem | mem
    · exact newline_not_mem_quoteSMAP (by decide) mem
    · obtain ⟨s, hs, mem⟩ := List.mem_flatMap.1 mem
      rcases List.mem_cons.1 mem with heq | mem
      · exact absurd heq (by decide)
      · exact newline_not_mem_quoteSMAP (hws s hs).2 mem
  have hparse : parseWords [] (quotedLine (str "*" :: ws) ++ [NL]) = .words (str "*" :: ws) := by
    have hnext : ((ws.flatMap fun s => SP :: quoteSMAP s) ++ [NL]).head? ≠ some (byte '"') := by
      cases ws with
      | nil => decide
      | cons t ws =>
          rw [List.flatMap_cons]
          exact fun h => absurd (Option.some.inj h) (by decide)
    have hstar : NUL ∉ str "*" := by decide
    rw [hline, List.append_assoc,
      parseWords_quoteSMAP (by decide) (by decide) hstar (by simp) hnext]
    exact parseWords_line [str "*"] ws rfl fun s mem => (hws s mem).1
  have htake : (quotedLine (str "*" :: ws) ++ NL :: rest).takeWhile (· ≠ NL) =
      quotedLine (str "*" :: ws) := by
    have hall : ∀ c ∈ quotedLine (str "*" :: ws), decide (c ≠ NL) = true := fun c mem =>
      decide_eq_true fun heq => hnl (heq ▸ mem)
    rw [List.takeWhile_append_of_pos hall, List.takeWhile_cons_of_neg (by simp), List.append_nil]
  have hbegin : beginning (.words (str "*" :: ws)) account = none := rfl
  have hsingle : singleLine accepts account (quotedLine (str "*" :: ws)) =
      (accepts (.words (str "*" :: ws)), account,
        [.answered (.words (str "*" :: ws)) (accepts (.words (str "*" :: ws)))]) := by
    simp only [singleLine, hparse, hbegin]
    rfl
  rw [singleLineProcess, if_neg (not_not.2 (by simp)), htake]
  simp only [hsingle]

end QuotesSpec

section Folders
variable {utf8ToUcs2 : Text → List (List UInt16)} {ucs2ToUtf8 : List UInt16 → Text}

def ascii (word : Text) : List (List UInt16) := [word.map UInt8.toUInt16]

def asciiBack (text : List UInt16) : Text := text.map UInt16.toUInt8

end Folders
end Cone.SmapPaths
