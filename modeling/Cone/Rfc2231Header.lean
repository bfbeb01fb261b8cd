import Cone.Rfc2231

/-! # Parameters read back from a header line

What the tokenizer and `parse_content_header` make of a Content-Disposition line whose
parameters are written as `; param=value`. -/
set_option autoImplicit false
namespace Cone.Rfc2231Header

open Cone.Ctype Cone.Rfc822Tokenize Cone.Rfc2045Header Cone.Rfc2231

def tokenChar (c : UInt8) : Bool :=
  SP < c && c < 127 &&
    c ∉ ['(', ')', '<', '>', '@', ',', ';', ':', '\\', '"', '/', '[', ']', '?', '='].map byte

/-- The special characters that an unquoted value may hold. -/
def pasted : List UInt8 := ['<', '>', '@', ',', '.', '[', ']', '%', '!', '?', '/'].map byte

def valueChar (c : UInt8) : Bool := atomChar c || c ∈ pasted

/-- The tokenizer's state after a text. -/
def bracketsAfter (inbracket : Bool) (v : List UInt8) : Bool := v.foldl bracketAfter inbracket

/-- What the tokenizer keeps of a text: it drops a `<` in brackets and a `>` outside of them. -/
def keptBrackets : Bool → List UInt8 → List UInt8
  | _, [] => []
  | inbracket, c :: v =>
    (if unpaired inbracket c then [] else [c]) ++ keptBrackets (bracketAfter inbracket c) v

theorem keptBrackets_append (inbracket : Bool) (v w : List UInt8) :
    keptBrackets inbracket (v ++ w) =
      keptBrackets inbracket v ++ keptBrackets (bracketsAfter inbracket v) w := by
  induction v generalizing inbracket with
  | nil => rfl
  | cons c v ih => simp only [List.cons_append, keptBrackets, ih, List.append_assoc]; rfl

/-! ## Words of a value -/

/-- What ends a name or a value. -/
def Boundary (rest : List UInt8) : Prop := ∀ c ∈ rest.head?, c = byte ';' ∨ c = byte '='

def PlainWord (w : UInt8 × List UInt8) : Prop :=
  (w.1 = 0 ∧ ∀ c ∈ w.2, atomChar c = true) ∨ (w.1 ∈ pasted ∧ w.2 = [w.1])

structure ValueWords (inbracket : Bool) (v : List UInt8) (ws : List (UInt8 × List UInt8)) :
    Prop where
  read : ∀ rest wr, Boundary rest → Words (bracketsAfter inbracket v) rest wr →
    Words inbracket (v ++ rest) (ws ++ wr)
  paste : ws.flatMap pasteWord = keptBrackets inbracket v
  plain : ∀ w ∈ ws, PlainWord w

/-! A text without brackets is kept. -/

section NoBracket
variable {w : List UInt8} (hw : ∀ c ∈ w, c ≠ byte '<' ∧ c ≠ byte '>') (inbracket : Bool)
include hw

theorem bracketsAfter_of_noBracket : bracketsAfter inbracket w = inbracket := by
  induction w with
  | nil => rfl
  | cons c w ih =>
      obtain ⟨hless, hgreater⟩ := hw c List.mem_cons_self
      rw [bracketsAfter, List.foldl_cons, bracketAfter, if_neg hless, if_neg hgreater]
      exact ih fun d hd => hw d (List.mem_cons_of_mem _ hd)

theorem keptBrackets_of_noBracket : keptBrackets inbracket w = w := by
  induction w with
  | nil => rfl
  | cons c w ih =>
      obtain ⟨hless, hgreater⟩ := hw c List.mem_cons_self
      have ih := ih fun d hd => hw d (List.mem_cons_of_mem _ hd)
      simp [keptBrackets, unpaired, bracketAfter, hless, hgreater, ih]

end NoBracket

theorem atomChar_not_bracket : ∀ c, atomChar c = true → c ≠ byte '<' ∧ c ≠ byte '>' :=
  forall_byte (by decide +kernel)

theorem valueWords_nil (inbracket : Bool) : ValueWords inbracket [] [] where
  read := fun _ _ _ h => h
  paste := rfl
  plain := by simp

theorem valueWords_atom {inbracket : Bool} {w v : List UInt8} {ws : List (UInt8 × List UInt8)}
    (hw : w ≠ []) (hatom : ∀ c ∈ w, atomChar c = true) (hv : ∀ c ∈ v.head?, atomChar c = false)
    (h : ValueWords inbracket v ws) : ValueWords inbracket (w ++ v) ((0, w) :: ws) where
  read := by
    intro rest wr hrest hwr
    have hkeep := fun c hc => atomChar_not_bracket c (hatom c hc)
    have hafter : bracketsAfter inbracket (w ++ v) = bracketsAfter inbracket v := by
      rw [bracketsAfter, List.foldl_append]
      exact congrArg (fun b => v.foldl bracketAfter b) (bracketsAfter_of_noBracket hkeep inbracket)
    rw [hafter] at hwr
    rw [List.append_assoc]
    refine words_atom hw hatom ?_ (h.read rest wr hrest hwr)
    cases v with
    | nil =>
        intro c hc
        obtain rfl | rfl := hrest c hc <;> decide
    | cons d v => simpa using hv
  paste := by
    have hkeep := fun c hc => atomChar_not_bracket c (hatom c hc)
    rw [keptBrackets_append, keptBrackets_of_noBracket hkeep, bracketsAfter_of_noBracket hkeep,
      ← h.paste]
    rfl
  plain := by
    intro x hx
    obtain rfl | hx := List.mem_cons.mp hx
    · exact Or.inl ⟨rfl, hatom⟩
    · exact h.plain x hx

theorem pasted_facts : ∀ c ∈ pasted, (c ∈ single ∧ c ≠ byte '=' ∧ pasteWord (c, [c]) = [c]) ∧
    c ≠ byte ';' ∧ c ≠ byte '(' ∧ c ≠ byte '"' := by
  decide +kernel

theorem valueWords_unpaired {inbracket : Bool} {c : UInt8} {v : List UInt8}
    {ws : List (UInt8 × List UInt8)} (hpair : unpaired inbracket c = true)
    (h : ValueWords (bracketAfter inbracket c) v ws) : ValueWords inbracket (c :: v) ws := by
  have hafter : bracketAfter inbracket c = inbracket := by
    rcases (by simpa [unpaired] using hpair : _ ∨ _) with ⟨rfl, rfl⟩ | ⟨rfl, rfl⟩ <;> rfl
  refine ⟨fun rest wr hrest hwr => ?_, ?_, h.plain⟩
  · rw [hafter] at h
    refine words_unpaired hpair (h.read rest wr hrest ?_)
    rwa [bracketsAfter, List.foldl_cons, hafter] at hwr
  · rw [keptBrackets, if_pos hpair, h.paste]
    rfl

theorem valueWords_special {inbracket : Bool} {c : UInt8} {v : List UInt8}
    {ws : List (UInt8 × List UInt8)} (hc : c ∈ pasted) (hpair : unpaired inbracket c = false)
    (h : ValueWords (bracketAfter inbracket c) v ws) :
    ValueWords inbracket (c :: v) ((c, [c]) :: ((nullAddress c v).map Token.word ++ ws)) := by
  obtain ⟨hsingle, hne, hpaste⟩ := (pasted_facts c hc).1
  refine ⟨fun rest wr hrest hwr => ?_, ?_, ?_⟩
  · have hnull : nullAddress c (v ++ rest) = nullAddress c v := by
      cases v with
      | cons d v => rfl
      | nil =>
          have hhead : rest.head? ≠ some (byte '>') := by
            intro he
            obtain h | h := hrest _ he <;> exact absurd h (by decide)
          simp [nullAddress, hhead]
    have hread := words_single (p := v ++ rest) hsingle (fun he => absurd he hne) hpair
      (h.read rest wr hrest hwr)
    rw [hnull] at hread
    simpa using hread
  · have hnone : ((nullAddress c v).map Token.word).flatMap pasteWord = [] := by
      rw [nullAddress]
      split <;> rfl
    simp [keptBrackets, hpair, hpaste, hnone, h.paste]
  · intro x hx
    simp only [List.mem_cons, List.mem_append] at hx
    rcases hx with rfl | hx | hx
    · exact Or.inr ⟨hc, rfl⟩
    · obtain rfl : x = (0, []) := by
        rw [nullAddress] at hx
        split at hx
        · simpa [Token.word, Token.text] using hx
        · simp at hx
      exact Or.inl ⟨rfl, by simp⟩
    · exact h.plain x hx

theorem exists_valueWords (inbracket : Bool) (v : List UInt8)
    (hv : ∀ c ∈ v, valueChar c = true) : ∃ ws, ValueWords inbracket v ws := by
  induction hn : v.length using Nat.strong_induction_on generalizing v inbracket with
  | h n ih =>
      cases v with
      | nil => exact ⟨[], valueWords_nil inbracket⟩
      | cons c v =>
          have hc := hv c List.mem_cons_self
          by_cases hatom : atomChar c = true
          · have hsplit := List.takeWhile_append_dropWhile (p := atomChar) (l := c :: v)
            have hne : (c :: v).takeWhile atomChar ≠ [] := by simp [hatom]
            have hlen := congrArg List.length hsplit
            rw [List.length_append] at hlen
            have hpos := List.length_pos_iff.mpr hne
            obtain ⟨ws, hws⟩ := ih ((c :: v).dropWhile atomChar).length (by omega) inbracket _
              (fun d hd => hv d ((List.dropWhile_sublist _).subset hd)) rfl
            refine ⟨(0, (c :: v).takeWhile atomChar) :: ws, ?_⟩
            have hword := valueWords_atom hne
              (fun d hd => List.all_eq_true.mp List.all_takeWhile d hd) ?_ hws
            · rwa [hsplit] at hword
            · intro d hd
              have hhead := List.head?_dropWhile_not atomChar (c :: v)
              rw [Option.mem_def.mp hd] at hhead
              exact hhead
          · have hpasted : c ∈ pasted := by simpa [valueChar, hatom] using hc
            obtain ⟨ws, hws⟩ := ih v.length (by simp at hn; omega) (bracketAfter inbracket c) v
              (fun d hd => hv d (List.mem_cons_of_mem _ hd)) rfl
            by_cases hpair : unpaired inbracket c = true
            · exact ⟨_, valueWords_unpaired hpair hws⟩
            · exact ⟨_, valueWords_special hpasted (by simpa using hpair) hws⟩

/-! ## From words to parameters -/

structure Segment (seg : List (UInt8 × List UInt8)) : Prop where
  kinds : ∀ w ∈ seg, w.1 ≠ byte ';' ∧ w.1 ≠ byte '('
  quoted : ∀ w ∈ seg.dropLast, w.1 ≠ byte '"'

def segmentParam : List (UInt8 × List UInt8) → Option (List UInt8 × List UInt8)
  | name :: equals :: value =>
    if equals.1 = byte '=' then some ((pasteWord name).map tolower, value.flatMap pasteWord)
    else none
  | _ => none

def pastedParam (p : List UInt8 × List Token) : List UInt8 × List UInt8 := (p.1, pasteTokens p.2)

theorem pasteTokens_eq (ts : List Token) : pasteTokens ts = (ts.map Token.word).flatMap pasteWord := by
  rw [pasteTokens, List.flatMap_map]

section Segments
variable (inReformime : Bool)

theorem parameterAt_segment {ts rest : List Token} (hseg : Segment (ts.map Token.word))
    (hrest : ∀ t ∈ rest.head?, t.token = byte ';') :
    ((parameterAt inReformime (ts ++ rest)).1.map pastedParam =
      segmentParam (ts.map Token.word)) ∧ (parameterAt inReformime (ts ++ rest)).2 = rest := by
  have hts : ∀ t ∈ ts, decide (t.token ≠ byte ';') = true := fun t ht =>
    decide_eq_true (hseg.kinds t.word (List.mem_map_of_mem ht)).1
  have htake : (ts ++ rest).takeWhile (fun t => t.token ≠ byte ';') = ts := by
    rw [List.takeWhile_append_of_pos hts]
    cases rest with
    | nil => simp
    | cons t rest => simp [hrest t (by simp)]
  have hdrop : (ts ++ rest).dropWhile (fun t => t.token ≠ byte ';') = rest := by
    rw [List.dropWhile_append_of_pos hts]
    cases rest with
    | nil => rfl
    | cons t rest => simp [hrest t (by simp)]
  rw [parameterAt, htake, hdrop]
  match ts, hseg with
  | [], _ => exact ⟨rfl, rfl⟩
  | [name], _ => exact ⟨rfl, rfl⟩
  | name :: equals :: value, hseg =>
      have hparen : equals.token ≠ byte '(' := (hseg.kinds equals.word (by simp)).2
      simp only [List.dropWhile_cons, hparen, decide_false, Bool.false_eq_true, if_false]
      by_cases heq : equals.token = byte '='
      · have hname : lowerPasteTokens [name] = (pasteWord name.word).map tolower := by
          simp [lowerPasteTokens, pasteTokens]
        rw [if_pos heq, List.map_cons, List.map_cons, segmentParam,
          if_pos (show equals.word.1 = byte '=' from heq)]
        cases value with
        | nil => exact ⟨by simp [pastedParam, pasteTokens, hname], rfl⟩
        | cons v more =>
            simp only
            by_cases hquote : inReformime = true ∧ v.token = byte '"'
            · obtain rfl : more = [] := by
                by_contra hmore
                refine hseg.quoted v.word ?_ hquote.2
                simp [List.dropLast_cons_of_ne_nil, hmore]
              rw [if_pos hquote]
              exact ⟨by simp [pastedParam, pasteTokens, hname], rfl⟩
            · rw [if_neg hquote]
              exact ⟨by simp [pastedParam, pasteTokens_eq, hname], rfl⟩
      · rw [if_neg heq, List.map_cons, List.map_cons, segmentParam,
          if_neg (show ¬ equals.word.1 = byte '=' from heq)]
        exact ⟨rfl, rfl⟩

def joined (segs : List (List (UInt8 × List UInt8))) : List (UInt8 × List UInt8) :=
  segs.flatMap fun s => (byte ';', [byte ';']) :: s

theorem parameters_joined {segs : List (List (UInt8 × List UInt8))}
    (hsegs : ∀ s ∈ segs, Segment s) {ts : List Token} (hts : ts.map Token.word = joined segs)
    {fuel : Nat} (hfuel : ts.length ≤ fuel + 1) :
    (parameters inReformime fuel (ts.drop 1)).map pastedParam = segs.filterMap segmentParam := by
  induction segs generalizing ts fuel with
  | nil =>
      obtain rfl : ts = [] := by simpa [joined] using hts
      cases fuel <;> rfl
  | cons s segs ih =>
      rw [joined, List.flatMap_cons, List.cons_append] at hts
      obtain ⟨semi, ts, rfl, hsemi, hts⟩ := List.map_eq_cons_iff.mp hts
      obtain ⟨a, b, rfl, rfl, hb⟩ := List.map_eq_append_iff.mp hts
      have hhead : ∀ t ∈ b.head?, t.token = byte ';' := by
        intro t ht
        cases segs with
        | nil => simp_all
        | cons s' segs =>
            obtain ⟨t', b', rfl, ht', _⟩ := List.map_eq_cons_iff.mp hb
            obtain rfl : t' = t := by simpa using ht
            exact congrArg Prod.fst ht'
      obtain ⟨hparam, hrest⟩ := parameterAt_segment inReformime
        (hsegs _ List.mem_cons_self) hhead
      have ihb : ∀ f, b.length ≤ f + 1 →
          (parameters inReformime f (b.drop 1)).map pastedParam = segs.filterMap segmentParam :=
        fun _ => ih (fun s hs => hsegs s (List.mem_cons_of_mem _ hs)) hb
      simp only [List.length_cons, List.length_append] at hfuel
      rw [List.drop_one, List.tail_cons, List.filterMap_cons]
      cases hab : a ++ b with
      | nil =>
          obtain ⟨rfl, rfl⟩ := List.append_eq_nil_iff.mp hab
          have hb := ihb 0 (by simp)
          have hnone : segmentParam (([] : List Token).map Token.word) = none := rfl
          rw [hnone, ← hb]
          cases fuel <;> rfl
      | cons t start =>
          have hpos := congrArg List.length hab
          simp only [List.length_append, List.length_cons] at hpos
          cases fuel with
          | zero => omega
          | succ fuel =>
              rw [parameters, ← hab, hrest, List.map_append, ihb fuel (by omega), ← hparam]
              cases (parameterAt inReformime (a ++ b)).1 <;> rfl

end Segments

/-! ## The header line -/

def keepAttr (attrs : List Attr) (p : List UInt8 × List UInt8) : List Attr :=
  attrset attrs p.1 (some p.2)

theorem foldl_saveContentDisposition (ps : List (List UInt8 × List Token)) (h : Headers) :
    (ps.foldl saveContentDispositionParameter h).contentDispositionAttr =
      (ps.map pastedParam).foldl keepAttr h.contentDispositionAttr := by
  induction ps generalizing h with
  | nil => rfl
  | cons p ps ih =>
      rw [List.foldl_cons, ih]
      rfl

def dispositionName : List UInt8 := "Content-Disposition".toList.map byte

section Line
variable (inReformime : Bool) (getaddr : List Token → Option (List UInt8))
variable (outer : List (Option (List UInt8))) (h : Headers)

theorem doHeader_disposition {line : List UInt8} (hnul : NUL ∉ line)
    {tw : List (UInt8 × List UInt8)} (htw : ∀ w ∈ tw, w.1 ≠ byte ';')
    {segs : List (List (UInt8 × List UInt8))} (hsegs : ∀ s ∈ segs, Segment s)
    (hwords : Words false line
      ((0, dispositionName) :: (byte ':', [byte ':']) :: (tw ++ joined segs))) :
    (doHeader inReformime getaddr outer h line).headers.contentDispositionAttr =
      (segs.filterMap segmentParam).foldl keepAttr h.contentDispositionAttr := by
  have htext : line.takeWhile (· ≠ NUL) = line := by
    have hall : ∀ c ∈ line, decide (c ≠ NUL) = true := fun c hc =>
      decide_eq_true fun he => hnul (he ▸ hc)
    have htake : (line ++ []).takeWhile (· ≠ NUL) = line ++ [].takeWhile (· ≠ NUL) :=
      List.takeWhile_append_of_pos hall
    simpa using htake
  have htokens := words_tokenize hwords
  obtain ⟨name, rest, htok, hname, hrest⟩ := List.map_eq_cons_iff.mp htokens
  obtain ⟨colon, ts, rfl, hcolon, hts⟩ := List.map_eq_cons_iff.mp hrest
  obtain ⟨a, b, rfl, ha, hb⟩ := List.map_eq_append_iff.mp hts
  have hkind : ¬ (name.token ≠ 0 ∨ colon.token ≠ byte ':') := by
    have h1 : name.token = 0 := congrArg Prod.fst hname
    have h2 : colon.token = byte ':' := congrArg Prod.fst hcolon
    simp [h1, h2]
  have hpaste : lowerPasteTokens [name] = "content-disposition".toList.map byte := by
    have hone : lowerPasteTokens [name] = (pasteWord name.word).map tolower := by
      simp [lowerPasteTokens, pasteTokens]
    rw [hone, hname]
    decide
  rw [doHeader, htext, htok]
  simp only [if_neg hkind, hpaste]
  rw [if_neg (by decide), if_neg (by decide), if_neg (by decide), if_pos trivial, contentDisposition,
    foldl_saveContentDisposition]
  have hnosemi : ∀ t ∈ a, decide (t.token ≠ byte ';') = true := by
    intro t ht
    have hmem : t.word ∈ tw := ha ▸ List.mem_map_of_mem ht
    exact decide_eq_true (htw _ hmem)
  have hdrop : (a ++ b).dropWhile (fun t => t.token ≠ byte ';') = b := by
    rw [List.dropWhile_append_of_pos hnosemi]
    cases segs with
    | nil => simp_all [joined]
    | cons s segs =>
        obtain ⟨t, b, rfl, ht, _⟩ := List.map_eq_cons_iff.mp hb
        have ht : t.token = byte ';' := congrArg Prod.fst ht
        simp [ht]
  simp only [parseContentHeader, List.drop_succ_cons, List.drop_zero, hdrop]
  rw [parameters_joined inReformime hsegs hb (by simp; omega)]

end Line

/-! ## Parameters as they are written -/

def segmentText (p : Parameter) : List UInt8 := byte ';' :: SP :: (p.param ++ byte '=' :: p.value)

def dispositionLine (type : List UInt8) (params : List Parameter) : List UInt8 :=
  dispositionName ++ byte ':' :: SP :: (type ++ params.flatMap segmentText)

/-- Whether the name of a parameter is a single token to the header parser. -/
def oneWord (name : List UInt8) : Bool :=
  name ≠ [] && (name.length = 1 || name.all atomChar)

theorem tokenChar_facts : ∀ c, tokenChar c = true →
    valueChar c = true ∧ (c ≠ byte '<' ∧ c ≠ byte '>') ∧ c ≠ NUL :=
  forall_byte (by decide +kernel)

section Segment
variable {name : List UInt8} {inbracket : Bool}

theorem exists_nameWords (inbracket : Bool) (hname : ∀ c ∈ name, tokenChar c = true) :
    ∃ ws, ValueWords inbracket name ws ∧ (oneWord name = true → ∃ w, ws = [w]) ∧
      (name = [] → ws = []) := by
  by_cases hone : oneWord name = true
  · simp only [oneWord, Bool.and_eq_true, Bool.or_eq_true, decide_eq_true_eq, ne_eq,
      List.all_eq_true] at hone
    obtain ⟨hne, hshape⟩ := hone
    by_cases hatom : ∀ c ∈ name, atomChar c = true
    · refine ⟨[(0, name)], ?_, fun _ => ⟨_, rfl⟩, fun h => absurd h hne⟩
      simpa using valueWords_atom hne hatom (by simp) (valueWords_nil inbracket)
    · obtain ⟨c, rfl⟩ := List.length_eq_one_iff.mp (hshape.resolve_right hatom)
      obtain ⟨hval, hkeep, _⟩ := tokenChar_facts c (hname c List.mem_cons_self)
      have hc : c ∈ pasted := by
        have hnot : atomChar c = false := by simpa using hatom
        simpa [valueChar, hnot] using hval
      have hpair : unpaired inbracket c = false := by simp [unpaired, hkeep]
      have hnull : nullAddress c [] = [] := nullAddress_of_ne hkeep.1 []
      have hword := valueWords_special (v := []) hc hpair (valueWords_nil _)
      rw [hnull] at hword
      exact ⟨_, hword, fun _ => ⟨_, rfl⟩, fun h => absurd h hne⟩
  · cases name with
    | nil => exact ⟨[], valueWords_nil inbracket, fun h => absurd h hone, fun _ => rfl⟩
    | cons c name =>
        obtain ⟨ws, hws⟩ := exists_valueWords inbracket (c :: name)
          fun d hd => (tokenChar_facts d (hname d hd)).1
        exact ⟨ws, hws, fun h => absurd h hone, by simp⟩

theorem plainWord_kind {w : UInt8 × List UInt8} (hw : PlainWord w) :
    w.1 ≠ byte ';' ∧ w.1 ≠ byte '(' ∧ w.1 ≠ byte '=' ∧ w.1 ≠ byte '"' := by
  have hpasted : ∀ c ∈ pasted, c ≠ byte ';' ∧ c ≠ byte '(' ∧ c ≠ byte '=' ∧ c ≠ byte '"' := by
    intro c hc
    obtain ⟨⟨-, equals, -⟩, semicolon, paren, quote⟩ := pasted_facts c hc
    exact ⟨semicolon, paren, equals, quote⟩
  obtain ⟨hzero, _⟩ | ⟨hc, _⟩ := hw
  · rw [hzero]
    decide
  · exact hpasted _ hc

theorem segmentParam_name {ws vw : List (UInt8 × List UInt8)} (hws : ValueWords inbracket name ws)
    (hname : ∀ c ∈ name, tokenChar c = true) (hone : oneWord name = true → ∃ w, ws = [w])
    (hnil : name = [] → ws = []) (hvw : ∀ w ∈ vw, w.1 ≠ byte '=') :
    segmentParam (ws ++ (byte '=', [byte '=']) :: vw) =
      if oneWord name then some (name.map tolower, vw.flatMap pasteWord) else none := by
  have hpaste := hws.paste
  rw [keptBrackets_of_noBracket fun c hc => (tokenChar_facts c (hname c hc)).2.1] at hpaste
  by_cases hword : oneWord name = true
  · obtain ⟨w, rfl⟩ := hone hword
    rw [List.flatMap_singleton] at hpaste
    rw [if_pos hword, ← hpaste]
    rfl
  · rw [if_neg hword]
    match ws with
    | [] =>
        cases vw with
        | nil => rfl
        | cons v more => exact if_neg (hvw v List.mem_cons_self)
    | [w] =>
        exfalso
        apply hword
        rw [List.flatMap_singleton] at hpaste
        have hne : name ≠ [] := fun he => absurd (hnil he) (by simp)
        obtain ⟨hzero, hatom⟩ | ⟨hc, hself⟩ := hws.plain w List.mem_cons_self
        · have htext : w.2 = name := by rw [← hpaste, pasteWord, hzero]; rfl
          rw [htext] at hatom
          simpa [oneWord, hne] using Or.inr hatom
        · have hself : pasteWord w = [w.1] := by
            obtain ⟨kind, text⟩ := w
            obtain rfl : text = [kind] := hself
            exact (pasted_facts kind hc).1.2.2
          have hlen : name.length = 1 := by rw [← hpaste, hself, List.length_singleton]
          simp [oneWord, hne, hlen]
    | w :: w' :: ws =>
        exact if_neg (plainWord_kind (hws.plain w' (by simp))).2.2.1

theorem exists_segment (inbracket : Bool) (hname : ∀ c ∈ name, tokenChar c = true)
    (vw : List (UInt8 × List UInt8))
    (hkinds : ∀ w ∈ vw, w.1 ≠ byte ';' ∧ w.1 ≠ byte '(' ∧ w.1 ≠ byte '=')
    (hquoted : ∀ w ∈ vw.dropLast, w.1 ≠ byte '"') :
    ∃ seg, Segment seg ∧
      segmentParam seg =
        (if oneWord name then some (name.map tolower, vw.flatMap pasteWord) else none) ∧
      ∀ tail wr, Words inbracket (byte '=' :: tail) ((byte '=', [byte '=']) :: (vw ++ wr)) →
        Words inbracket (byte ';' :: SP :: (name ++ byte '=' :: tail))
          ((byte ';', [byte ';']) :: (seg ++ wr)) := by
  obtain ⟨ws, hws, hone, hnil⟩ := exists_nameWords inbracket hname
  refine ⟨ws ++ (byte '=', [byte '=']) :: vw, ⟨?_, ?_⟩,
    segmentParam_name hws hname hone hnil fun w hw => (hkinds w hw).2.2, ?_⟩
  · intro w hw
    obtain hw | hw := List.mem_append.mp hw
    · have hkind := plainWord_kind (hws.plain w hw)
      exact ⟨hkind.1, hkind.2.1⟩
    · obtain rfl | hw := List.mem_cons.mp hw
      · decide
      · exact ⟨(hkinds w hw).1, (hkinds w hw).2.1⟩
  · intro w hw
    rw [List.dropLast_append_of_ne_nil (by simp)] at hw
    obtain hw | hw := List.mem_append.mp hw
    · exact (plainWord_kind (hws.plain w hw)).2.2.2
    · cases vw with
      | nil => simp at hw
      | cons v vw =>
          rw [List.dropLast_cons_of_ne_nil (by simp)] at hw
          obtain rfl | hw := List.mem_cons.mp hw
          · decide
          · exact hquoted w hw
  · intro tail wr hwords
    have hkeep := bracketsAfter_of_noBracket
      (fun c hc => (tokenChar_facts c (hname c hc)).2.1) inbracket
    rw [← hkeep] at hwords
    have hread := hws.read (byte '=' :: tail) _ (by intro c hc; right; simpa using hc.symm) hwords
    have hsemi := words_mark inbracket (byte ';') (by decide) (by decide)
      (words_space (c := SP) (by decide) hread)
    simpa using hsemi

end Segment

/-! ## The lines that `rfc2231_attrCreate` writes -/

theorem encodedWordLen_value (v rest : List UInt8) (hv : ∀ c ∈ v, valueChar c = true)
    (hrest : ∀ c ∈ rest.head?, c = byte ';') : encodedWordLen (v ++ rest) = none := by
  have hnext : ∀ v : List UInt8, (∀ c ∈ v, valueChar c = true) →
      (v ++ rest).head? ≠ some (byte '=') := by
    intro v hv he
    cases v with
    | nil => exact absurd (hrest _ he) (by decide)
    | cons c v =>
        obtain rfl : c = byte '=' := by simpa using he
        exact absurd (hv _ List.mem_cons_self) (by decide)
  induction v with
  | nil =>
      cases rest with
      | nil => rfl
      | cons c rest =>
          obtain rfl : c = byte ';' := hrest c (by simp)
          rfl
  | cons c v ih =>
      have hv' : ∀ d ∈ v, valueChar d = true := fun d hd => hv d (List.mem_cons_of_mem _ hd)
      have ih := ih hv'
      rw [List.cons_append, encodedWordLen, if_neg fun h => hnext v hv' h.2, ih]
      simp

theorem words_value {inbracket : Bool} {v : List UInt8} {vw : List (UInt8 × List UInt8)}
    (hv : ∀ c ∈ v, valueChar c = true) (hvw : ValueWords inbracket v vw) {rest : List UInt8}
    (hrest : ∀ c ∈ rest.head?, c = byte ';') {wr : List (UInt8 × List UInt8)}
    (h : Words (bracketsAfter inbracket v) rest wr) :
    Words inbracket (byte '=' :: (v ++ rest)) ((byte '=', [byte '=']) :: (vw ++ wr)) := by
  have hword : encodedWordAt (byte '=' :: (v ++ rest)) = none := by
    cases v with
    | nil =>
        cases rest with
        | nil => rfl
        | cons c rest =>
            obtain rfl : c = byte ';' := hrest c (by simp)
            rfl
    | cons c v =>
        have hnone := encodedWordLen_value v rest (fun d hd => hv d (List.mem_cons_of_mem _ hd)) hrest
        rw [List.cons_append, encodedWordAt, hnone]
        simp
  exact words_equals inbracket hword (hvw.read rest wr (fun c hc => Or.inl (hrest c hc)) h)

theorem mem_segments_head (ps : List Parameter) :
    ∀ c ∈ (ps.flatMap segmentText).head?, c = byte ';' := by
  intro c hc
  cases ps with
  | nil => simp at hc
  | cons q ps => simpa [segmentText] using hc.symm

/-- The parameters that the header parser finds in a line of unquoted ones. -/
def readParams : Bool → List Parameter → List (List UInt8 × List UInt8)
  | _, [] => []
  | inbracket, p :: ps =>
    (if oneWord p.param then [(p.param.map tolower, keptBrackets inbracket p.value)] else []) ++
      readParams (bracketsAfter inbracket p.value) ps

theorem exists_segments (inbracket : Bool) (ps : List Parameter)
    (hps : ∀ p ∈ ps, (∀ c ∈ p.param, tokenChar c = true) ∧ ∀ c ∈ p.value, valueChar c = true) :
    ∃ segs, (∀ s ∈ segs, Segment s) ∧ segs.filterMap segmentParam = readParams inbracket ps ∧
      Words inbracket (ps.flatMap segmentText) (joined segs) := by
  induction ps generalizing inbracket with
  | nil => exact ⟨[], by simp, rfl, words_nil inbracket⟩
  | cons p ps ih =>
      obtain ⟨hname, hvalue⟩ := hps p List.mem_cons_self
      obtain ⟨segs, hsegs, hread, hwords⟩ :=
        ih (bracketsAfter inbracket p.value) fun q hq => hps q (List.mem_cons_of_mem _ hq)
      obtain ⟨vw, hvw⟩ := exists_valueWords inbracket p.value hvalue
      have hkinds := fun w hw => plainWord_kind (hvw.plain w hw)
      obtain ⟨seg, hseg, hparam, hrule⟩ := exists_segment inbracket hname vw
        (fun w hw => ⟨(hkinds w hw).1, (hkinds w hw).2.1, (hkinds w hw).2.2.1⟩)
        (fun w hw => (hkinds w ((List.dropLast_sublist _).subset hw)).2.2.2)
      refine ⟨seg :: segs, ?_, ?_, ?_⟩
      · intro s hs
        obtain rfl | hs := List.mem_cons.mp hs
        · exact hseg
        · exact hsegs s hs
      · rw [List.filterMap_cons, hparam, hread, readParams, hvw.paste]
        by_cases hone : oneWord p.param = true
        · simp only [if_pos hone]
          rfl
        · simp only [if_neg hone]
          rfl
      · have hequals := words_value hvalue hvw (mem_segments_head ps) hwords
        have hall := hrule _ _ hequals
        simpa [segmentText, joined] using hall

section Line
variable (inReformime : Bool) (getaddr : List Token → Option (List UInt8))
variable (outer : List (Option (List UInt8))) (h : Headers) {type : List UInt8}

theorem words_line (htype : ∀ c ∈ type, tokenChar c = true) {text : List UInt8}
    (htext : ∀ c ∈ text.head?, c = byte ';') {ws : List (UInt8 × List UInt8)}
    (hws : Words false text ws) :
    ∃ tw, (∀ w ∈ tw, w.1 ≠ byte ';') ∧
      Words false (dispositionName ++ byte ':' :: SP :: (type ++ text))
        ((0, dispositionName) :: (byte ':', [byte ':']) :: (tw ++ ws)) := by
  obtain ⟨tw, htw⟩ := exists_valueWords false type fun c hc => (tokenChar_facts c (htype c hc)).1
  refine ⟨tw, fun w hw => (plainWord_kind (htw.plain w hw)).1, ?_⟩
  have hafter := bracketsAfter_of_noBracket (fun c hc => (tokenChar_facts c (htype c hc)).2.1) false
  rw [← hafter] at hws
  have hread := htw.read text ws (fun c hc => Or.inl (htext c hc)) hws
  have hcolon := words_mark false (byte ':') (by decide) (by decide)
    (words_space (c := SP) (by decide) hread)
  refine words_atom (by decide +kernel) (by decide +kernel) ?_ hcolon
  intro c hc
  obtain rfl : byte ':' = c := by simpa using hc
  decide

theorem doHeader_line (htype : ∀ c ∈ type, tokenChar c = true) {text : List UInt8}
    (htext : ∀ c ∈ text.head?, c = byte ';') (hnul : NUL ∉ text)
    {segs : List (List (UInt8 × List UInt8))} (hsegs : ∀ s ∈ segs, Segment s)
    (hwords : Words false text (joined segs)) :
    (doHeader inReformime getaddr outer h
        (dispositionName ++ byte ':' :: SP :: (type ++ text))).headers.contentDispositionAttr =
      (segs.filterMap segmentParam).foldl keepAttr h.contentDispositionAttr := by
  obtain ⟨tw, htw, hline⟩ := words_line htype htext hwords
  refine doHeader_disposition inReformime getaddr outer h ?_ htw hsegs hline
  have hname : NUL ∉ dispositionName := by decide
  have htypes : NUL ∉ type := fun hc => (tokenChar_facts _ (htype _ hc)).2.2 rfl
  have hcolon : NUL ≠ byte ':' ∧ NUL ≠ SP := by decide
  simp [hname, htypes, hcolon, hnul]

theorem nul_notMem_segmentText {p : Parameter} (hname : ∀ c ∈ p.param, tokenChar c = true)
    (hvalue : NUL ∉ p.value) : NUL ∉ segmentText p := by
  have hparam : NUL ∉ p.param := fun hc => (tokenChar_facts _ (hname _ hc)).2.2 rfl
  have hmarks : NUL ≠ byte ';' ∧ NUL ≠ SP ∧ NUL ≠ byte '=' := by decide
  simp [segmentText, hparam, hvalue, hmarks]

theorem dispositionLine_fragments (htype : ∀ c ∈ type, tokenChar c = true) {ps : List Parameter}
    (hname : ∀ p ∈ ps, ∀ c ∈ p.param, tokenChar c = true)
    (hvalue : ∀ p ∈ ps, NUL ∉ p.value ∧ ∀ c ∈ p.value, valueChar c = true) :
    (doHeader inReformime getaddr outer h
        (dispositionLine type ps)).headers.contentDispositionAttr =
      (readParams false ps).foldl keepAttr h.contentDispositionAttr := by
  obtain ⟨segs, hsegs, hread, hwords⟩ :=
    exists_segments false ps fun p hp => ⟨hname p hp, (hvalue p hp).2⟩
  rw [← hread]
  refine doHeader_line inReformime getaddr outer h htype (mem_segments_head ps) ?_ hsegs hwords
  intro hc
  obtain ⟨p, hp, hc⟩ := List.mem_flatMap.mp hc
  exact nul_notMem_segmentText (hname p hp) (hvalue p hp).1 hc

theorem dispositionLine_quoted (htype : ∀ c ∈ type, tokenChar c = true) {name value : List UInt8}
    (hname : ∀ c ∈ name, tokenChar c = true)
    (hvalue : ∀ c ∈ value, c ≠ NUL ∧ c ≠ byte '"' ∧ c ≠ byte '\\') :
    (doHeader inReformime getaddr outer h (dispositionLine type
        [⟨name, byte '"' :: (value ++ [byte '"'])⟩])).headers.contentDispositionAttr =
      (if oneWord name then [(name.map tolower, value)] else []).foldl keepAttr
        h.contentDispositionAttr := by
  obtain ⟨seg, hseg, hparam, hrule⟩ := exists_segment false hname
    [(byte '"', value)] (by simp; decide) (by simp)
  have hquoted := words_quoted (fun c hc => (hvalue c hc).2) (words_nil false)
  have hequals := words_equals false rfl hquoted
  have hwords := hrule _ [] hequals
  have hread : [seg].filterMap segmentParam =
      if oneWord name then [(name.map tolower, value)] else [] := by
    have hpaste : [(byte '"', value)].flatMap pasteWord = value := by
      have hkind : byte '"' ≠ byte '(' := by decide
      simp [pasteWord, isAtom, hkind]
    rw [List.filterMap_cons, hparam, hpaste]
    by_cases hone : oneWord name = true
    · simp only [if_pos hone]
      rfl
    · simp only [if_neg hone]
      rfl
  rw [← hread]
  have hone : ∀ s ∈ [seg], Segment s := by simpa using hseg
  refine doHeader_line inReformime getaddr outer h htype (mem_segments_head _) ?_ hone
    (by simpa [joined, segmentText] using hwords)
  have hnul : NUL ∉ byte '"' :: (value ++ [byte '"']) := by
    have hval : NUL ∉ value := fun hc => (hvalue _ hc).1 rfl
    have hmark : NUL ≠ byte '"' := by decide
    simp [hval, hmark]
  simpa using nul_notMem_segmentText (p := ⟨name, _⟩) hname hnul

end Line

end Cone.Rfc2231Header
