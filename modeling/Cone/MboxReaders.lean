import Cone.Mbox

/-! # What the two readers give back of an added message -/
set_option autoImplicit false
namespace Cone.Mbox
open Cone.Ctype
open Cone.Lib.Decimal

/-! ## Lines -/

section Lines
variable {l rest : List UInt8}

theorem fill_line (noNL : NL ∉ l) (rest : List UInt8) (n : Nat) :
    fill n (l ++ NL :: rest) =
      if l.length < n then (l ++ [NL], rest, false) else (l.take n, l.drop n ++ NL :: rest, false) := by
  induction l generalizing n with
  | nil =>
      cases n with
      | zero => rfl
      | succ n => simp [fill]
  | cons c l ih =>
      obtain ⟨ne, noNL⟩ : NL ≠ c ∧ NL ∉ l := by simpa using noNL
      cases n with
      | zero => simp [fill]
      | succ n =>
          rw [List.cons_append, fill, if_neg (Ne.symm ne), ih noNL]
          by_cases short : l.length < n
          · rw [if_pos short, if_pos (by simpa using short)]
            rfl
          · rw [if_neg short, if_neg (by simpa using short)]
            rfl

theorem fill_end (noNL : NL ∉ l) (n : Nat) :
    fill n l = if l.length < n then (l, [], true) else (l.take n, l.drop n, false) := by
  induction l generalizing n with
  | nil =>
      cases n with
      | zero => rfl
      | succ n => simp [fill]
  | cons c l ih =>
      obtain ⟨ne, noNL⟩ : NL ≠ c ∧ NL ∉ l := by simpa using noNL
      cases n with
      | zero => simp [fill]
      | succ n =>
          rw [fill, if_neg (Ne.symm ne), ih noNL]
          by_cases short : l.length < n
          · rw [if_pos short, if_pos (by simpa using short)]
          · rw [if_neg short, if_neg (by simpa using short)]
            rfl

theorem getLast?_ne_of_not_mem {c : UInt8} (h : c ∉ l) : l.getLast? ≠ some c := fun eq =>
  h (List.mem_of_getLast? eq)

theorem getlineLoop_line (noNL : NL ∉ l) (acc rest : List UInt8) :
    getlineLoop acc (l ++ NL :: rest) = (acc ++ l, rest, false) := by
  obtain ⟨n, hn⟩ : ∃ n, n = l.length := ⟨_, rfl⟩
  induction n using Nat.strongRecOn generalizing l acc with
  | ind n ih =>
      rw [getlineLoop, fill_line noNL]
      by_cases short : l.length < 1000
      · rw [if_pos short]
        simp
      · have some : l.take 1000 ≠ [] := by
          intro nil
          have := congrArg List.length nil
          rw [List.length_take, List.length_nil] at this
          omega
        have last := getLast?_ne_of_not_mem (fun mem => noNL (List.mem_of_mem_take mem) :
          NL ∉ l.take 1000)
        rw [if_neg short]
        simp only []
        rw [dif_neg some, if_pos last,
          ih (l.drop 1000).length (by rw [List.length_drop]; omega)
            (fun mem => noNL (List.mem_of_mem_drop mem)) _ rfl, List.append_assoc,
          List.take_append_drop]

theorem getlineLoop_end (noNL : NL ∉ l) (acc : List UInt8) :
    getlineLoop acc l = (acc ++ l, [], true) := by
  obtain ⟨n, hn⟩ : ∃ n, n = l.length := ⟨_, rfl⟩
  induction n using Nat.strongRecOn generalizing l acc with
  | ind n ih =>
      by_cases nothing : l = []
      · subst nothing
        rw [getlineLoop, fill_end noNL, if_pos (by simp)]
        simp
      · have pos := List.length_pos_iff.mpr nothing
        rw [getlineLoop, fill_end noNL]
        by_cases short : l.length < 1000
        · rw [if_pos short]
          simp only []
          rw [dif_neg nothing, if_pos (getLast?_ne_of_not_mem noNL),
            ih 0 (by omega) (l := []) (by simp) _ rfl, List.append_nil]
        · have some : l.take 1000 ≠ [] := by
            intro nil
            have := congrArg List.length nil
            rw [List.length_take, List.length_nil] at this
            omega
          have last := getLast?_ne_of_not_mem (fun mem => noNL (List.mem_of_mem_take mem) :
            NL ∉ l.take 1000)
          rw [if_neg short]
          simp only []
          rw [dif_neg some, if_pos last,
            ih (l.drop 1000).length (by rw [List.length_drop]; omega)
              (fun mem => noNL (List.mem_of_mem_drop mem)) _ rfl, List.append_assoc,
            List.take_append_drop]

theorem getline_line (noNL : NL ∉ l) (rest : List UInt8) :
    getline (l ++ NL :: rest) = (stripCR l, rest, false) := by
  rw [getline, getlineLoop_line noNL, List.nil_append]

theorem getline_end (noNL : NL ∉ l) : getline l = (stripCR l, [], true) := by
  rw [getline, getlineLoop_end noNL, List.nil_append]

theorem exists_line (fp : List UInt8) :
    ∃ l, NL ∉ l ∧ (fp = l ∨ ∃ rest, fp = l ++ NL :: rest) := by
  by_cases mem : NL ∈ fp
  · obtain ⟨l, rest, eq, noNL⟩ := List.eq_append_cons_of_mem mem
    exact ⟨l, noNL, Or.inr ⟨rest, eq⟩⟩
  · exact ⟨fp, mem, Or.inl rfl⟩

end Lines

/-! ## From_ lines -/

section FromLines
variable {l m : List UInt8} {c : UInt8}

theorem stripCR_eq_or (l : List UInt8) : stripCR l = l ∨ l = stripCR l ++ [CR] := by
  unfold stripCR
  by_cases cr : l.getLast? = some CR
  · rw [if_pos cr]
    exact Or.inr (List.dropLast_append_getLast? CR cr).symm
  · rw [if_neg cr]
    exact Or.inl rfl

theorem stripCR_eq_iff (l : List UInt8) : stripCR l = l ↔ l.getLast? ≠ some CR := by
  unfold stripCR
  by_cases cr : l.getLast? = some CR
  · rw [if_pos cr]
    have split := List.dropLast_append_getLast? CR cr
    refine iff_of_false (fun eq => ?_) (fun ne => ne cr)
    rw [eq] at split
    simp at split
  · rw [if_neg cr]
    exact iff_of_true rfl cr

theorem isPrefixOf_concat (ne : c ≠ SP) :
    fromSpace.isPrefixOf (m ++ [c]) = fromSpace.isPrefixOf m := by
  rw [Bool.eq_iff_iff, List.isPrefixOf_iff_prefix, List.isPrefixOf_iff_prefix]
  constructor
  · intro h
    rcases List.prefix_concat_iff.mp h with whole | before
    · have last := congrArg List.getLast? whole
      rw [List.getLast?_concat] at last
      exact absurd (Option.some.inj last.symm) ne
    · exact before
  · intro h
    exact h.trans (List.prefix_append m [c])

theorem fromLine_concat (space : c ≠ SP) (quote : c ≠ byte '>') :
    fromLine (m ++ [c]) = fromLine m := by
  unfold fromLine
  have drop : (m ++ [c]).dropWhile (fun b => decide (b = byte '>')) =
      m.dropWhile (fun b => decide (b = byte '>')) ++ [c] := by
    rw [List.dropWhile_append]
    by_cases nothing : (m.dropWhile fun b => decide (b = byte '>')).isEmpty = true
    · rw [if_pos nothing, List.isEmpty_iff.mp nothing]
      simp [quote]
    · rw [if_neg nothing]
  rw [drop, isPrefixOf_concat space]

theorem fromLine_stripCR (l : List UInt8) : fromLine (stripCR l) = fromLine l := by
  rcases stripCR_eq_or l with same | cut
  · rw [same]
  · conv_rhs => rw [cut]
    rw [fromLine_concat (by decide) (by decide)]

theorem isPrefixOf_stripCR (l : List UInt8) :
    fromSpace.isPrefixOf (stripCR l) = fromSpace.isPrefixOf l := by
  rcases stripCR_eq_or l with same | cut
  · rw [same]
  · conv_rhs => rw [cut]
    rw [isPrefixOf_concat (by decide)]

theorem fromLine_cons_quote (l : List UInt8) : fromLine (byte '>' :: l) = fromLine l := by
  unfold fromLine
  simp

theorem fromLine_of_isPrefixOf (h : fromSpace.isPrefixOf l = true) : fromLine l = true := by
  obtain ⟨t, rfl⟩ := List.isPrefixOf_iff_prefix.mp h
  unfold fromLine
  exact h

theorem quote_not_from (l : List UInt8) : fromSpace.isPrefixOf (quote l) = false := by
  unfold quote
  by_cases h : fromLine l = true
  · rw [if_pos h]
    rfl
  · rw [if_neg h]
    cases starts : fromSpace.isPrefixOf l with
    | false => rfl
    | true => exact absurd (fromLine_of_isPrefixOf starts) h

theorem dequote_quote (l : List UInt8) : dequote (quote l) = l := by
  unfold quote
  by_cases h : fromLine l = true
  · rw [if_pos h]
    unfold dequote
    rw [fromLine_cons_quote, if_pos List.head?_cons, if_pos h]
    rfl
  · rw [if_neg h]
    unfold dequote
    rw [if_neg h, ite_self]

theorem quote_stripCR (l : List UInt8) : stripCR (quote l) = quote (stripCR l) := by
  unfold quote
  rw [fromLine_stripCR]
  by_cases h : fromLine l = true
  · rw [if_pos h, if_pos h]
    rcases l with _ | ⟨c, l⟩
    · exact absurd h (by decide)
    · unfold stripCR
      rw [List.getLast?_cons_cons, List.dropLast_cons_cons]
      split
      · rfl
      · rfl
  · rw [if_neg h, if_neg h]

theorem dequote_concat (l : List UInt8) : dequote (l ++ [NL]) = dequote l ++ [NL] := by
  unfold dequote
  rw [fromLine_concat (by decide) (by decide)]
  rcases l with _ | ⟨c, l⟩
  · rfl
  · rw [List.cons_append, List.head?_cons, List.head?_cons]
    split
    · split
      · rfl
      · rfl
    · rfl

theorem noNL_quote (noNL : NL ∉ l) : NL ∉ quote l := by
  unfold quote
  split
  · simpa using ⟨by decide, noNL⟩
  · exact noNL

theorem quote_eq_nil_iff (l : List UInt8) : quote l = [] ↔ l = [] := by
  unfold quote
  by_cases h : fromLine l = true
  · rw [if_pos h]
    refine iff_of_false (by simp) ?_
    rintro rfl
    exact absurd h (by decide)
  · rw [if_neg h]

theorem quote_eq_iff (l : List UInt8) : quote l = l ↔ fromLine l = false := by
  unfold quote
  by_cases h : fromLine l = true
  · rw [if_pos h, h]
    simp
  · rw [if_neg h]
    simpa using h

end FromLines

/-! ## What is added -/

section Added

def addedLines (f : List UInt8) : List (List UInt8) :=
  let r := getline f
  if r.1 = [] && r.2.2 then []
  else r.1 :: (if _h : r.2.2 = false then addedLines r.2.1 else [])
  termination_by f.length
  decreasing_by exact getline_length f _h

/-- The lines as they stand in the folder file. -/
def quotedText (ls : List (List UInt8)) : List UInt8 := ls.flatMap fun l => quote l ++ [NL]

theorem noNL_stripCR {l : List UInt8} (noNL : NL ∉ l) : NL ∉ stripCR l := by
  unfold stripCR
  split
  · exact fun mem => noNL (List.mem_of_mem_dropLast mem)
  · exact noNL

theorem noNL_getline (f : List UInt8) : NL ∉ (getline f).1 := by
  obtain ⟨l, noNL, rfl | ⟨rest, rfl⟩⟩ := exists_line f
  · rw [getline_end noNL]
    exact noNL_stripCR noNL
  · rw [getline_line noNL]
    exact noNL_stripCR noNL

theorem noNL_addedLines (f : List UInt8) : ∀ l ∈ addedLines f, NL ∉ l := by
  induction f using addedLines.induct with
  | case1 f r done =>
      intro l mem
      rw [addedLines, if_pos done] at mem
      exact absurd mem List.not_mem_nil
  | case2 f r some ih =>
      intro l mem
      rw [addedLines, if_neg some] at mem
      rcases List.mem_cons.mp mem with rfl | mem
      · exact noNL_getline f
      · by_cases more : (getline f).2.2 = false
        · rw [dif_pos more] at mem
          exact ih more l mem
        · rw [dif_neg more] at mem
          exact absurd mem List.not_mem_nil

theorem copyLoop_eq (f : List UInt8) : copyLoop f = quotedText (addedLines f) := by
  induction f using addedLines.induct with
  | case1 f r done =>
      rw [copyLoop, addedLines, if_pos done, if_pos done]
      rfl
  | case2 f r some ih =>
      rw [copyLoop, addedLines, if_neg some, if_neg some]
      unfold quotedText
      rw [List.flatMap_cons]
      by_cases more : (getline f).2.2 = false
      · rw [dif_pos more, dif_pos more, ih more]
        rfl
      · rw [dif_neg more, dif_neg more, List.flatMap_nil]

end Added

/-! ## Behind the line with the UID -/

section Body
variable {ls : List (List UInt8)} {following : List UInt8}

def Ends (following : List UInt8) : Prop := following = [] ∨ fromSpace <+: following

theorem getline_following (h : fromSpace <+: following) :
    fromSpace.isPrefixOf (getline following).1 = true := by
  obtain ⟨l, noNL, rfl | ⟨rest, rfl⟩⟩ := exists_line following
  · rw [getline_end noNL, isPrefixOf_stripCR]
    exact List.isPrefixOf_iff_prefix.mpr h
  · rw [getline_line noNL, isPrefixOf_stripCR]
    have line : l ++ [NL] <+: l ++ NL :: rest := ⟨rest, by simp⟩
    rcases List.prefix_or_prefix_of_prefix h line with before | whole
    · rw [← isPrefixOf_concat (c := NL) (by decide)]
      exact List.isPrefixOf_iff_prefix.mpr before
    · have mem : NL ∈ fromSpace := whole.subset (by simp)
      exact absurd mem (by decide)

theorem Ends.getline (h : Ends following) :
    ((Mbox.getline following).1 = [] && (Mbox.getline following).2.2) = true ∨
      fromSpace.isPrefixOf (Mbox.getline following).1 = true := by
  rcases h with rfl | next
  · left
    rw [getline_end (by simp)]
    rfl
  · exact Or.inr (getline_following next)

theorem getMessageLoop_lines (noNL : ∀ l ∈ ls, NL ∉ l) (h : Ends following) :
    getMessageLoop false (quotedText ls ++ following) = ls.map fun l => stripCR l ++ [NL] := by
  induction ls with
  | nil =>
      have rest : quotedText [] ++ following = following := rfl
      rw [rest, getMessageLoop]
      by_cases done : ((getline following).1 = [] && (getline following).2.2) = true
      · rw [if_pos done]
        rfl
      · rw [if_neg done, if_pos (h.getline.resolve_left done), if_neg (by simp)]
        rfl
  | cons l ls ih =>
      have noNLq : NL ∉ quote l := noNL_quote (noNL l List.mem_cons_self)
      have text : quotedText (l :: ls) ++ following =
          quote l ++ NL :: (quotedText ls ++ following) := by
        simp [quotedText]
      rw [text, getMessageLoop, getline_line noNLq]
      simp only [isPrefixOf_stripCR, quote_not_from]
      rw [ih fun l' mem => noNL l' (List.mem_cons_of_mem _ mem), quote_stripCR, dequote_quote]
      simp

def readLines : Bool → List (List UInt8) → List (List UInt8)
  | _, [] => []
  | true, l :: ls => (quote (stripCR l) ++ [NL]) :: readLines (decide (stripCR l ≠ [])) ls
  | false, l :: ls => (stripCR l ++ [NL]) :: readLines false ls

theorem readLoop_lines (unicodeIsspace : UInt8 → Bool) (noNL : ∀ l ∈ ls, NL ∉ l)
    (h : Ends following) (inHeaders : Bool) :
    readLoop unicodeIsspace .readBoth false inHeaders [] (quotedText ls ++ following) =
      readLines inHeaders ls := by
  induction ls generalizing inHeaders with
  | nil =>
      have rest : quotedText [] ++ following = following := rfl
      rw [rest, readLoop]
      by_cases done : ((getline following).1 = [] && (getline following).2.2) = true
      · rw [if_pos done]
        cases inHeaders <;> rfl
      · rw [if_neg done, if_pos (h.getline.resolve_left done), if_neg (by simp)]
        cases inHeaders <;> rfl
  | cons l ls ih =>
      have noNLq : NL ∉ quote l := noNL_quote (noNL l List.mem_cons_self)
      have text : quotedText (l :: ls) ++ following =
          quote l ++ NL :: (quotedText ls ++ following) := by
        simp [quotedText]
      have next := ih fun l' mem => noNL l' (List.mem_cons_of_mem _ mem)
      rw [text, readLoop, getline_line noNLq]
      simp only [isPrefixOf_stripCR, quote_not_from]
      cases inHeaders with
      | true => simp [next, readLines, quote_stripCR, quote_eq_nil_iff]
      | false => simp [next, readLines, quote_stripCR, dequote_concat, dequote_quote]

end Body

/-! ## The From_ line and the line with the UID -/

section Front
variable {env : Environment} {messageInfo : MessageInfo} {date rest : List UInt8}

structure OneLine (env : Environment) (date : List UInt8) : Prop where
  pwName : NL ∉ env.pwName.getD (str "nobody")
  ctime : env.ctime = date ++ [NL]
  date : NL ∉ date
  hostname : NL ∉ env.hostname

def tagLine (env : Environment) (messageInfo : MessageInfo) : List UInt8 :=
  tagToString (newUid env.time env.pid env.counter env.hostname) messageInfo

theorem noNL_decimal (n : Nat) : NL ∉ decimal n := by
  intro mem
  have digit := isdigit_of_mem_decimal mem
  exact absurd digit (by decide)

theorem noNL_tagLine (h : OneLine env date) (messageInfo : MessageInfo) :
    NL ∉ tagLine env messageInfo := by
  have uid : NL ∉ newUid env.time env.pid env.counter env.hostname := by
    unfold newUid
    intro mem
    have := (List.mem_filter.mp mem).1
    simp only [List.mem_append, List.mem_cons, noNL_decimal, h.hostname, or_false, false_or] at this
    rcases this with ((eq | eq) | eq) <;> exact absurd eq (by decide)
  have letters : NL ∉ magicTag ∧ NL ∉ str "R" ∧ NL ∉ str "O" ∧ NL ∉ str "F" ∧ NL ∉ str "A" ∧
      NL ∉ str "D" ∧ NL ∉ str "d" ∧ NL ≠ byte ':' := by decide
  obtain ⟨tag, r, o, f, a, d, d', colon⟩ := letters
  unfold tagLine tagToString
  simp only [List.mem_append, List.mem_cons, not_or]
  refine ⟨tag, ⟨⟨⟨⟨⟨?_, ?_⟩, ?_⟩, ?_⟩, ?_⟩, ?_⟩, colon, uid⟩
  all_goals split
  all_goals first
    | assumption
    | exact List.not_mem_nil

/-- Flags and a colon are enough for a tag, whatever the end of the line is. -/
theorem tagGood_magicTag {x : List UInt8} (some : x ≠ []) : tagGood (magicTag ++ x) = true := by
  have prefix' : magicTag.isPrefixOf (magicTag ++ x) = true :=
    List.isPrefixOf_iff_prefix.mpr (List.prefix_append _ _)
  unfold tagGood tagOfHeader
  rw [if_pos prefix', List.drop_left]
  simp only [decide_eq_true_eq]
  split
  · split
    · simp
    · exact some
  · exact some

theorem tagLine_stripCR (env : Environment) (messageInfo : MessageInfo) :
    tagGood (stripCR (tagLine env messageInfo)) = true ∧
      fromSpace.isPrefixOf (stripCR (tagLine env messageInfo)) = false := by
  obtain ⟨x, c, y, eq, ne⟩ : ∃ (x : List UInt8) (c : UInt8) (y : List UInt8),
      tagLine env messageInfo = magicTag ++ (x ++ c :: y) ∧ c ≠ CR :=
    ⟨_, byte ':', _, rfl, by decide⟩
  have strip : ∃ z, stripCR (magicTag ++ (x ++ c :: y)) = magicTag ++ z ∧ z ≠ [] := by
    rcases List.eq_nil_or_concat y with rfl | ⟨y, d, rfl⟩
    · refine ⟨x ++ [c], ?_, by simp⟩
      rw [stripCR_eq_iff, ← List.append_assoc, List.getLast?_concat]
      simpa using ne
    · have last : magicTag ++ (x ++ c :: y.concat d) = (magicTag ++ (x ++ c :: y)) ++ [d] := by
        simp
      rw [last]
      rcases stripCR_eq_or ((magicTag ++ (x ++ c :: y)) ++ [d]) with same | cut
      · exact ⟨x ++ c :: y ++ [d], by rw [same]; simp, by simp⟩
      · exact ⟨x ++ c :: y, (List.append_inj' cut rfl).1.symm, by simp⟩
  obtain ⟨z, strip, some⟩ := strip
  rw [eq, strip]
  exact ⟨tagGood_magicTag some, rfl⟩

theorem entryHeader_eq (h : OneLine env date) (messageInfo : MessageInfo) (rest : List UInt8) :
    ∃ l, NL ∉ l ∧ fromSpace.isPrefixOf l = true ∧
      entryHeader env messageInfo ++ rest = l ++ NL :: (tagLine env messageInfo ++ NL :: rest) := by
  refine ⟨fromSpace ++ env.pwName.getD (str "nobody") ++ [SP] ++ date, ?_, ?_, ?_⟩
  · simp only [List.mem_append, List.mem_singleton, h.pwName, h.date, or_false, not_or]
    exact ⟨by decide, by decide⟩
  · rw [List.isPrefixOf_iff_prefix, List.append_assoc, List.append_assoc]
    exact List.prefix_append _ _
  · unfold entryHeader tagLine
    rw [h.ctime]
    simp

theorem getMessageLoop_front (h : OneLine env date) (messageInfo : MessageInfo)
    (rest : List UInt8) :
    getMessageLoop true (entryHeader env messageInfo ++ rest) = getMessageLoop false rest := by
  obtain ⟨l, noNL, from', eq⟩ := entryHeader_eq h messageInfo rest
  obtain ⟨good, notFrom⟩ := tagLine_stripCR env messageInfo
  rw [eq, getMessageLoop, getline_line noNL]
  simp only [isPrefixOf_stripCR, from']
  rw [getMessageLoop, getline_line (noNL_tagLine h messageInfo)]
  simp [notFrom, good]

theorem readLoop_front (unicodeIsspace : UInt8 → Bool) (readType : ReadMode)
    (h : OneLine env date) (messageInfo : MessageInfo) (rest : List UInt8) :
    readLoop unicodeIsspace readType true true [] (entryHeader env messageInfo ++ rest) =
      readLoop unicodeIsspace readType false true [] rest := by
  obtain ⟨l, noNL, from', eq⟩ := entryHeader_eq h messageInfo rest
  obtain ⟨good, notFrom⟩ := tagLine_stripCR env messageInfo
  rw [eq, readLoop, getline_line noNL]
  simp only [isPrefixOf_stripCR, from']
  rw [readLoop, getline_line (noNL_tagLine h messageInfo)]
  simp [notFrom, good]

end Front

/-! ## What comes back -/

section Back

def startingPos (file : List UInt8) : Nat :=
  file.length + (if file.getLast?.getD NL ≠ NL then 1 else 0)

def headerLines (ls : List (List UInt8)) : List (List UInt8) := ls.takeWhile fun l => decide (l ≠ [])

def withNewlines (ls : List (List UInt8)) : List (List UInt8) := ls.map fun l => l ++ [NL]

theorem map_stripCR_eq_iff (ls : List (List UInt8)) :
    (ls.map fun l => stripCR l ++ [NL]) = withNewlines ls ↔ ∀ l ∈ ls, l.getLast? ≠ some CR := by
  unfold withNewlines
  rw [List.map_inj_left]
  simp only [List.append_cancel_right_eq, stripCR_eq_iff]

theorem readLines_eq_iff {ls : List (List UInt8)} (noCR : ∀ l ∈ ls, l.getLast? ≠ some CR)
    (inHeaders : Bool) :
    readLines inHeaders ls = withNewlines ls ↔
      (inHeaders = true → ∀ l ∈ headerLines ls, fromLine l = false) := by
  induction ls generalizing inHeaders with
  | nil => exact iff_of_true (by cases inHeaders <;> rfl) (by simp [headerLines])
  | cons l ls ih =>
      have strip := (stripCR_eq_iff l).mpr (noCR l List.mem_cons_self)
      have next := ih fun l' mem => noCR l' (List.mem_cons_of_mem _ mem)
      cases inHeaders with
      | false =>
          rw [readLines, strip]
          have tail := (next false).mpr (by simp)
          exact iff_of_true (by rw [tail]; rfl) (by simp)
      | true =>
          rw [readLines, strip]
          have heads : (quote l ++ [NL]) :: readLines (decide (l ≠ [])) ls = withNewlines (l :: ls) ↔
              fromLine l = false ∧ readLines (decide (l ≠ [])) ls = withNewlines ls := by
            unfold withNewlines
            rw [List.map_cons, List.cons.injEq, List.append_cancel_right_eq, quote_eq_iff]
          rw [heads, next]
          by_cases empty : l = []
          · subst empty
            simp [headerLines]
            decide
          · have block : headerLines (l :: ls) = l :: headerLines ls :=
              List.takeWhile_cons_of_pos (by simpa using empty)
            rw [block]
            simp [empty]

def ReadBack (unicodeIsspace : UInt8 → Bool) (pos : Nat) (file : List UInt8)
    (ls : List (List UInt8)) : Prop :=
  getMessage pos file = withNewlines ls ∧
    readTask unicodeIsspace .readBoth pos file = withNewlines ls

theorem copyTo_drop (env : Environment) (messageInfo : MessageInfo)
    (file content following : List UInt8) :
    (copyTo env messageInfo file content ++ following).drop (startingPos file) =
      entryHeader env messageInfo ++ (quotedText (addedLines content) ++ following) := by
  have front : (file ++ if file.getLast?.getD NL ≠ NL then [NL] else []).length = startingPos file := by
    unfold startingPos
    rw [List.length_append]
    split <;> rfl
  have text : copyTo env messageInfo file content ++ following =
      (file ++ if file.getLast?.getD NL ≠ NL then [NL] else []) ++
        (entryHeader env messageInfo ++ (quotedText (addedLines content) ++ following)) := by
    unfold copyTo
    rw [copyLoop_eq]
    simp only [List.append_assoc]
  rw [text]
  exact List.drop_left' front

theorem readBack_iff (unicodeIsspace : UInt8 → Bool) (env : Environment) (date : List UInt8)
    (oneLine : OneLine env date) (messageInfo : MessageInfo) (file content following : List UInt8)
    (ends : Ends following) :
    ReadBack unicodeIsspace (startingPos file) (copyTo env messageInfo file content ++ following)
        (addedLines content) ↔
      (∀ l ∈ addedLines content, l.getLast? ≠ some CR) ∧
        ∀ l ∈ headerLines (addedLines content), fromLine l = false := by
  unfold ReadBack getMessage readTask
  rw [copyTo_drop, getMessageLoop_front oneLine, readLoop_front _ _ oneLine,
    getMessageLoop_lines (noNL_addedLines content) ends,
    readLoop_lines unicodeIsspace (noNL_addedLines content) ends, map_stripCR_eq_iff]
  constructor
  · rintro ⟨noCR, read⟩
    exact ⟨noCR, (readLines_eq_iff noCR true).mp read rfl⟩
  · rintro ⟨noCR, notFrom⟩
    exact ⟨noCR, (readLines_eq_iff noCR true).mpr fun _ => notFrom⟩

/-- A user, a date, and a new UID. -/
def sampleEnvironment : Environment where
  pwName := some (str "joe")
  ctime := str "Thu Jan  1 00:00:00 1970" ++ [NL]
  time := 0
  pid := 1
  counter := 0
  hostname := str "localhost"

def newMessage : MessageInfo where
  unread := true
  recent := true
  marked := false
  replied := false
  deleted := false
  draft := false

theorem sample_oneLine : OneLine sampleEnvironment (str "Thu Jan  1 00:00:00 1970") where
  pwName := by decide
  ctime := rfl
  date := by decide
  hostname := by decide

/-- A quoted line in the body, behind a header. -/
theorem readBack_sample :
    ReadBack isspace 1 (copyTo sampleEnvironment newMessage [NL]
      (str "A: b" ++ [NL, NL] ++ str ">From me" ++ [NL])) [str "A: b", [], str ">From me"] := by
  have lines : addedLines (str "A: b" ++ [NL, NL] ++ str ">From me" ++ [NL]) =
      [str "A: b", [], str ">From me"] := by decide +kernel
  have back := readBack_iff isspace sampleEnvironment _ sample_oneLine newMessage [NL]
    (str "A: b" ++ [NL, NL] ++ str ">From me" ++ [NL]) [] (Or.inl rfl)
  rw [lines, List.append_nil] at back
  exact back.mpr (by decide)

/-- A message that begins with a From_ line: one reader gives it back, the other leaves it quoted. -/
theorem from_header_not_read_back :
    addedLines (str "From me" ++ [NL]) = [str "From me"] ∧
      getMessage 0 (copyTo sampleEnvironment newMessage [] (str "From me" ++ [NL])) =
        [str "From me" ++ [NL]] ∧
      readTask isspace .readBoth 0 (copyTo sampleEnvironment newMessage [] (str "From me" ++ [NL])) =
        [str ">From me" ++ [NL]] := by
  decide +kernel

end Back

end Cone.Mbox
