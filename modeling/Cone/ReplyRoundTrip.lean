import Mathlib
import Cone.ReplyLines

/-! # Reading a reply back

A reply to a flowed text is read again as flowed text with `delsp`, the format that `mkreply`
declares.  Each logical line comes back, one level deeper, unless one of its physical lines
was empty where it flowed on or was joined, or its text ended in a carriage return that the
newline of the reply now makes part of a line end. -/
set_option autoImplicit false
namespace Cone.ReplyRoundTrip

open Cone.Lib.Runs Cone.Lib.Trim Cone.FlowedText Cone.Rfc2045Reply Cone.Rfc3676Parser
open Cone.Rfc3676Peel Cone.Rfc3676Lines Cone.ReplyLines

section Unlines

def dropCr (line : List Char) : List Char :=
  if line.getLast? = some '\r' then line.dropLast else line

theorem mem_dropCr {line : List Char} {c : Char} (hc : c ∈ dropCr line) : c ∈ line := by
  unfold dropCr at hc
  split at hc
  · exact (List.dropLast_sublist _).subset hc
  · exact hc

theorem dropCr_append (x y : List Char) (ne : y ≠ []) : dropCr (x ++ y) = x ++ dropCr y := by
  unfold dropCr
  rw [List.getLast?_append_of_ne_nil _ ne]
  split
  · exact List.dropLast_append_of_ne_nil ne
  · rfl

theorem dropCr_cons_cons (c d : Char) (line : List Char) :
    dropCr (c :: d :: line) = c :: dropCr (d :: line) := dropCr_append [c] (d :: line) (by simp)

theorem collapseCrlf_line (line rest : List Char) (oneLine : '\n' ∉ line) :
    collapseCrlf (line ++ '\n' :: rest) = dropCr line ++ '\n' :: collapseCrlf rest := by
  induction line with
  | nil => exact collapseCrlf_cons '\n' rest (fun nl => absurd nl (by decide))
  | cons c line ih =>
      rw [List.mem_cons, not_or] at oneLine
      have later := ih oneLine.2
      cases line with
      | nil =>
          by_cases cr : c = '\r'
          · subst cr
            rfl
          · have keeps := collapseCrlf_cons c ('\n' :: rest) (fun h => absurd h cr)
            rw [List.nil_append] at later
            rw [List.singleton_append, keeps, later]
            simp [dropCr, cr]
      | cons d line =>
          have notNl : d ≠ '\n' := fun nl => oneLine.2 (by simp [nl])
          rw [List.cons_append, List.cons_append, collapseCrlf_cons c _ (fun _ => by simpa using notNl),
            ← List.cons_append, later, dropCr_cons_cons]
          rfl

theorem collapseCrlf_unlines (lines : List (List Char)) (oneLine : ∀ l ∈ lines, '\n' ∉ l) :
    collapseCrlf (unlines lines) = unlines (lines.map dropCr) := by
  induction lines with
  | nil => rfl
  | cons l lines ih =>
      have rest := ih (fun l' hl' => oneLine l' (by simp [hl']))
      simp only [unlines, List.flatMap_cons, List.append_assoc, List.singleton_append,
        List.map_cons] at rest ⊢
      rw [collapseCrlf_line l _ (oneLine l (by simp)), rest]

theorem physicalLines_unlines (lines : List (List Char)) (oneLine : ∀ l ∈ lines, '\n' ∉ l) :
    physicalLines (unlines lines) = lines.map fun l => readLine (dropCr l, true) := by
  have oneLine' : ∀ l ∈ lines.map dropCr, '\n' ∉ l := by
    intro l hl nl
    obtain ⟨l', hl', rfl⟩ := List.mem_map.mp hl
    exact oneLine l' hl' (mem_dropCr nl)
  have split := splitLines_lines (lines.map dropCr) [] oneLine' (by simp)
  rw [List.append_nil] at split
  rw [physicalLines, collapseCrlf_unlines lines oneLine, unlines, split]
  simp [cutLine]

theorem oneLine_of_mem_physicalLines {text : List Char} {l : Line} (hl : l ∈ physicalLines text) :
    '\n' ∉ l.body := by
  obtain ⟨ls, last, oneLine, oneLine', lines⟩ := exists_lines (collapseCrlf text)
  rw [physicalLines, lines, splitLines_lines ls last oneLine oneLine'] at hl
  obtain ⟨line, hline, rfl⟩ := List.mem_map.mp hl
  intro nl
  have nl' := mem_of_mem_body nl
  rcases List.mem_append.mp hline with hline | hline
  · obtain ⟨l', hl', rfl⟩ := List.mem_map.mp hline
    exact oneLine l' hl' nl'
  · unfold cutLine at hline
    split at hline
    · cases hline
    · obtain rfl := List.mem_singleton.mp hline
      exact oneLine' nl'

end Unlines

section Images
variable (quoteLevel : Nat) (seg : List Char)

def wrappedImage : Line := ⟨quoteLevel + 1, if seg = [] then [] else seg ++ [' '], true⟩

def lastImage : Line := ⟨quoteLevel + 1, dropCr (trim ' ' seg), true⟩

theorem readLine_quoted (rest : List Char) (other : rest.head? ≠ some '>') :
    readLine (List.replicate (quoteLevel + 1) '>' ++ rest, true) =
      ⟨quoteLevel + 1, unstuff rest, true⟩ := by
  have stop : rest.takeWhile (· = '>') = [] := by
    cases rest with
    | nil => rfl
    | cons c rest => simpa using other
  have stay : rest.dropWhile (· = '>') = rest := by
    cases rest with
    | nil => rfl
    | cons c rest =>
        have ne : c ≠ '>' := by simpa using other
        simp [ne]
  have marks : ∀ n, ((List.replicate n '>' ++ rest).takeWhile (· = '>')).length = n ∧
      (List.replicate n '>' ++ rest).dropWhile (· = '>') = rest := by
    intro n
    induction n with
    | zero => simp [stop, stay]
    | succ n ih =>
        rw [List.replicate_succ, List.cons_append, List.takeWhile_cons, List.dropWhile_cons]
        simp only [decide_true, if_true, List.length_cons, ih.1, ih.2, and_self]
  simp only [readLine, marks]

theorem readLine_wrappedLine :
    readLine (dropCr (wrappedLine quoteLevel seg), true) = wrappedImage quoteLevel seg := by
  have spaced : dropCr (wrappedLine quoteLevel seg) = wrappedLine quoteLevel seg := by
    simp [dropCr, wrappedLine]
  rw [spaced, wrappedLine, List.append_assoc, readLine_quoted]
  · by_cases empty : seg = []
    · simp [empty, wrappedImage, unstuff]
    · simp [empty, wrappedImage, unstuff]
  · by_cases empty : seg = []
    · simp [empty]
    · simp [empty]

theorem readLine_lastLine :
    readLine (dropCr (lastLine quoteLevel seg), true) = lastImage quoteLevel seg := by
  by_cases empty : seg = []
  · have marks : dropCr (lastLine quoteLevel seg) = List.replicate (quoteLevel + 1) '>' ++ [] := by
      have noCr : ¬(List.replicate (quoteLevel + 1) '>').getLast? = some '\r' := by
        intro last
        have := List.mem_of_getLast? last
        simp at this
      simp [lastLine, empty, dropCr, noCr]
    rw [marks, readLine_quoted _ _ (by simp)]
    simp [lastImage, empty, unstuff, dropCr]
  · rw [lastLine, if_neg empty, dropCr_append _ _ (by simp)]
    have stuffed : dropCr (' ' :: trim ' ' seg) = ' ' :: dropCr (trim ' ' seg) := by
      cases left : trim ' ' seg with
      | nil => simp [dropCr]
      | cons c text => exact dropCr_cons_cons ' ' c text
    rw [stuffed, readLine_quoted _ _ (by simp)]
    rfl

end Images

section Groups
variable (quoteLevel : Nat)

def images (segs : List (List Char)) : List Line :=
  mapLast (wrappedImage quoteLevel) (lastImage quoteLevel) segs

/-- The soft breaks come back: no part that flows on is empty, and a last part that was joined
is more than spaces. -/
def KeepsJoins (segs : List (List Char)) : Prop :=
  (∀ seg ∈ segs.dropLast, seg ≠ []) ∧
    (1 < segs.length → ∀ seg ∈ segs.getLast?, trim ' ' seg ≠ [])

/-- The end comes back: no carriage return is left before the newline. -/
def KeepsEnd (segs : List (List Char)) : Prop :=
  ∀ seg ∈ segs.getLast?, (trim ' ' seg).getLast? ≠ some '\r'

def NoSignature (segs : List (List Char)) : Prop := ∀ seg ∈ segs.dropLast, seg ≠ ['-', '-']

theorem noSignature_cons (seg seg' : List Char) (segs : List (List Char)) :
    NoSignature (seg :: seg' :: segs) ↔ seg ≠ ['-', '-'] ∧ NoSignature (seg' :: segs) := by
  simp [NoSignature]

theorem keepsEnd_cons (seg seg' : List Char) (segs : List (List Char)) :
    KeepsEnd (seg :: seg' :: segs) ↔ KeepsEnd (seg' :: segs) := by
  simp only [KeepsEnd, List.getLast?_cons_cons]

theorem keepsJoins_cons (seg seg' seg'' : List Char) (segs : List (List Char)) :
    KeepsJoins (seg :: seg' :: seg'' :: segs) ↔ seg ≠ [] ∧ KeepsJoins (seg' :: seg'' :: segs) := by
  simp [KeepsJoins, and_assoc]

theorem KeepsJoins.head_ne {seg seg' : List Char} {segs : List (List Char)}
    (keeps : KeepsJoins (seg :: seg' :: segs)) : seg ≠ [] := keeps.1 seg (by simp)

theorem wrappedImage_flows (seg : List Char) (other : seg ≠ ['-', '-']) :
    (wrappedImage quoteLevel seg).flows = true ↔ seg ≠ [] := by
  by_cases empty : seg = []
  · simp [wrappedImage, Line.flows, empty]
  · have notSig : seg ++ [' '] ≠ signature := by
      intro sig
      have split : seg ++ [' '] = ['-', '-'] ++ [' '] := sig
      exact other (List.append_cancel_right split)
    simp [wrappedImage, Line.flows, empty, notSig]

theorem lastImage_flows (seg : List Char) (ends : (trim ' ' seg).getLast? ≠ some '\r') :
    (lastImage quoteLevel seg).flows = false := by
  have last := getLast?_trim_ne ' ' seg
  simp [lastImage, Line.flows, dropCr, ends, last]

theorem text_flows {l : Line} (flows : l.flows = true) (ended : l.ended = true) :
    (asParsed true).text l = l.body.dropLast := by
  simp [asParsed, flows, ended]

theorem text_fixed {l : Line} (fixed : l.flows = false) (delsp : Bool) :
    (asParsed delsp).text l = l.body := by
  simp [asParsed, fixed]

theorem text_wrappedImage (seg : List Char) (other : seg ≠ ['-', '-']) :
    (asParsed true).text (wrappedImage quoteLevel seg) = seg := by
  have flows := wrappedImage_flows quoteLevel seg other
  by_cases empty : seg = []
  · rw [text_fixed (by simpa [empty] using flows)]
    simp [wrappedImage, empty]
  · rw [text_flows (flows.mpr empty) rfl]
    simp [wrappedImage, empty]

theorem text_lastImage (seg : List Char) (ends : (trim ' ' seg).getLast? ≠ some '\r') :
    (asParsed true).text (lastImage quoteLevel seg) = trim ' ' seg := by
  rw [text_fixed (lastImage_flows quoteLevel seg ends)]
  simp [lastImage, dropCr, ends]

theorem joins_wrappedImage (seg : List Char) (other : seg ≠ ['-', '-']) (m : Line)
    (level : m.quoteLevel = quoteLevel + 1) (ended : m.ended = true) :
    (asParsed true).joins (wrappedImage quoteLevel seg) m = true ↔
      seg ≠ [] ∧ m.body ≠ [] ∧ m.body ≠ signature := by
  have flows := wrappedImage_flows quoteLevel seg other
  have same : m.quoteLevel = (wrappedImage quoteLevel seg).quoteLevel := level
  have line : (wrappedImage quoteLevel seg).ended = true := rfl
  simp only [asParsed, Bool.and_eq_true, decide_eq_true_eq, Bool.or_eq_true, ended, same, line, flows]
  simp [and_assoc]

theorem isChain_images_iff (segs : List (List Char)) (noSig : NoSignature segs)
    (ends : KeepsEnd segs) :
    (images quoteLevel segs).IsChain (fun l m => (asParsed true).joins l m) ↔ KeepsJoins segs := by
  induction segs using mapLast.induct with
  | case1 => simp [images, mapLast, KeepsJoins]
  | case2 seg => simp [images, mapLast, KeepsJoins]
  | case3 seg seg' segs ih =>
      rw [noSignature_cons] at noSig
      rw [keepsEnd_cons] at ends
      have rest := ih noSig.2 ends
      cases segs with
      | nil =>
          have last : (trim ' ' seg').getLast? ≠ some '\r' := ends seg' (by simp)
          have body : (lastImage quoteLevel seg').body = trim ' ' seg' := by
            simp [lastImage, dropCr, last]
          have notSig : trim ' ' seg' ≠ signature := by
            intro sig
            apply getLast?_trim_ne ' ' seg'
            simp [sig, signature]
          have joins := joins_wrappedImage quoteLevel seg noSig.1 (lastImage quoteLevel seg') rfl rfl
          simp only [images, mapLast, List.isChain_cons_cons, List.IsChain.singleton, and_true, joins,
            body, ne_eq, notSig, not_false_eq_true]
          simp [KeepsJoins]
      | cons seg'' segs =>
          have other' := (noSignature_cons seg' seg'' segs).mp noSig.2
          have joins := joins_wrappedImage quoteLevel seg noSig.1 (wrappedImage quoteLevel seg') rfl rfl
          have body : seg' ≠ [] → (wrappedImage quoteLevel seg').body ≠ [] ∧
              (wrappedImage quoteLevel seg').body ≠ signature := by
            intro ne
            have flows := (wrappedImage_flows quoteLevel seg' other'.1).mpr ne
            constructor
            · simp [wrappedImage, ne]
            · intro sig
              simp [Line.flows, sig] at flows
          rw [keepsJoins_cons, ← rest]
          simp only [images, mapLast, List.isChain_cons_cons, joins]
          constructor
          · rintro ⟨⟨ne, _⟩, chain⟩
            exact ⟨ne, chain⟩
          · rintro ⟨ne, chain⟩
            exact ⟨⟨ne, body (rest.mp chain).head_ne⟩, chain⟩

/-- Up to trailing spaces, the text of a logical line comes back when its end does. -/
theorem trim_images (segs : List (List Char)) (noSig : NoSignature segs) (ends : KeepsEnd segs) :
    trim ' ' ((images quoteLevel segs).flatMap (asParsed true).text) = trim ' ' segs.flatten := by
  induction segs using mapLast.induct with
  | case1 => rfl
  | case2 seg =>
      have text := text_lastImage quoteLevel seg (ends seg (by simp))
      simp [images, mapLast, text]
  | case3 seg seg' segs ih =>
      rw [noSignature_cons] at noSig
      rw [keepsEnd_cons] at ends
      have rest := ih noSig.2 ends
      rw [images, mapLast, List.flatMap_cons, text_wrappedImage quoteLevel seg noSig.1,
        List.flatten_cons, ← trim_append_trim]
      rw [images] at rest
      rw [rest, trim_append_trim]

example : (images 0 ["a".toList, "b ".toList]).flatMap (asParsed true).text = "ab".toList := by
  decide +kernel

theorem count_text (r : Bool) (l : Line) : ((asParsed r).text l).count '\r' = l.body.count '\r' := by
  unfold asParsed
  simp only
  split
  · rename_i flows
    have last : l.body.getLast? = some ' ' := by
      simp only [Line.flows, Bool.and_eq_true, decide_eq_true_eq] at flows
      exact flows.1.1.1
    conv_rhs => rw [← List.dropLast_append_getLast? ' ' last, List.count_append]
    simp
  · rfl

theorem count_dropCr (line : List Char) :
    (dropCr line).count '\r' ≤ line.count '\r' ∧
      (line.getLast? = some '\r' → (dropCr line).count '\r' < line.count '\r') := by
  by_cases cr : line.getLast? = some '\r'
  · have whole := List.dropLast_append_getLast? '\r' cr
    have more : line.count '\r' = line.dropLast.count '\r' + 1 := by
      conv_lhs => rw [← whole, List.count_append]
      simp
    simp [dropCr, cr, more]
  · simp [dropCr, cr]

/-- A carriage return at the end of a logical line is lost. -/
theorem count_images (segs : List (List Char)) :
    ((images quoteLevel segs).flatMap (asParsed true).text).count '\r' ≤ segs.flatten.count '\r' ∧
      (¬KeepsEnd segs →
        ((images quoteLevel segs).flatMap (asParsed true).text).count '\r' <
          segs.flatten.count '\r') := by
  induction segs using mapLast.induct with
  | case1 => simp [images, mapLast, KeepsEnd]
  | case2 seg =>
      have drops := count_dropCr (trim ' ' seg)
      rw [count_trim ' ' seg (by decide)] at drops
      simp only [images, mapLast, List.flatMap_cons, List.flatMap_nil, List.append_nil, count_text,
        lastImage, List.flatten_cons, List.flatten_nil]
      refine ⟨drops.1, fun lost => drops.2 ?_⟩
      simpa [KeepsEnd] using lost
  | case3 seg seg' segs ih =>
      have first : (wrappedImage quoteLevel seg).body.count '\r' = seg.count '\r' := by
        by_cases empty : seg = []
        · simp [wrappedImage, empty]
        · simp [wrappedImage, empty]
      rw [keepsEnd_cons]
      rw [images] at ih
      simp only [images, mapLast, List.flatMap_cons, List.count_append, count_text, first,
        List.flatten_cons] at ih ⊢
      obtain ⟨le, lt⟩ := ih
      constructor
      · omega
      · intro lost
        have := lt lost
        omega

example : (images 0 ["a\r".toList]).flatMap (asParsed true).text = "a".toList := by decide +kernel

end Groups

section Source
variable (delsp : Bool)

def parts (g : List Line) : List (List Char) := g.map (asParsed delsp).text

theorem noSignature_parts (g : List Line)
    (chain : g.IsChain fun l m => (asParsed delsp).joins l m) : NoSignature (parts delsp g) := by
  induction g with
  | nil => simp [NoSignature, parts]
  | cons l g ih =>
      cases g with
      | nil => simp [NoSignature, parts]
      | cons m g =>
          rw [List.isChain_cons_cons] at chain
          have rest := ih chain.2
          simp only [parts, List.map_cons] at rest ⊢
          rw [noSignature_cons]
          refine ⟨?_, rest⟩
          have flows : l.flows = true ∧ l.ended = true := by
            have joins := chain.1
            simp only [asParsed, Bool.and_eq_true] at joins
            exact ⟨joins.1.1.1.1, joins.1.1.1.2⟩
          have last : l.body.getLast? = some ' ' ∧ l.body ≠ signature := by
            simpa [Line.flows] using flows.1
          intro sig
          cases delsp with
          | true =>
              rw [text_flows flows.1 flows.2] at sig
              apply last.2
              rw [← List.dropLast_append_getLast? ' ' last.1, sig]
              rfl
          | false =>
              have text : (asParsed false).text l = l.body := by simp [asParsed]
              rw [text] at sig
              simp [sig] at last

end Source

section Reply
variable (delsp : Bool) (text : List Char)

def sourceLines : List (List Line) := (asParsed delsp).logicalLines (physicalLines text)

def imagesOf (g : List Line) : List Line :=
  match g with
  | [] => []
  | l :: _ => images l.quoteLevel (parts delsp g)

theorem mem_sourceLines {g : List Line} (hg : g ∈ sourceLines delsp text) :
    g ≠ [] ∧ (∀ l ∈ g, l ∈ physicalLines text) ∧
      g.IsChain (fun l m => (asParsed delsp).joins l m) := by
  refine ⟨List.ne_nil_of_mem_splitBy hg, ?_, List.isChain_of_mem_splitBy hg⟩
  intro l hl
  rw [← List.flatten_splitBy (asParsed delsp).joins (physicalLines text)]
  exact List.mem_flatten.mpr ⟨g, hg, hl⟩

theorem mem_mapLast {A B : Type} {w z : A → B} {l : List A} {b : B} (hb : b ∈ mapLast w z l) :
    ∃ a ∈ l, b = w a ∨ b = z a := by
  induction l using mapLast.induct with
  | case1 => cases hb
  | case2 a => exact ⟨a, by simp, Or.inr (by simpa [mapLast] using hb)⟩
  | case3 a a' l ih =>
      rcases List.mem_cons.mp hb with hb | hb
      · exact ⟨a, by simp, Or.inl hb⟩
      · obtain ⟨a'', ha, hb⟩ := ih hb
        exact ⟨a'', List.mem_cons_of_mem _ ha, hb⟩

theorem mem_wrappedLine {quoteLevel : Nat} {seg : List Char} {c : Char}
    (hc : c ∈ wrappedLine quoteLevel seg) : c = '>' ∨ c = ' ' ∨ c ∈ seg := by
  rw [wrappedLine, List.append_assoc, List.mem_append, List.mem_append, List.mem_replicate] at hc
  rcases hc with ⟨_, hc⟩ | hc | hc
  · exact Or.inl hc
  · split at hc
    · cases hc
    · exact Or.inr (List.mem_cons.mp hc)
  · exact Or.inr (Or.inl (by simpa using hc))

theorem mem_lastLine {quoteLevel : Nat} {seg : List Char} {c : Char}
    (hc : c ∈ lastLine quoteLevel seg) : c = '>' ∨ c = ' ' ∨ c ∈ seg := by
  rw [lastLine, List.mem_append, List.mem_replicate] at hc
  rcases hc with ⟨_, hc⟩ | hc
  · exact Or.inl hc
  · split at hc
    · cases hc
    · rcases List.mem_cons.mp hc with hc | hc
      · exact Or.inr (Or.inl hc)
      · exact Or.inr (Or.inr ((List.rdropWhile_prefix _ _).subset hc))

theorem oneLine_replyTo {g : List Line} (hg : g ∈ sourceLines delsp text) :
    ∀ line ∈ replyTo (asParsed delsp) g, '\n' ∉ line := by
  have mem := (mem_sourceLines delsp text hg).2.1
  intro line hline nl
  cases g with
  | nil => cases hline
  | cons l g =>
      obtain ⟨seg, hseg, shape⟩ := mem_mapLast hline
      obtain ⟨m, hm, rfl⟩ := List.mem_map.mp hseg
      have body := oneLine_of_mem_physicalLines (mem m hm)
      have noNl : '\n' ∉ (asParsed delsp).text m := by
        unfold asParsed
        simp only
        split
        · exact fun h => body ((List.dropLast_sublist _).subset h)
        · exact body
      rcases shape with rfl | rfl
      · rcases mem_wrappedLine nl with h | h | h
        · cases h
        · cases h
        · exact noNl h
      · rcases mem_lastLine nl with h | h | h
        · cases h
        · cases h
        · exact noNl h

theorem physicalLines_reply :
    physicalLines (unlines ((sourceLines delsp text).flatMap (replyTo (asParsed delsp)))) =
      (sourceLines delsp text).flatMap (imagesOf delsp) := by
  rw [physicalLines_unlines]
  · rw [List.map_flatMap]
    congr 1
    funext g
    cases g with
    | nil => rfl
    | cons l g =>
        simp only [replyTo, replyLines, map_mapLast, readLine_wrappedLine, readLine_lastLine]
        rfl
  · intro line hline
    obtain ⟨g, hg, hline⟩ := List.mem_flatMap.mp hline
    exact oneLine_replyTo delsp text hg line hline

theorem imagesOf_ne_nil {g : List Line} (ne : g ≠ []) : imagesOf delsp g ≠ [] := by
  cases g with
  | nil => exact absurd rfl ne
  | cons l g => exact mapLast_ne_nil _ _ (by simp [parts])

theorem cut_imagesOf {g : List Line} (ends : KeepsEnd (parts delsp g)) :
    ∀ l ∈ (imagesOf delsp g).getLast?, ∀ m, (asParsed true).joins l m = false := by
  intro l hl m
  cases g with
  | nil => cases hl
  | cons l' g =>
      rw [imagesOf, images, getLast?_mapLast] at hl
      obtain ⟨seg, hseg, rfl⟩ : ∃ seg ∈ (parts delsp (l' :: g)).getLast?,
          lastImage l'.quoteLevel seg = l := by
        simpa using hl
      have fixed := lastImage_flows l'.quoteLevel seg (ends seg hseg)
      simp [asParsed, fixed]

theorem logicalLines_reply (ends : ∀ g ∈ sourceLines delsp text, KeepsEnd (parts delsp g)) :
    (asParsed true).logicalLines ((sourceLines delsp text).flatMap (imagesOf delsp)) =
      ((sourceLines delsp text).map (imagesOf delsp)).flatMap
        (List.splitBy (asParsed true).joins) := by
  rw [Rules.logicalLines, List.flatMap_def]
  apply splitBy_flatten_of_cut
  intro g hg
  obtain ⟨g', hg', rfl⟩ := List.mem_map.mp hg
  exact cut_imagesOf delsp (ends g' hg')

theorem isChain_imagesOf_iff {g : List Line} (hg : g ∈ sourceLines delsp text)
    (ends : KeepsEnd (parts delsp g)) :
    (imagesOf delsp g).IsChain (fun l m => (asParsed true).joins l m) ↔
      KeepsJoins (parts delsp g) := by
  obtain ⟨ne, _, chain⟩ := mem_sourceLines delsp text hg
  cases g with
  | nil => exact absurd rfl ne
  | cons l g => exact isChain_images_iff l.quoteLevel _ (noSignature_parts delsp _ chain) ends

theorem logicalText_imagesOf {g : List Line} (hg : g ∈ sourceLines delsp text)
    (ends : KeepsEnd (parts delsp g)) :
    ((asParsed true).logicalText (imagesOf delsp g)).map (fun l => (l.1, trim ' ' l.2)) =
      ((asParsed delsp).logicalText g).map (fun l => (l.1 + 1, trim ' ' l.2)) := by
  obtain ⟨ne, _, chain⟩ := mem_sourceLines delsp text hg
  cases g with
  | nil => exact absurd rfl ne
  | cons l g =>
      have same := trim_images l.quoteLevel _ (noSignature_parts delsp _ chain) ends
      have level : ∀ m ∈ (imagesOf delsp (l :: g)).head?, m.quoteLevel = l.quoteLevel + 1 := by
        intro m hm
        obtain ⟨seg, _, shape⟩ := mem_mapLast (List.mem_of_mem_head? hm)
        rcases shape with rfl | rfl
        · rfl
        · rfl
      cases back : imagesOf delsp (l :: g) with
      | nil => exact absurd back (imagesOf_ne_nil delsp (by simp))
      | cons m ms =>
          rw [back] at level
          have whole : (m :: ms).flatMap (asParsed true).text =
              (images l.quoteLevel (parts delsp (l :: g))).flatMap (asParsed true).text := by
            rw [← back]
            rfl
          simp only [Rules.logicalText, List.map_cons, List.map_nil, whole, same,
            level m (by simp)]
          simp [parts, List.flatMap_def]

end Reply

/-- A logical line reported by the parser, with the spaces at its end taken off. -/
def upToSpaces (l : Nat × List Char) : Nat × List Char := (l.1, trim ' ' l.2)

def deeper (l : Nat × List Char) : Nat × List Char := (l.1 + 1, l.2)

def parsedLines (delsp : Bool) (pieces : List (List Char)) : Option (List (Nat × List Char)) :=
  (parse true delsp pieces).map fun calls => reported none (flatten calls)

theorem parsedLines_eq (delsp : Bool) (pieces : List (List Char)) :
    parsedLines delsp pieces =
      some ((sourceLines delsp pieces.flatten).flatMap (asParsed delsp).logicalText) := by
  have told := parse_eq delsp pieces
  rw [parsedLines]
  cases calls : parse true delsp pieces with
  | none => simp [calls] at told
  | some calls' =>
      rw [calls] at told
      have events : flatten calls' = reading (asParsed delsp) pieces.flatten := by
        simpa using told
      rw [Option.map_some, events, reading, reported_events]
      rfl

section Counts

def countCr (r : Rules) (lines : List Line) : Nat := (lines.flatMap r.text).count '\r'

theorem countCr_reported (r : Rules) (lines : List Line) :
    (((r.logicalLines lines).flatMap r.logicalText).map fun l => (trim ' ' l.2).count '\r').sum =
      countCr r lines := by
  have whole : lines = (r.logicalLines lines).flatten := (List.flatten_splitBy _ _).symm
  conv_rhs => rw [whole]
  induction r.logicalLines lines with
  | nil => rfl
  | cons g gs ih =>
      rw [List.flatMap_cons, List.map_append, List.sum_append, ih, countCr, countCr,
        List.flatten_cons, List.flatMap_append, List.count_append]
      cases g with
      | nil => rfl
      | cons l g => simp [Rules.logicalText, count_trim]

theorem countCr_images (delsp : Bool) (gs : List (List Line)) :
    countCr (asParsed true) (gs.flatMap (imagesOf delsp)) ≤ countCr (asParsed delsp) gs.flatten ∧
      (countCr (asParsed delsp) gs.flatten ≤ countCr (asParsed true) (gs.flatMap (imagesOf delsp)) →
        ∀ g ∈ gs, KeepsEnd (parts delsp g)) := by
  induction gs with
  | nil => simp [countCr]
  | cons g gs ih =>
      have first : countCr (asParsed true) (imagesOf delsp g) ≤ countCr (asParsed delsp) g ∧
          (¬KeepsEnd (parts delsp g) →
            countCr (asParsed true) (imagesOf delsp g) < countCr (asParsed delsp) g) := by
        cases g with
        | nil => simp [imagesOf, countCr, KeepsEnd, parts]
        | cons l g =>
            have counts := count_images l.quoteLevel (parts delsp (l :: g))
            have whole : (parts delsp (l :: g)).flatten = (l :: g).flatMap (asParsed delsp).text := by
              rw [parts, List.flatMap_def]
            rw [whole] at counts
            exact counts
      have split : ∀ (r : Rules) (ls ms : List Line),
          countCr r (ls ++ ms) = countCr r ls + countCr r ms := by
        intro r ls ms
        simp [countCr]
      rw [List.flatMap_cons, List.flatten_cons, split, split]
      obtain ⟨le, keeps⟩ := ih
      obtain ⟨le', lost⟩ := first
      constructor
      · omega
      · intro all g' hg'
        rcases List.mem_cons.mp hg' with rfl | hg'
        · by_contra ends
          have := lost ends
          omega
        · exact keeps (by omega) g' hg'

theorem length_logicalText (r : Rules) (gs : List (List Line)) (ne : ∀ g ∈ gs, g ≠ []) :
    (gs.flatMap r.logicalText).length = gs.length := by
  induction gs with
  | nil => rfl
  | cons g gs ih =>
      have rest := ih (fun g' hg' => ne g' (by simp [hg']))
      cases g with
      | nil => exact absurd rfl (ne [] (by simp))
      | cons l g => simp [Rules.logicalText, rest]

end Counts

/-- The reply comes back as the source, one level deeper, exactly when every physical line
that flows on has text, every last one that was joined has more than spaces, and no logical
line ends in a carriage return. -/
theorem reply_reread_iff (delsp : Bool) (pieces reread : List (List Char))
    (written : reformat true delsp 1 pieces = some reread.flatten) :
    (parsedLines true reread).map (List.map upToSpaces) =
        (parsedLines delsp pieces).map (List.map fun l => deeper (upToSpaces l)) ↔
      ∀ g ∈ sourceLines delsp pieces.flatten,
        KeepsJoins (parts delsp g) ∧ KeepsEnd (parts delsp g) := by
  have reply : reread.flatten =
      unlines ((sourceLines delsp pieces.flatten).flatMap (replyTo (asParsed delsp))) := by
    rw [reformat_eq] at written
    exact (Option.some.inj written).symm
  have lines : sourceLines true reread.flatten = (asParsed true).logicalLines
      ((sourceLines delsp pieces.flatten).flatMap (imagesOf delsp)) := by
    rw [sourceLines, reply, physicalLines_reply]
  rw [parsedLines_eq, parsedLines_eq, lines, Option.map_some, Option.map_some, Option.some.injEq]
  have nonempty : ∀ g ∈ (sourceLines delsp pieces.flatten).map (imagesOf delsp), g ≠ [] := by
    intro g hg
    obtain ⟨g', hg', rfl⟩ := List.mem_map.mp hg
    exact imagesOf_ne_nil delsp (mem_sourceLines delsp _ hg').1
  constructor
  · intro same
    -- counting carriage returns first, then logical lines
    have ends : ∀ g ∈ sourceLines delsp pieces.flatten, KeepsEnd (parts delsp g) := by
      have counts := congrArg (fun ls => (ls.map fun l => l.2.count '\r').sum) same
      simp only [List.map_map, Function.comp_def, upToSpaces, deeper, countCr_reported] at counts
      have source := countCr_reported (asParsed delsp) (physicalLines pieces.flatten)
      rw [sourceLines] at counts
      rw [source] at counts
      have flat : (sourceLines delsp pieces.flatten).flatten = physicalLines pieces.flatten :=
        List.flatten_splitBy _ _
      apply (countCr_images delsp (sourceLines delsp pieces.flatten)).2
      rw [flat]
      exact counts.ge
    have chains : ∀ g ∈ (sourceLines delsp pieces.flatten).map (imagesOf delsp),
        g.IsChain fun l m => (asParsed true).joins l m := by
      apply isChain_of_length_eq _ _ nonempty
      have lengths := congrArg List.length same
      simp only [List.length_map] at lengths
      rw [length_logicalText, length_logicalText, logicalLines_reply delsp _ ends] at lengths
      · rw [lengths, List.length_map]
      · intro g hg
        exact (mem_sourceLines delsp _ hg).1
      · intro g hg
        exact List.ne_nil_of_mem_splitBy hg
    intro g hg
    have chain := chains _ (List.mem_map_of_mem hg)
    exact ⟨(isChain_imagesOf_iff delsp _ hg (ends g hg)).mp chain, ends g hg⟩
  · intro keeps
    have ends : ∀ g ∈ sourceLines delsp pieces.flatten, KeepsEnd (parts delsp g) :=
      fun g hg => (keeps g hg).2
    have whole : (asParsed true).logicalLines
        ((sourceLines delsp pieces.flatten).flatMap (imagesOf delsp)) =
        (sourceLines delsp pieces.flatten).map (imagesOf delsp) := by
      have single : ∀ g ∈ (sourceLines delsp pieces.flatten).map (imagesOf delsp),
          g.splitBy (asParsed true).joins = [g] := by
        intro g hg
        obtain ⟨g', hg', rfl⟩ := List.mem_map.mp hg
        rw [splitBy_eq_singleton_iff _ _ (nonempty _ hg), isChain_imagesOf_iff delsp _ hg' (ends g' hg')]
        exact (keeps g' hg').1
      rw [logicalLines_reply delsp _ ends, List.flatMap_congr single, List.flatMap_singleton']
    rw [whole, List.flatMap_map, List.map_flatMap, List.map_flatMap]
    apply List.flatMap_congr
    intro g hg
    exact logicalText_imagesOf delsp _ hg (ends g hg)

theorem reformatted :
    reformat true true 1 ["> a \n> b".toList] = some [">> a ".toList, "\n>> b\n".toList].flatten ∧
    reformat true true 1 ["a \n  \nb\n".toList] = some ["> a \n> \n> b\n".toList].flatten ∧
    (parsedLines true ["> a \n> \n> b\n".toList]).map (List.map upToSpaces) ≠
      (parsedLines true ["a \n  \nb\n".toList]).map (List.map fun l => deeper (upToSpaces l)) := by
  decide +kernel

/-- A paragraph of two lines under one quote mark. -/
theorem reply_reread_iff_sample :
    (parsedLines true [">> a ".toList, "\n>> b\n".toList]).map (List.map upToSpaces) =
        (parsedLines true ["> a \n> b".toList]).map (List.map fun l => deeper (upToSpaces l)) ↔
      ∀ g ∈ sourceLines true ["> a \n> b".toList].flatten,
        KeepsJoins (parts true g) ∧ KeepsEnd (parts true g) :=
  reply_reread_iff true ["> a \n> b".toList] [">> a ".toList, "\n>> b\n".toList] reformatted.1

/-- A line of one space that flows on is written as an empty line, and splits the paragraph. -/
theorem empty_part_splits :
    ¬ ∀ (delsp : Bool) (pieces reread : List (List Char)),
      reformat true delsp 1 pieces = some reread.flatten →
        (parsedLines true reread).map (List.map upToSpaces) =
          (parsedLines delsp pieces).map (List.map fun l => deeper (upToSpaces l)) := by
  intro comesBack
  obtain ⟨-, reply, differs⟩ := reformatted
  exact differs (comesBack true ["a \n  \nb\n".toList] ["> a \n> \n> b\n".toList] reply)

end Cone.ReplyRoundTrip
