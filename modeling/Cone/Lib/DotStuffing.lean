import Cone.Ctype

/-! # Dot-stuffed texts

A text as a mail or news server wants it: lines that end with CR LF, a dot doubled where a line
starts with one, and a line with a lone dot behind the last. -/
set_option autoImplicit false
namespace Cone.Lib.DotStuffing

open Cone.Ctype

abbrev Text := List UInt8

def DOT : UInt8 := byte '.'

section Stuffing

def stuffFrom : Bool → Text → Text
  | _, [] => []
  | start, c :: p =>
    (if c = NL then [CR, NL] else if start && c = DOT then [c, c] else [c]) ++
      stuffFrom (c = NL) p

def lineEnd (c : UInt8) (p : Text) : Text := if p.getLast?.getD c = NL then [] else [CR, NL]

def lastLine : Text := [DOT, CR, NL]

def stuffed (p : Text) : Text := stuffFrom true p ++ lineEnd NL p ++ lastLine

def ended (p : Text) : Text := if p.getLast?.getD NL = NL then p else p ++ [NL]

def stuffLine (line : Text) : Text := if line.head? = some DOT then DOT :: line else line

def unstuffLine (line : Text) : Text := if line.head? = some DOT then line.drop 1 else line

end Stuffing

section Lemmas
variable {start : Bool} {c : UInt8} {p q line : Text}

theorem getLast_cons (c d : UInt8) (p : Text) : (c :: p).getLast?.getD d = p.getLast?.getD c := by
  cases p with
  | nil => rfl
  | cons e p => rw [List.getLast?_cons_cons, List.getLast?_cons, Option.getD_some, Option.getD_some]

theorem lineEnd_cons (c d : UInt8) (p : Text) : lineEnd d (c :: p) = lineEnd c p := by
  rw [lineEnd, lineEnd, getLast_cons]

theorem lineEnd_append (d : UInt8) (p q : Text) :
    lineEnd d (p ++ q) = lineEnd (p.getLast?.getD d) q := by
  rw [lineEnd, lineEnd, List.getLast?_append]
  cases q.getLast? with
  | none => rw [Option.none_or, Option.getD_none]
  | some c => rfl

theorem stuffFrom_append (d : UInt8) (p q : Text) :
    stuffFrom (d = NL) (p ++ q) =
      stuffFrom (d = NL) p ++ stuffFrom (p.getLast?.getD d = NL) q := by
  induction p generalizing d with
  | nil => rfl
  | cons c p ih =>
      rw [List.cons_append, stuffFrom, stuffFrom, ih c, getLast_cons, List.append_assoc]

theorem stuffed_eq (p : Text) : stuffed p = stuffFrom true (ended p) ++ lastLine := by
  rw [stuffed, lineEnd, ended]
  by_cases h : p.getLast?.getD NL = NL
  · rw [if_pos h, if_pos h, List.append_nil]
  · have happend := stuffFrom_append NL p [NL]
    rw [if_neg h, if_neg h]
    exact congrArg (· ++ lastLine) happend.symm

/-- Every LF has one CR in front of it. -/
theorem newline_of_stuffFrom (hcr : CR ∉ p) {before after : Text}
    (h : stuffFrom start p = before ++ NL :: after) :
    ∃ b, before = b ++ [CR] ∧ b.getLast? ≠ some CR := by
  induction p generalizing start before with
  | nil =>
      cases before <;> cases h
  | cons c p ih =>
      have hc : c ≠ CR := fun heq => hcr (heq ▸ List.mem_cons_self)
      have hlater {before : Text} (h : stuffFrom (c = NL) p = before ++ NL :: after) :=
        ih (fun mem => hcr (List.mem_cons_of_mem c mem)) h
      -- One byte more in front, which is no CR.
      have hbehind {x : UInt8} (hx : x ≠ CR) {before : Text}
          (h : ∃ b, before = b ++ [CR] ∧ b.getLast? ≠ some CR) :
          ∃ b, x :: before = b ++ [CR] ∧ b.getLast? ≠ some CR := by
        obtain ⟨b, rfl, hb⟩ := h
        refine ⟨x :: b, rfl, ?_⟩
        cases b with
        | nil => simpa using hx
        | cons y b => rwa [List.getLast?_cons_cons]
      rw [stuffFrom] at h
      by_cases hnl : c = NL
      · rw [if_pos hnl] at h
        cases before with
        | nil => exact absurd (List.cons.inj h).1 (by decide)
        | cons x before =>
            obtain ⟨hx, h⟩ := List.cons.inj h
            cases before with
            | nil => exact ⟨[], by rw [← hx]; rfl, nofun⟩
            | cons y before =>
                obtain ⟨hy, h⟩ := List.cons.inj h
                obtain ⟨b, rfl, hb⟩ := hlater h
                refine ⟨CR :: NL :: b, by rw [← hx, ← hy]; rfl, ?_⟩
                cases b with
                | nil => decide
                | cons z b => rwa [List.getLast?_cons_cons, List.getLast?_cons_cons]
      · rw [if_neg hnl] at h
        cases before with
        | nil =>
            split at h
            · exact absurd (List.cons.inj h).1 hnl
            · exact absurd (List.cons.inj h).1 hnl
        | cons x before =>
            split at h
            · obtain ⟨hx, h⟩ := List.cons.inj h
              rw [← hx]
              cases before with
              | nil => exact absurd (List.cons.inj h).1 hnl
              | cons y before =>
                  obtain ⟨hy, h⟩ := List.cons.inj h
                  rw [← hy]
                  exact hbehind hc (hbehind hc (hlater h))
            · obtain ⟨hx, h⟩ := List.cons.inj h
              rw [← hx]
              exact hbehind hc (hlater h)

theorem stuffFrom_line (hnl : NL ∉ line) (start : Bool) :
    stuffFrom start line = if start then stuffLine line else line := by
  induction line generalizing start with
  | nil => cases start <;> rfl
  | cons c line ih =>
      have hc : c ≠ NL := fun heq => hnl (heq ▸ List.mem_cons_self)
      have hrest := ih (fun mem => hnl (List.mem_cons_of_mem c mem)) false
      rw [stuffFrom, if_neg hc, decide_eq_false hc, hrest]
      cases start with
      | false => rfl
      | true =>
          by_cases hdot : c = DOT
          · simp [stuffLine, hdot]
          · simp [stuffLine, hdot]

theorem stuffFrom_lines (lines : List Text) (h : ∀ line ∈ lines, NL ∉ line) :
    stuffFrom true (lines.flatMap (· ++ [NL])) =
      lines.flatMap fun line => stuffLine line ++ [CR, NL] := by
  induction lines with
  | nil => rfl
  | cons line lines ih =>
      rw [List.flatMap_cons, List.flatMap_cons, ← ih fun l mem => h l (List.mem_cons_of_mem _ mem)]
      have hline := stuffFrom_line (h line List.mem_cons_self) true
      have hfirst := stuffFrom_append NL line [NL]
      have hrest := stuffFrom_append NL (line ++ [NL]) (lines.flatMap (· ++ [NL]))
      rw [List.getLast?_append] at hrest
      rw [if_pos rfl] at hline
      exact hrest.trans (congrArg (· ++ _) (hfirst.trans (congrArg (· ++ _) hline)))

theorem unstuffLine_stuffLine (line : Text) : unstuffLine (stuffLine line) = line := by
  rw [stuffLine]
  by_cases h : line.head? = some DOT
  · rw [if_pos h]
    rfl
  · rw [if_neg h, unstuffLine, if_neg h]

theorem stuffLine_ne_dot (line : Text) : stuffLine line ≠ [DOT] := by
  rw [stuffLine]
  by_cases h : line.head? = some DOT
  · rw [if_pos h]
    intro heq
    rw [(List.cons.inj heq).2] at h
    cases h
  · rw [if_neg h]
    rintro rfl
    exact h rfl

theorem lines_and_rest (p : Text) :
    ∃ (lines : List Text) (rest : Text), (∀ line ∈ lines, NL ∉ line) ∧ NL ∉ rest ∧
      p = lines.flatMap (· ++ [NL]) ++ rest := by
  induction p with
  | nil => exact ⟨[], [], nofun, nofun, rfl⟩
  | cons c p ih =>
      obtain ⟨lines, rest, hlines, hrest, rfl⟩ := ih
      by_cases hc : c = NL
      · refine ⟨[] :: lines, rest, ?_, hrest, by rw [hc]; rfl⟩
        intro line mem
        rcases List.mem_cons.1 mem with rfl | mem
        · exact nofun
        · exact hlines line mem
      · cases lines with
        | nil =>
            refine ⟨[], c :: rest, nofun, ?_, rfl⟩
            exact List.not_mem_cons_of_ne_of_not_mem (Ne.symm hc) hrest
        | cons line lines =>
            refine ⟨(c :: line) :: lines, rest, ?_, hrest, rfl⟩
            intro l mem
            rcases List.mem_cons.1 mem with rfl | mem
            · exact List.not_mem_cons_of_ne_of_not_mem (Ne.symm hc) (hlines line List.mem_cons_self)
            · exact hlines l (List.mem_cons_of_mem line mem)

theorem lines_of_ended (p : Text) :
    ∃ lines : List Text, (∀ line ∈ lines, NL ∉ line) ∧ lines.flatMap (· ++ [NL]) = ended p := by
  obtain ⟨lines, rest, hlines, hrest, rfl⟩ := lines_and_rest p
  cases hr : rest.getLast? with
  | none =>
      obtain rfl := List.getLast?_eq_none_iff.1 hr
      refine ⟨lines, hlines, ?_⟩
      have hlast : (lines.flatMap (· ++ [NL])).getLast?.getD NL = NL := by
        rcases List.eq_nil_or_concat' lines with rfl | ⟨front, last, rfl⟩
        · rfl
        · rw [List.flatMap_append, List.flatMap_singleton, List.getLast?_append]
          rw [List.getLast?_append]
          rfl
      rw [List.append_nil, ended, if_pos hlast]
  | some c =>
      have hc : c ≠ NL := fun heq => hrest (heq ▸ List.mem_of_getLast? hr)
      refine ⟨lines ++ [rest], ?_, ?_⟩
      · intro line mem
        rcases List.mem_append.1 mem with mem | mem
        · exact hlines line mem
        · exact List.mem_singleton.1 mem ▸ hrest
      · rw [List.flatMap_append, List.flatMap_singleton, ended, List.getLast?_append, hr,
          Option.some_or, Option.getD_some, if_neg hc, List.append_assoc]

theorem mem_stuffLine {d : UInt8} (h : d ∈ stuffLine line) : d = DOT ∨ d ∈ line := by
  rw [stuffLine] at h
  split at h
  · exact List.mem_cons.1 h
  · exact Or.inr h

theorem mem_of_mem_ended {d : UInt8} (hd : d ≠ NL) (h : d ∈ ended p) : d ∈ p := by
  rw [ended] at h
  split at h
  · exact h
  · rcases List.mem_append.1 h with mem | mem
    · exact mem
    · exact absurd (List.mem_singleton.1 mem) hd

theorem lines_of_stuffed (p : Text) (hcr : CR ∉ p) :
    ∃ lines : List Text, (∀ line ∈ lines, NL ∉ line ∧ CR ∉ line ∧ line ≠ [DOT]) ∧
      stuffed p = lines.flatMap (· ++ [CR, NL]) ++ lastLine ∧
      lines.flatMap (fun line => unstuffLine line ++ [NL]) = ended p := by
  obtain ⟨lines, hlines, hended⟩ := lines_of_ended p
  refine ⟨lines.map stuffLine, ?_, ?_, ?_⟩
  · intro l mem
    obtain ⟨line, hline, rfl⟩ := List.mem_map.1 mem
    refine ⟨?_, ?_, stuffLine_ne_dot line⟩
    · intro hmem
      rcases mem_stuffLine hmem with heq | hmem
      · exact absurd heq (by decide)
      · exact hlines line hline hmem
    · intro hmem
      rcases mem_stuffLine hmem with heq | hmem
      · exact absurd heq (by decide)
      · have hin : CR ∈ ended p := by
          rw [← hended]
          exact List.mem_flatMap_of_mem hline (List.mem_append_left _ hmem)
        exact hcr (mem_of_mem_ended (by decide) hin)
  · rw [stuffed_eq, ← hended, stuffFrom_lines lines hlines, List.flatMap_map]
  · rw [← hended, List.flatMap_map]
    simp only [unstuffLine_stuffLine]

/-- Every LF has exactly one CR in front of it. -/
theorem newline_of_stuffed (hcr : CR ∉ p) {before after : Text}
    (h : stuffed p = before ++ NL :: after) : ∃ b, before = b ++ [CR] ∧ b.getLast? ≠ some CR := by
  rw [stuffed_eq] at h
  rcases List.append_eq_append_iff.1 h with ⟨rest, rfl, hrest⟩ | ⟨rest, hrest, hlast⟩
  · -- the LF is that of the last line
    match rest, hrest with
    | [_, _], hrest =>
        obtain ⟨h0, hrest⟩ := List.cons.inj hrest
        obtain ⟨h1, -⟩ := List.cons.inj hrest
        refine ⟨stuffFrom true (ended p) ++ [DOT], by rw [← h0, ← h1, List.append_assoc]; rfl, ?_⟩
        rw [List.getLast?_append]
        exact nofun
    | [], hrest => exact absurd (List.cons.inj hrest).1 (by decide)
    | [_], hrest =>
        obtain ⟨-, hrest⟩ := List.cons.inj hrest
        exact absurd (List.cons.inj hrest).1 (by decide)
    | _ :: _ :: _ :: rest, hrest =>
        obtain ⟨-, hrest⟩ := List.cons.inj hrest
        obtain ⟨-, hrest⟩ := List.cons.inj hrest
        obtain ⟨-, hrest⟩ := List.cons.inj hrest
        cases rest <;> cases hrest
  · cases rest with
    | nil => exact absurd (List.cons.inj hlast).1 (by decide)
    | cons c rest =>
        obtain ⟨hc, -⟩ := List.cons.inj hlast
        rw [← hc] at hrest
        exact newline_of_stuffFrom (fun mem => hcr (mem_of_mem_ended (by decide) mem)) hrest

end Lemmas
end Cone.Lib.DotStuffing
