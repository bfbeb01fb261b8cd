import Cone.CdecodeSplits
import Cone.Rfc2045Tryboundary

/-! # Boundaries in raw bodies

`try_boundary` looks at decoded bodies only.  A line of a quoted-printable body that begins with
the boundary begins a decoded line too, unless the decoder is in the middle of a line there,
after a soft line break, or the boundary has an `=` in it. -/
set_option autoImplicit false
namespace Cone.Rfc2045TryboundaryRaw

open Cone.Ctype Cone.Lib.Lines Cone.Lib.ReturnCode Cone.Cdecode Cone.CdecodeLines
open Cone.CdecodeSplits Cone.CdecodeClients Cone.Rfc2045Tryboundary
open Cone.Rfc2045Header (tolower)
open Cone.TransferRoundTrip (TransferEncoding qpLoop_literal)
open Cone.Lib.QuotedPrintable (EQ)

/-! ## Where lines begin -/

def AtLine (text : List UInt8) : Prop := ∀ c ∈ text.getLast?, c = NL

def Begins (val text : List UInt8) : Prop :=
  ∃ line, line <+: text ∧ NL ∉ line ∧ collides val line = true

section Lines
variable {val : List UInt8}

theorem AtLine.cases {text : List UInt8} (h : AtLine text) :
    text = [] ∨ ∃ text', text = text' ++ [NL] := by
  induction text using List.reverseRecOn with
  | nil => exact Or.inl rfl
  | append_singleton text c ih =>
      obtain rfl : c = NL := h c (by simp)
      exact Or.inr ⟨text, rfl⟩

theorem atLine_newline (text : List UInt8) : AtLine (text ++ [NL]) := by
  intro c hc
  simpa using hc.symm

theorem scan_atLine {text : List UInt8} (h : AtLine text) :
    (text.foldl (scan val) (false, [])).2 = [] := by
  rcases h.cases with rfl | ⟨text', rfl⟩
  · rfl
  · rw [List.foldl_append]
    rfl

theorem eachLine_first {P : List UInt8 → Prop} (line text : List UInt8)
    (h : EachLine NL P line text) : ∃ ext, P (line ++ ext) := by
  induction text generalizing line with
  | nil => exact ⟨[], by rwa [List.append_nil]⟩
  | cons c text ih =>
      rw [EachLine] at h
      by_cases stop : c = NL
      · rw [if_pos stop] at h
        exact ⟨[], by rw [List.append_nil]; exact h.1⟩
      · rw [if_neg stop] at h
        obtain ⟨ext, found⟩ := ih _ h
        exact ⟨c :: ext, by rwa [List.append_assoc, List.singleton_append] at found⟩

theorem not_begins {a b : List UInt8} (h : AtLine a) (free : NoLine val (a ++ b)) :
    ¬ Begins val b := by
  intro ⟨line, ⟨rest, hb⟩, oneLine, found⟩
  rw [noLine_iff_scan, List.foldl_append] at free
  have start : a.foldl (scan val) (false, []) = ((a.foldl (scan val) (false, [])).1, []) :=
    Prod.ext rfl (scan_atLine h)
  rw [start, scan_eachLine, ← hb, eachLine_append _ _ _ _ _ oneLine, List.nil_append] at free
  obtain ⟨ext, none⟩ := eachLine_first _ _ free.2
  exact absurd (collides_mono found (List.prefix_append line ext)) (by rw [none]; decide)

theorem exists_begins (front line text : List UInt8) (h : AtLine front) (oneLine : NL ∉ line)
    (found : ¬ EachLine NL (fun l => collides val l = false) line text) :
    ∃ a b, front ++ line ++ text = a ++ b ∧ AtLine a ∧ Begins val b := by
  induction text generalizing front line with
  | nil =>
      rw [eachLine_nil, Bool.not_eq_false] at found
      exact ⟨front, line, by rw [List.append_nil], h, line, List.prefix_rfl, oneLine, found⟩
  | cons c text ih =>
      by_cases stop : c = NL
      · subst stop
        rw [eachLine_sep] at found
        by_cases here : collides val line = false
        · obtain ⟨a, b, split, rest⟩ := ih (front ++ line ++ [NL]) [] (atLine_newline _) (by simp)
            fun later => found ⟨here, later⟩
          exact ⟨a, b, by simpa using split, rest⟩
        · rw [Bool.not_eq_false] at here
          exact ⟨front, line ++ NL :: text, by rw [List.append_assoc], h, line,
            List.prefix_append _ _, oneLine, here⟩
      · rw [EachLine, if_neg stop] at found
        obtain ⟨a, b, split, rest⟩ := ih front (line ++ [c]) h
          (by simp [oneLine, Ne.symm stop]) found
        exact ⟨a, b, by simpa using split, rest⟩

theorem noLine_iff_begins (text : List UInt8) :
    NoLine val text ↔ ∀ a b, text = a ++ b → AtLine a → ¬ Begins val b := by
  constructor
  · intro free a b split h
    exact not_begins h (split ▸ free)
  · intro none
    rw [NoLine, forall_splitOn_iff]
    by_contra found
    obtain ⟨a, b, split, h, begins⟩ := exists_begins [] [] text (by simp [AtLine]) (by simp) found
    exact none a b (by simpa using split) h begins

end Lines

/-! ## The quoted-printable decoder at a line end -/

section Decoder

theorem lastLine_append (w s t : List UInt8) :
    lastLine w (s ++ t) = lastLine (lastLine w s) t := by
  induction s generalizing w with
  | nil => rfl
  | cons c s ih =>
      rw [List.cons_append, lastLine, lastLine]
      by_cases inLine : c ≠ NL
      · rw [if_pos inLine, if_pos inLine, ih]
      · rw [if_neg inLine, if_neg inLine, ih]

theorem decodedLines_append (w s t : List UInt8) :
    decodedLines w (s ++ t) = decodedLines w s ++ decodedLines (lastLine w s) t := by
  induction s generalizing w with
  | nil => rfl
  | cons c s ih =>
      rw [List.cons_append, decodedLines, decodedLines, lastLine]
      by_cases inLine : c ≠ NL
      · rw [if_pos inLine, if_pos inLine, if_pos inLine, ih]
      · rw [if_neg inLine, if_neg inLine, if_neg inLine, ih, List.append_assoc]

theorem lastLine_line (w s : List UInt8) (oneLine : NL ∉ s) :
    lastLine w s = w ++ s ∧ decodedLines w s = [] := by
  induction s generalizing w with
  | nil => exact ⟨(List.append_nil w).symm, rfl⟩
  | cons c s ih =>
      obtain ⟨other, later⟩ := List.ne_and_not_mem_of_not_mem_cons oneLine
      rw [lastLine, decodedLines, if_pos (Ne.symm other), if_pos (Ne.symm other)]
      have next := ih (w ++ [c]) later
      rwa [List.append_assoc, List.singleton_append] at next

/-- A call can be cut in two where nothing is flushed. -/
theorem qpCall_append (st : List UInt8 × List UInt8) (s t : List UInt8)
    (short : (lastLine st.1 s).length ≤ 1024) :
    qpCall st (s ++ t) = qpCall (qpCall st s) t := by
  have out : flushOut (lastLine st.1 s) = [] := if_neg (by omega)
  have rest : flushRest (lastLine st.1 s) = lastLine st.1 s := if_neg (by omega)
  rw [qpCall, qpCall, qpCall, out, rest, lastLine_append, decodedLines_append]
  simp only [List.append_nil, List.append_assoc]

def cutReads : Nat → List (List UInt8) → List (List UInt8)
  | _, [] => []
  | n, s :: rs => if n ≤ s.length then [s.take n] else s :: cutReads (n - s.length) rs

theorem foldl_qpCall_cut (rs : List (List UInt8)) (st : List UInt8 × List UInt8)
    (a b : List UInt8) (h : AtLine a) (split : rs.flatten = a ++ b) (short : st.1.length ≤ 1024) :
    ∃ rest : List (List UInt8), rest.flatten = b ∧
      rs.foldl qpCall st = rest.foldl qpCall ((cutReads a.length rs).foldl qpCall st) ∧
      ((cutReads a.length rs).foldl qpCall st).1 = if a = [] then st.1 else [] := by
  induction rs generalizing st a with
  | nil =>
      obtain ⟨rfl, rfl⟩ := List.append_eq_nil_iff.mp split.symm
      exact ⟨[], rfl, rfl, rfl⟩
  | cons s rs ih =>
      rw [List.flatten_cons] at split
      rw [cutReads]
      by_cases inside : a.length ≤ s.length
      · rw [if_pos inside]
        obtain ⟨t, rfl⟩ : a <+: s :=
          List.prefix_of_prefix_length_le ⟨b, split.symm⟩ (List.prefix_append s _) inside
        rw [List.take_left]
        have rest : (lastLine st.1 a) = if a = [] then st.1 else [] := by
          rcases h.cases with rfl | ⟨a', rfl⟩
          · rfl
          · rw [lastLine_newline, if_neg (by simp)]
        have short' : (lastLine st.1 a).length ≤ 1024 := by
          rw [rest]
          split
          · exact short
          · exact Nat.zero_le _
        refine ⟨t :: rs, ?_, ?_, ?_⟩
        · rw [List.append_assoc] at split
          exact List.append_cancel_left split
        · rw [List.foldl_cons, qpCall_append st a t short']
          rfl
        · rw [← rest]
          exact if_neg (by omega)
      · rw [if_neg inside]
        obtain ⟨a', rfl⟩ : s <+: a :=
          List.prefix_of_prefix_length_le (List.prefix_append s _) ⟨b, split.symm⟩ (by omega)
        have some' : a' ≠ [] := by
          intro none
          simp [none] at inside
        have ends : AtLine a' := by
          intro c hc
          refine h c ?_
          rw [List.getLast?_append_of_ne_nil s some']
          exact hc
        rw [List.append_assoc] at split
        obtain ⟨rest, flat, same, owed⟩ :=
          ih (qpCall st s) a' ends (List.append_cancel_left split) (length_flushRest _)
        rw [if_neg some'] at owed
        rw [List.length_append, Nat.add_sub_cancel_left, List.foldl_cons, List.foldl_cons,
          if_neg (by simp [some'])]
        exact ⟨rest, flat, same, owed⟩

/-- What is out once the decoder is told of the end. -/
def ended (st : List UInt8 × List UInt8) : List UInt8 := st.2 ++ qpLoop st.1

theorem qpLoop_plain (pre rest : List UInt8) (plain : EQ ∉ pre) :
    qpLoop (pre ++ rest) = pre ++ qpLoop rest := by
  induction pre with
  | nil => rfl
  | cons c pre ih =>
      obtain ⟨other, later⟩ := List.ne_and_not_mem_of_not_mem_cons plain
      rw [List.cons_append, qpLoop_literal c _ (Ne.symm other), ih later, List.cons_append]

theorem heldBack_head (w : List UInt8) : ∀ c ∈ (heldBack w).head?, c = EQ := by
  intro c hc
  have stop := List.head?_dropWhile_not (fun c => decide (c ≠ byte '=')) (w.drop (w.length - 5))
  rw [heldBack] at hc
  rw [hc] at stop
  have equals : c = byte '=' := by simpa using stop
  exact equals

theorem foldl_qpCall_out (rs : List (List UInt8)) (st : List UInt8 × List UInt8) :
    st.2 <+: ended (rs.foldl qpCall st) := by
  induction rs generalizing st with
  | nil => exact List.prefix_append _ _
  | cons s rs ih => exact (List.prefix_append _ _).trans (ih (qpCall st s))

theorem plain_prefix (rs : List (List UInt8)) (w out pre : List UInt8)
    (front : pre <+: w ++ rs.flatten) (plain : EQ ∉ pre) (oneLine : NL ∉ pre) :
    out ++ pre <+: ended (rs.foldl qpCall (w, out)) := by
  induction rs generalizing w out pre with
  | nil =>
      obtain ⟨rest, rfl⟩ : pre <+: w := by simpa using front
      rw [List.foldl_nil, ended, qpLoop_plain pre rest plain, ← List.append_assoc]
      exact List.prefix_append _ _
  | cons s rs ih =>
      rw [List.foldl_cons]
      rw [List.flatten_cons] at front
      by_cases inLine : NL ∈ s
      · -- the line ends within this call
        obtain ⟨s₁, s₂, rfl, first⟩ : ∃ s₁ s₂, s = s₁ ++ NL :: s₂ ∧ NL ∉ s₁ :=
          List.eq_append_cons_of_mem inLine
        have line : w ++ s₁ ++ [NL] <+: w ++ (s₁ ++ NL :: s₂ ++ rs.flatten) :=
          ⟨s₂ ++ rs.flatten, by simp⟩
        have inFront : pre <+: w ++ s₁ := by
          by_cases within : pre.length ≤ (w ++ s₁).length
          · exact List.prefix_of_prefix_length_le front
              ((List.prefix_append _ _).trans line) within
          · have beyond : w ++ s₁ ++ [NL] <+: pre := by
              refine List.prefix_of_prefix_length_le line front ?_
              rw [List.length_append, List.length_singleton]
              omega
            exact absurd (beyond.subset (List.mem_append_right _ (List.mem_singleton.mpr rfl)))
              oneLine
        obtain ⟨rest, whole⟩ := inFront
        refine List.IsPrefix.trans ?_ (foldl_qpCall_out rs _)
        obtain ⟨last, none⟩ := lastLine_line w s₁ first
        rw [qpCall, decodedLines_append, last, none, List.nil_append, decodedLines,
          if_neg (by simp), ← whole, List.append_assoc pre, qpLoop_plain pre _ plain]
        simp only [List.append_assoc]
        rw [← List.append_assoc]
        exact List.prefix_append _ _
      · obtain ⟨last, none⟩ := lastLine_line w s inLine
        rw [qpCall, last, none, List.nil_append]
        rw [← List.append_assoc] at front
        by_cases long : (w ++ s).length > 1024
        · rw [flushRest, flushOut, if_pos long, if_pos long]
          have split := kept_heldBack (w ++ s)
          rw [← split, List.append_assoc] at front
          by_cases within : pre.length ≤ (kept (w ++ s)).length
          · obtain ⟨rest, whole⟩ : pre <+: kept (w ++ s) :=
              List.prefix_of_prefix_length_le front (List.prefix_append _ _) within
            refine List.IsPrefix.trans ?_ (foldl_qpCall_out rs _)
            rw [← whole, qpLoop_plain pre rest plain, ← List.append_assoc]
            exact List.prefix_append _ _
          · obtain ⟨pre', rfl⟩ : kept (w ++ s) <+: pre :=
              List.prefix_of_prefix_length_le (List.prefix_append _ _) front (by omega)
            have front' : pre' <+: heldBack (w ++ s) ++ rs.flatten := by
              rwa [List.prefix_append_right_inj] at front
            have nothing : heldBack (w ++ s) = [] := by
              cases held : heldBack (w ++ s) with
              | nil => rfl
              | cons c held' =>
                  have equals : c = EQ := heldBack_head (w ++ s) c (by rw [held]; rfl)
                  cases pre' with
                  | nil => simp at within
                  | cons d pre' =>
                      rw [held, List.cons_append, List.cons_prefix_cons] at front'
                      have other : EQ ∈ d :: pre' := by
                        rw [front'.1, equals]
                        exact List.mem_cons_self ..
                      exact absurd (List.mem_append_right _ other) plain
            rw [nothing, List.nil_append] at front'
            have later := ih [] (out ++ kept (w ++ s)) pre' front'
              (fun h => plain (List.mem_append_right _ h))
              (fun h => oneLine (List.mem_append_right _ h))
            have put : putBack (w ++ s) = [] := by
              rw [putBack, nothing]
              rfl
            have all : qpLoop (kept (w ++ s)) = kept (w ++ s) := by
              have h := qpLoop_plain (kept (w ++ s)) [] fun h => plain (List.mem_append_left _ h)
              rwa [List.append_nil, TransferRoundTrip.qpLoop_nil, List.append_nil] at h
            rw [put, all, ← List.append_assoc]
            exact later
        · rw [flushRest, flushOut, if_neg long, if_neg long, List.append_nil]
          exact ih (w ++ s) out pre front plain oneLine

end Decoder

/-! ## Bodies as they are read -/

def quotedPrintable : Option (List UInt8) := some TransferEncoding.quotedPrintable.name

theorem calls_collect (rs : List (List UInt8)) (p : TransferRoundTrip.Part)
    (hc : p.udecodeFunc = collect) (hqp : p.decodeFunc = .decodeQp)
    (short : p.workbuf.length ≤ 1024) :
    calls rs p = { p with
      workbuf := (rs.foldl qpCall (p.workbuf, p.miscDecodePtr)).1
      miscDecodePtr := (rs.foldl qpCall (p.workbuf, p.miscDecodePtr)).2 } := by
  induction rs generalizing p with
  | nil => rfl
  | cons s rs ih =>
      have step := rfc2045Cdecode_collect p s hc hqp short
      have later := ih (rfc2045Cdecode p s).2 (by rw [step]; exact hc) (by rw [step]; exact hqp)
        (by rw [step]; exact length_flushRest _)
      rw [step] at later
      rw [calls, List.foldl_cons, step]
      exact later

theorem collecting_qp (rs : List (List UInt8)) :
    collecting quotedPrintable rs =
      { rfc2045CdecodeStart quotedPrintable collect [] with
        workbuf := (rs.foldl qpCall ([], [])).1
        miscDecodePtr := (rs.foldl qpCall ([], [])).2 } :=
  calls_collect rs _ rfl (by decide) (Nat.zero_le _)

theorem delivered_qp (rs : List (List UInt8)) :
    delivered quotedPrintable rs = (rs.foldl qpCall ([], [])).2 := by
  rw [delivered, collecting_qp]

theorem decodedForm_qp (rs : List (List UInt8)) :
    decodedForm quotedPrintable rs = ended (rs.foldl qpCall ([], [])) := by
  have function : (rfc2045CdecodeStart quotedPrintable collect []).decodeFunc =
      DecodeFunc.decodeQp := by decide
  rw [decodedForm, collecting_qp, rfc2045CdecodeEnd, function]
  rfl

theorem calls_raw (rs : List (List UInt8)) (p : TransferRoundTrip.Part)
    (hc : p.udecodeFunc = collect) (raw : p.decodeFunc = .decodeRaw) :
    calls rs p = { p with miscDecodePtr := p.miscDecodePtr ++ rs.flatten } := by
  induction rs generalizing p with
  | nil => simp [calls]
  | cons s rs ih =>
      have step : (rfc2045Cdecode p s).2 = { p with miscDecodePtr := p.miscDecodePtr ++ s } := by
        obtain ⟨workbuf, decodeFunc, udecodeFunc, got⟩ := p
        subst hc raw
        rw [rfc2045Cdecode]
        by_cases empty : s = []
        · simp [empty]
        · simp [empty, decodeRaw, udecode]
      have later := ih (rfc2045Cdecode p s).2 (by rw [step]; exact hc) (by rw [step]; exact raw)
      rw [step] at later
      rw [calls, List.foldl_cons, step, List.flatten_cons, ← List.append_assoc]
      exact later

/-- Other encodings leave the body as it is. -/
theorem decodedForm_raw {cte : Option (List UInt8)} (raw : decodeFuncOf cte = .decodeRaw)
    (rs : List (List UInt8)) : decodedForm cte rs = rs.flatten := by
  rw [decodedForm, collecting, calls_raw rs _ rfl raw, rfc2045CdecodeEnd]
  simp only [rfc2045CdecodeStart, raw, List.nil_append]

theorem decodeFuncOf_other {leaf : Leaf} (other : ¬ leaf.isBase64)
    (other' : leaf.contentTransferEncoding ≠ quotedPrintable) :
    decodeFuncOf leaf.contentTransferEncoding = .decodeRaw := by
  rw [decodeFuncOf.eq_def]
  cases cte : leaf.contentTransferEncoding with
  | none => rfl
  | some name =>
      rw [Leaf.isBase64, cte] at other
      rw [cte] at other'
      have notQp := fun h => other' (congrArg some h)
      have notBase64 := fun h => other (congrArg some h)
      exact (if_neg notQp).trans (if_neg notBase64)

def Hidden (val : List UInt8) (rs : List (List UInt8)) : Prop :=
  ∃ a b, rs.flatten = a ++ b ∧ AtLine a ∧ Begins val b ∧
    (EQ ∈ val ∨ ¬ AtLine (delivered quotedPrintable (cutReads a.length rs)))

section Try
variable {src : Rfc2045src} {val : List UInt8}

theorem tolower_eq_EQ : ∀ c, tolower c = tolower EQ → c = EQ := forall_byte (by decide +kernel)

theorem mem_cand {cand : List UInt8} (same : cand.map tolower = val.map tolower)
    (h : EQ ∈ cand) : EQ ∈ val := by
  have mem : tolower EQ ∈ val.map tolower := same ▸ List.mem_map_of_mem h
  obtain ⟨c, hc, lower⟩ := List.mem_map.mp mem
  exact tolower_eq_EQ c lower ▸ hc

theorem begins_seen {rs : List (List UInt8)} {a b : List UInt8} (split : rs.flatten = a ++ b)
    (h : AtLine a) (begins : Begins val b) (plain : EQ ∉ val)
    (h' : AtLine (delivered quotedPrintable (cutReads a.length rs))) :
    ¬ NoLine val (decodedForm quotedPrintable rs) := by
  obtain ⟨rest, flat, same, owed⟩ := foldl_qpCall_cut rs ([], []) a b h split (Nat.zero_le _)
  rw [delivered_qp] at h'
  rw [decodedForm_qp, same]
  obtain ⟨line, front, oneLine, found⟩ := begins
  obtain ⟨cand, begins, lower⟩ := (collides_iff line).mp found
  generalize (cutReads a.length rs).foldl qpCall ([], []) = st at owed h'
  obtain ⟨w, out⟩ := st
  obtain rfl : w = [] := by simpa using owed
  intro free
  have none : EQ ∉ byte '-' :: byte '-' :: cand := by
    intro h
    rcases List.mem_cons.mp h with dash | h
    · exact absurd dash (by decide)
    · rcases List.mem_cons.mp h with dash | h
      · exact absurd dash (by decide)
      · exact plain (mem_cand lower h)
  have none' : NL ∉ byte '-' :: byte '-' :: cand := fun h => oneLine (begins.subset h)
  obtain ⟨later, whole⟩ := plain_prefix rest [] out (byte '-' :: byte '-' :: cand)
    (by rw [List.nil_append, flat]; exact begins.trans front) none none'
  rw [← whole, List.append_assoc] at free
  exact not_begins h' free ⟨_, List.prefix_append _ _, none',
    (collides_iff _).mpr ⟨cand, List.prefix_rfl, lower⟩⟩

theorem raw_free_iff {rs : List (List UInt8)}
    (free : NoLine val (decodedForm quotedPrintable rs)) :
    NoLine val rs.flatten ↔ ¬ Hidden val rs := by
  constructor
  · intro raw ⟨a, b, split, h, begins, _⟩
    exact not_begins h (split ▸ raw) begins
  · intro clear
    rw [noLine_iff_begins]
    intro a b split h begins
    by_cases plain : EQ ∈ val
    · exact clear ⟨a, b, split, h, begins, Or.inl plain⟩
    · by_cases h' : AtLine (delivered quotedPrintable (cutReads a.length rs))
      · exact begins_seen split h begins plain h' free
      · exact clear ⟨a, b, split, h, begins, Or.inr h'⟩

theorem reads_flatten {leaf : Leaf} {rs : List (List UInt8)} (h : reads src leaf = some rs) :
    rs.flatten = body src leaf :=
  (readsLoop_flatten (Nat.le_refl _) h).1

theorem free_iff {leaf : Leaf} (other : ¬ leaf.isBase64) (h : tryLeaf src val leaf = 0) :
    Free src val leaf ↔ (leaf.contentTransferEncoding = quotedPrintable →
      ∀ rs ∈ reads src leaf, ¬ Hidden val rs) := by
  obtain ⟨rs, read, decoded⟩ := decoded_of_tryLeaf other h
  have flat := reads_flatten read
  have raw : Free src val leaf ↔ NoLine val (body src leaf) :=
    ⟨fun free => free.1, fun raw => ⟨raw, rs, read, decoded⟩⟩
  rw [raw, ← flat]
  by_cases qp : leaf.contentTransferEncoding = quotedPrintable
  · rw [qp] at decoded
    rw [raw_free_iff decoded, read]
    simp [qp]
  · rw [decodedForm_raw (decodeFuncOf_other other qp)] at decoded
    exact ⟨fun _ h => absurd h qp, fun _ => decoded⟩

/-- A boundary that is accepted is in no body, if it is in no line that the decoder hides. -/
theorem try_boundary_iff (src : Rfc2045src) (val : List UInt8) (part : Rfc2045Tryboundary.Part)
    (accepted : tryBoundary src val part = 0) :
    (∀ leaf ∈ leaves part, ¬ leaf.isBase64 → Free src val leaf) ↔
      ∀ leaf ∈ leaves part, leaf.contentTransferEncoding = quotedPrintable →
        ∀ rs ∈ reads src leaf, ¬ Hidden val rs := by
  have tried := tryBoundary_leaves part accepted
  constructor
  · intro free leaf hl qp
    have other : ¬ leaf.isBase64 := by
      rw [Leaf.isBase64, qp]
      decide
    exact (free_iff other (tried leaf hl)).mp (free leaf hl other) qp
  · intro clear leaf hl other
    exact (free_iff other (tried leaf hl)).mpr (clear leaf hl)

end Try

/-! ## A message in memory -/

def inMemory (message : List UInt8) : Rfc2045src where
  message := message
  seekFunc _ := 0
  readFunc ps cnt := some ((message.drop ps).take cnt)
  read := by
    intro ps cnt bytes h
    obtain rfl := Option.some.inj h
    exact ⟨List.take_prefix _ _, List.length_take_le _ _⟩

/-- Two lines of quoted-printable text, the first of which goes on in the second. -/
def softBroken (line : String) : Rfc2045src := inMemory (str "a=\n" ++ str line)

def quoted : Rfc2045Tryboundary.Part := .leaf ⟨quotedPrintable, 0, 7⟩

theorem softBroken_facts :
    (tryBoundary (softBroken "--b\n") (str "b") quoted = 0 ∧
      ¬ NoLine (str "b") (body (softBroken "--b\n") ⟨quotedPrintable, 0, 7⟩)) ∧
    tryBoundary (softBroken "--c\n") (str "b") quoted = 0 ∧
      reads (softBroken "--c\n") ⟨quotedPrintable, 0, 7⟩ = some [str "a=\n--c\n"] ∧
      NoLine (str "b") (str "a=\n--c\n") ∧
      NoLine (str "b") (decodedForm quotedPrintable [str "a=\n--c\n"]) := by
  unfold NoLine
  decide +kernel

theorem try_boundary_iff_sample :
    Free (softBroken "--c\n") (str "b") ⟨quotedPrintable, 0, 7⟩ := by
  obtain ⟨-, accepted, read, raw, decoded⟩ := softBroken_facts
  refine (try_boundary_iff _ _ _ accepted).mpr ?_ _ (List.mem_singleton.mpr rfl) (by decide)
  intro leaf hl qp rs hrs
  obtain rfl : leaf = ⟨quotedPrintable, 0, 7⟩ := by simpa [quoted, leaves] using hl
  obtain rfl : rs = [str "a=\n--c\n"] := by simpa [read] using hrs.symm
  exact (raw_free_iff decoded).mp (by simpa using raw)

/-- The decoded text is the one line `a--b`. -/
theorem softBroken_hidden :
    ¬ ∀ (src : Rfc2045src) (val : List UInt8) (part : Rfc2045Tryboundary.Part),
      tryBoundary src val part = 0 → ∀ leaf ∈ leaves part, ¬ leaf.isBase64 → Free src val leaf := by
  intro all
  obtain ⟨⟨accepted, raw⟩, -⟩ := softBroken_facts
  exact raw (all _ _ _ accepted _ (List.mem_singleton.mpr rfl) (by decide)).1

end Cone.Rfc2045TryboundaryRaw
