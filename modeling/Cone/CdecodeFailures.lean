import Cone.Cdecode

/-! # Failing sinks

The callback given to `rfc2045_cdecode_start` may fail in any call.  `decode_raw` and
`decode_qp` hand its result on; `do_decode_base64` keeps it to itself. -/
set_option autoImplicit false
namespace Cone.CdecodeFailures

open Cone.Ctype Cone.Lib.ReturnCode Cone.Cdecode

/-- `rfc2045_cdecode` with some bytes, or `rfc2045_cdecode_end`. -/
inductive Call where
  | data (s : List UInt8)
  | finish
  deriving DecidableEq, Repr

section Calls
variable {σ : Type}

def Call.run : Call → Rfc2045 σ → Int × Rfc2045 σ
  | .data s, p => rfc2045Cdecode p s
  | .finish, p => rfc2045CdecodeEnd p

def steps : List Call → Rfc2045 σ → List (Call × Rfc2045 σ)
  | [], _ => []
  | c :: calls, p => (c, p) :: steps calls (c.run p).2

def watch (p : Rfc2045 σ) : Rfc2045 (σ × Bool) where
  workbuf := p.workbuf
  decodeFunc := p.decodeFunc
  udecodeFunc := watched p.udecodeFunc
  miscDecodePtr := (p.miscDecodePtr, false)

def sinkFailed (p : Rfc2045 (σ × Bool)) : Bool := p.miscDecodePtr.2

def Reports (step : Call × Rfc2045 σ) : Prop :=
  sinkFailed (step.1.run (watch step.2)).2 = true → (step.1.run (watch step.2)).1 ≠ 0

def base64Block : Call × Rfc2045 σ → Option (List UInt8)
  | (.data s, p) =>
    if s ≠ [] ∧ (p.workbuf ++ s).length > 256 then some (p.workbuf ++ s) else none
  | (.finish, p) => some p.workbuf

def Accepts (step : Call × Rfc2045 σ) : Prop :=
  ∀ block ∈ base64Block step,
    (step.2.udecodeFunc (decodeQuads (block.filter fun c => decode64 c < 100)).1
      step.2.miscDecodePtr).1 = 0

/-! ## The decoders that report -/

theorem udecode_honest (u : Callback σ) (bytes : List UInt8) (p : Rfc2045 (σ × Bool))
    (hu : p.udecodeFunc = watched u) (fine : sinkFailed p = false) :
    Honest sinkFailed (udecode bytes p) := by
  have known : p.miscDecodePtr = (p.miscDecodePtr.1, false) := Prod.ext rfl fine
  have h := watched_honest u bytes p.miscDecodePtr.1
  rw [← known] at h
  rw [udecode, hu]
  exact h

/-- What a step of the quoted-printable decoder keeps, and what it says. -/
def Watching (u : Callback σ) (r : Int × Rfc2045 (σ × Bool)) : Prop :=
  Honest sinkFailed r ∧ r.2.udecodeFunc = watched u

theorem Watching.andThen {u : Callback σ} {r : Int × Rfc2045 (σ × Bool)}
    {next : Rfc2045 (σ × Bool) → Int × Rfc2045 (σ × Bool)} (first : Watching u r)
    (later : ∀ p : Rfc2045 (σ × Bool), p.udecodeFunc = watched u → sinkFailed p = false →
      Watching u (next p)) :
    Watching u (andThen r next) := by
  refine andThen_rule (Watching u) r next first fun zero => later r.2 first.2 ?_
  exact Bool.eq_false_iff.mpr fun bad => first.1.mp bad zero

theorem watching_zero (u : Callback σ) (p : Rfc2045 (σ × Bool)) (hu : p.udecodeFunc = watched u)
    (fine : sinkFailed p = false) : Watching u (0, p) := by
  refine ⟨?_, hu⟩
  simp [Honest, fine]

theorem doDecodeQp_watching (u : Callback σ) (p : Rfc2045 (σ × Bool))
    (hu : p.udecodeFunc = watched u) (fine : sinkFailed p = false) :
    Watching u (doDecodeQp p) :=
  ⟨udecode_honest u (qpLoop p.workbuf) p hu fine, hu⟩

theorem flushLongLine_watching (u : Callback σ) (p : Rfc2045 (σ × Bool))
    (hu : p.udecodeFunc = watched u) (fine : sinkFailed p = false) :
    Watching u (flushLongLine p) := by
  rw [flushLongLine]
  by_cases long : p.workbuf.length > 1024
  · rw [if_pos long]
    refine Watching.andThen (doDecodeQp_watching u _ ?_ ?_) ?_
    · exact hu
    · exact fine
    · intro p hu fine
      refine watching_zero u _ ?_ ?_
      · exact hu
      · exact fine
  · rw [if_neg long]
    exact watching_zero u p hu fine

theorem decodeQpLoop_watching (u : Callback σ) (run s : List UInt8) (p : Rfc2045 (σ × Bool))
    (hu : p.udecodeFunc = watched u) (fine : sinkFailed p = false) :
    Watching u (decodeQpLoop run s p) := by
  induction s generalizing run p with
  | nil =>
      rw [decodeQpLoop]
      by_cases empty : run = []
      · rw [if_pos empty]
        exact watching_zero u p hu fine
      · rw [if_neg empty]
        exact flushLongLine_watching u _ hu fine
  | cons c s ih =>
      rw [decodeQpLoop]
      by_cases inLine : c ≠ NL
      · rw [if_pos inLine]
        exact ih _ p hu fine
      · rw [if_neg inLine]
        refine Watching.andThen (doDecodeQp_watching u _ ?_ ?_) fun p hu fine => ih [] p hu fine
        · exact hu
        · exact fine

theorem decodeRaw_watching (u : Callback σ) (s : List UInt8) (p : Rfc2045 (σ × Bool))
    (hu : p.udecodeFunc = watched u) (fine : sinkFailed p = false) :
    Watching u (decodeRaw s p) := by
  rw [decodeRaw]
  by_cases empty : s = []
  · rw [if_pos empty]
    exact watching_zero u p hu fine
  · rw [if_neg empty]
    exact ⟨udecode_honest u s p hu fine, hu⟩

theorem reports_of_not_base64 (step : Call × Rfc2045 σ)
    (other : step.2.decodeFunc ≠ .decodeBase64) : Reports step := by
  obtain ⟨c, p⟩ := step
  have honest : Watching p.udecodeFunc (c.run (watch p)) := by
    have same : (watch p).decodeFunc = p.decodeFunc := rfl
    cases c with
    | data s =>
        rw [Call.run, rfc2045Cdecode]
        by_cases empty : s = []
        · rw [if_pos empty]
          exact watching_zero _ _ rfl rfl
        · rw [if_neg empty, same]
          cases func : p.decodeFunc with
          | decodeRaw => exact decodeRaw_watching _ s _ rfl rfl
          | decodeQp => exact decodeQpLoop_watching _ [] s _ rfl rfl
          | decodeBase64 => exact absurd func other
    | finish =>
        rw [Call.run, rfc2045CdecodeEnd, same]
        cases func : p.decodeFunc with
        | decodeRaw => exact watching_zero _ _ rfl rfl
        | decodeQp => exact doDecodeQp_watching _ _ rfl rfl
        | decodeBase64 => exact absurd func other
  exact honest.1.mp

/-! ## base64 -/

theorem doDecodeBase64_sinkFailed (p : Rfc2045 σ) (block : List UInt8) :
    sinkFailed (doDecodeBase64 { watch p with workbuf := block }).2 =
      decide ((p.udecodeFunc (decodeQuads (block.filter fun c => decode64 c < 100)).1
        p.miscDecodePtr).1 ≠ 0) := rfl

theorem base64_run (step : Call × Rfc2045 σ) (base64 : step.2.decodeFunc = .decodeBase64) :
    (base64Block step = none ∧ sinkFailed (step.1.run (watch step.2)).2 = false) ∨
      ∃ block, base64Block step = some block ∧
        step.1.run (watch step.2) = doDecodeBase64 { watch step.2 with workbuf := block } := by
  obtain ⟨c, p⟩ := step
  have same : (watch p).decodeFunc = .decodeBase64 := base64
  cases c with
  | data s =>
      have dispatch : (Call.data s).run (watch p) =
          if s = [] then (0, watch p) else decodeBase64 s (watch p) := by
        rw [Call.run, rfc2045Cdecode, same]
      by_cases empty : s = []
      · refine Or.inl ⟨if_neg fun h => h.1 empty, ?_⟩
        simp only [dispatch, if_pos empty]
        rfl
      · simp only [dispatch, if_neg empty]
        by_cases full : (p.workbuf ++ s).length > 256
        · refine Or.inr ⟨p.workbuf ++ s, if_pos ⟨empty, full⟩, ?_⟩
          rw [decodeBase64]
          exact if_pos full
        · refine Or.inl ⟨if_neg fun h => full h.2, ?_⟩
          have idle : decodeBase64 s (watch p) = (0, { watch p with workbuf := p.workbuf ++ s }) := by
            rw [decodeBase64]
            exact if_neg full
          rw [idle]
          rfl
  | finish =>
      have dispatch : rfc2045CdecodeEnd (watch p) = doDecodeBase64 (watch p) := by
        rw [rfc2045CdecodeEnd, same]
      exact Or.inr ⟨p.workbuf, rfl, dispatch⟩

theorem reports_base64_iff (step : Call × Rfc2045 σ) (base64 : step.2.decodeFunc = .decodeBase64) :
    Reports step ↔ Accepts step := by
  rw [Reports, Accepts]
  rcases base64_run step base64 with ⟨idle, silent⟩ | ⟨block, busy, run⟩
  · simp [idle, silent]
  · have zero : (doDecodeBase64 { watch step.2 with workbuf := block }).1 = 0 := rfl
    rw [run, zero, doDecodeBase64_sinkFailed, busy]
    simp

/-! ## Runs -/

theorem flushLongLine_decodeFunc (p : Rfc2045 σ) :
    (flushLongLine p).2.decodeFunc = p.decodeFunc := by
  rw [flushLongLine]
  split
  · exact andThen_rule (fun r : Int × Rfc2045 σ => r.2.decodeFunc = p.decodeFunc) _ _ rfl fun _ => rfl
  · rfl

theorem decodeQpLoop_decodeFunc (run s : List UInt8) (p : Rfc2045 σ) :
    (decodeQpLoop run s p).2.decodeFunc = p.decodeFunc := by
  induction s generalizing run p with
  | nil =>
      rw [decodeQpLoop]
      split
      · rfl
      · exact flushLongLine_decodeFunc _
  | cons c s ih =>
      rw [decodeQpLoop]
      split
      · exact ih _ p
      · exact andThen_rule (fun r : Int × Rfc2045 σ => r.2.decodeFunc = p.decodeFunc) _ _ rfl fun _ => ih [] _

theorem run_decodeFunc (c : Call) (p : Rfc2045 σ) : (c.run p).2.decodeFunc = p.decodeFunc := by
  cases c with
  | data s =>
      rw [Call.run, rfc2045Cdecode]
      split
      · rfl
      · cases func : p.decodeFunc with
        | decodeRaw =>
            simp only [decodeRaw]
            split
            · exact func
            · exact func
        | decodeQp => exact (decodeQpLoop_decodeFunc [] s p).trans func
        | decodeBase64 =>
            simp only [decodeBase64]
            split
            · exact func
            · exact func
  | finish =>
      rw [Call.run, rfc2045CdecodeEnd]
      cases func : p.decodeFunc with
      | decodeRaw => exact func
      | decodeQp => exact func
      | decodeBase64 => exact func

theorem steps_decodeFunc (calls : List Call) (p : Rfc2045 σ) :
    ∀ step ∈ steps calls p, step.2.decodeFunc = p.decodeFunc := by
  induction calls generalizing p with
  | nil => simp [steps]
  | cons c calls ih =>
      intro step hstep
      rcases List.mem_cons.mp hstep with rfl | later
      · rfl
      · exact (ih (c.run p).2 step later).trans (run_decodeFunc c p)

end Calls

/-- In a run every failure of the sink is reported by the call it happens in, if and only if the
transfer encoding is not base64 or the sink takes every base64 block the calls decode. -/
theorem failures_reported_iff {σ : Type} (contentTransferEncoding : Option (List UInt8))
    (u : Callback σ) (miscptr : σ) (calls : List Call) :
    (∀ step ∈ steps calls (rfc2045CdecodeStart contentTransferEncoding u miscptr), Reports step) ↔
      decodeFuncOf contentTransferEncoding ≠ .decodeBase64 ∨
        ∀ step ∈ steps calls (rfc2045CdecodeStart contentTransferEncoding u miscptr),
          Accepts step := by
  have func := steps_decodeFunc calls (rfc2045CdecodeStart contentTransferEncoding u miscptr)
  by_cases base64 : decodeFuncOf contentTransferEncoding = .decodeBase64
  · constructor
    · intro reports
      right
      intro step hstep
      exact (reports_base64_iff step ((func step hstep).trans base64)).mp (reports step hstep)
    · intro h
      have accepts := h.resolve_left (not_not.mpr base64)
      intro step hstep
      exact (reports_base64_iff step ((func step hstep).trans base64)).mpr (accepts step hstep)
  · refine iff_of_true ?_ (Or.inl base64)
    intro step hstep
    refine reports_of_not_base64 step ?_
    rw [func step hstep]
    exact base64

/-- A sink that always fails, and base64 text: the call that decodes it returns zero. -/
theorem base64_failure_lost :
    ¬ ∀ (contentTransferEncoding : Option (List UInt8)) (u : Callback Unit) (miscptr : Unit)
        (calls : List Call),
      ∀ step ∈ steps calls (rfc2045CdecodeStart contentTransferEncoding u miscptr),
        Reports step := by
  intro reported
  let sink : Callback Unit := fun _ m => (1, m)
  let part := rfc2045CdecodeStart (some ((['b', 'a', 's', 'e', '6', '4'] : List Char).map byte)) sink ()
  have h := reported (some ((['b', 'a', 's', 'e', '6', '4'] : List Char).map byte)) sink ()
    [.data [81, 85, 74, 68], .finish]
    (.finish, (Call.run (.data [81, 85, 74, 68]) part).2) (by simp [steps, part, sink])
  exact h (by decide) (by decide)

end Cone.CdecodeFailures
