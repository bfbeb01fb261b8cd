import Cone.Cdecode

/-! # Two clients of the decoder

Callbacks that never fail are handed the same blocks, so whatever relates what they make of a
block relates what they make of a body. -/
set_option autoImplicit false
namespace Cone.CdecodeClients

open Cone.Ctype Cone.Lib.ReturnCode Cone.Cdecode

section Clients
variable {σ τ : Type} {R : σ → τ → Prop} {u : Callback σ} {v : Callback τ}

def Keep (R : σ → τ → Prop) (u : Callback σ) (v : Callback τ) : Prop :=
  ∀ bytes s t, R s t → (u bytes s).1 = 0 ∧ (v bytes t).1 = 0 ∧ R (u bytes s).2 (v bytes t).2

structure Alike (R : σ → τ → Prop) (u : Callback σ) (v : Callback τ) (p : Rfc2045 σ)
    (q : Rfc2045 τ) : Prop where
  workbuf : p.workbuf = q.workbuf
  decodeFunc : p.decodeFunc = q.decodeFunc
  left : p.udecodeFunc = u
  right : q.udecodeFunc = v
  clients : R p.miscDecodePtr q.miscDecodePtr

structure Both (R : σ → τ → Prop) (u : Callback σ) (v : Callback τ) (r : Int × Rfc2045 σ)
    (r' : Int × Rfc2045 τ) : Prop where
  left : r.1 = 0
  right : r'.1 = 0
  alike : Alike R u v r.2 r'.2

theorem Both.andThen {r : Int × Rfc2045 σ} {r' : Int × Rfc2045 τ}
    {next : Rfc2045 σ → Int × Rfc2045 σ} {next' : Rfc2045 τ → Int × Rfc2045 τ} (h : Both R u v r r')
    (later : ∀ p q, Alike R u v p q → Both R u v (next p) (next' q)) :
    Both R u v (andThen r next) (andThen r' next') := by
  obtain ⟨rc, p⟩ := r
  obtain ⟨rc', q⟩ := r'
  obtain rfl : rc = 0 := h.left
  obtain rfl : rc' = 0 := h.right
  exact later p q h.alike

theorem Alike.both {p : Rfc2045 σ} {q : Rfc2045 τ} (h : Alike R u v p q) : Both R u v (0, p) (0, q) :=
  ⟨rfl, rfl, h⟩

theorem Alike.withWorkbuf {p : Rfc2045 σ} {q : Rfc2045 τ} (h : Alike R u v p q) (w : List UInt8) :
    Alike R u v { p with workbuf := w } { q with workbuf := w } :=
  ⟨rfl, h.decodeFunc, h.left, h.right, h.clients⟩

section Keep
variable (keep : Keep R u v)
include keep

theorem udecode_both {p : Rfc2045 σ} {q : Rfc2045 τ} (h : Alike R u v p q) (bytes : List UInt8) :
    Both R u v (udecode bytes p) (udecode bytes q) := by
  obtain ⟨left, right, kept⟩ := keep bytes _ _ h.clients
  rw [udecode, udecode, h.left, h.right]
  exact ⟨left, right, h.workbuf, h.decodeFunc, rfl, rfl, kept⟩

theorem doDecodeQp_both {p : Rfc2045 σ} {q : Rfc2045 τ} (h : Alike R u v p q) :
    Both R u v (doDecodeQp p) (doDecodeQp q) := by
  have r := udecode_both keep h (qpLoop q.workbuf)
  rw [doDecodeQp, doDecodeQp, h.workbuf]
  exact ⟨r.left, r.right, r.alike.withWorkbuf []⟩

theorem flushLongLine_both {p : Rfc2045 σ} {q : Rfc2045 τ} (h : Alike R u v p q) :
    Both R u v (flushLongLine p) (flushLongLine q) := by
  rw [flushLongLine, flushLongLine, h.workbuf]
  by_cases long : q.workbuf.length > 1024
  · rw [if_pos long, if_pos long]
    refine (doDecodeQp_both keep (h.withWorkbuf _)).andThen fun p q alike => ?_
    rw [alike.workbuf]
    exact (alike.withWorkbuf _).both
  · rw [if_neg long, if_neg long]
    exact h.both

theorem decodeQpLoop_both (run s : List UInt8) {p : Rfc2045 σ} {q : Rfc2045 τ}
    (h : Alike R u v p q) : Both R u v (decodeQpLoop run s p) (decodeQpLoop run s q) := by
  induction s generalizing run p q with
  | nil =>
      rw [decodeQpLoop, decodeQpLoop]
      by_cases empty : run = []
      · rw [if_pos empty, if_pos empty]
        exact h.both
      · rw [if_neg empty, if_neg empty, h.workbuf]
        exact flushLongLine_both keep (h.withWorkbuf _)
  | cons c s ih =>
      rw [decodeQpLoop, decodeQpLoop]
      by_cases inLine : c ≠ NL
      · rw [if_pos inLine, if_pos inLine]
        exact ih _ h
      · rw [if_neg inLine, if_neg inLine, h.workbuf]
        exact (doDecodeQp_both keep (h.withWorkbuf _)).andThen fun p q alike => ih [] alike

theorem doDecodeBase64_both {p : Rfc2045 σ} {q : Rfc2045 τ} (h : Alike R u v p q) :
    Both R u v (doDecodeBase64 p) (doDecodeBase64 q) := by
  rw [doDecodeBase64, doDecodeBase64, h.workbuf]
  exact ⟨rfl, rfl, (udecode_both keep h _).alike.withWorkbuf _⟩

theorem rfc2045Cdecode_both (s : List UInt8) {p : Rfc2045 σ} {q : Rfc2045 τ} (h : Alike R u v p q) :
    Both R u v (rfc2045Cdecode p s) (rfc2045Cdecode q s) := by
  rw [rfc2045Cdecode, rfc2045Cdecode, h.decodeFunc]
  by_cases empty : s = []
  · rw [if_pos empty, if_pos empty]
    exact h.both
  · rw [if_neg empty, if_neg empty]
    cases q.decodeFunc with
    | decodeRaw =>
        simp only [decodeRaw, if_neg empty]
        exact udecode_both keep h s
    | decodeQp => exact decodeQpLoop_both keep [] s h
    | decodeBase64 =>
        simp only [decodeBase64, h.workbuf]
        by_cases full : (q.workbuf ++ s).length > 256
        · rw [if_pos full, if_pos full]
          exact doDecodeBase64_both keep (h.withWorkbuf _)
        · rw [if_neg full, if_neg full]
          exact (h.withWorkbuf _).both

theorem rfc2045CdecodeEnd_both {p : Rfc2045 σ} {q : Rfc2045 τ} (h : Alike R u v p q) :
    Both R u v (rfc2045CdecodeEnd p) (rfc2045CdecodeEnd q) := by
  rw [rfc2045CdecodeEnd, rfc2045CdecodeEnd, h.decodeFunc]
  cases q.decodeFunc with
  | decodeRaw => exact h.both
  | decodeQp => exact doDecodeQp_both keep h
  | decodeBase64 => exact doDecodeBase64_both keep h

end Keep

theorem alike_start (cte : Option (List UInt8)) (s : σ) (t : τ) (start : R s t) :
    Alike R u v (rfc2045CdecodeStart cte u s) (rfc2045CdecodeStart cte v t) :=
  ⟨rfl, rfl, rfl, rfl, start⟩

end Clients

/-! ## What a run of calls delivers -/

def calls {σ : Type} (reads : List (List UInt8)) (p : Rfc2045 σ) : Rfc2045 σ :=
  reads.foldl (fun p s => (rfc2045Cdecode p s).2) p

theorem alike_calls {σ τ : Type} {R : σ → τ → Prop} {u : Callback σ} {v : Callback τ}
    (keep : Keep R u v) (reads : List (List UInt8)) {p : Rfc2045 σ} {q : Rfc2045 τ}
    (h : Alike R u v p q) : Alike R u v (calls reads p) (calls reads q) := by
  induction reads generalizing p q with
  | nil => exact h
  | cons s reads ih => exact ih (rfc2045Cdecode_both keep s h).alike

/-- The decoder with the client that keeps every byte. -/
def collecting (cte : Option (List UInt8)) (reads : List (List UInt8)) : Rfc2045 (List UInt8) :=
  calls reads (rfc2045CdecodeStart cte collect [])

def delivered (cte : Option (List UInt8)) (reads : List (List UInt8)) : List UInt8 :=
  (collecting cte reads).miscDecodePtr

def decodedForm (cte : Option (List UInt8)) (reads : List (List UInt8)) : List UInt8 :=
  (rfc2045CdecodeEnd (collecting cte reads)).2.miscDecodePtr

theorem keep_collect {τ : Type} {R : List UInt8 → τ → Prop} {v : Callback τ}
    (keep : ∀ bytes out t, R out t → (v bytes t).1 = 0 ∧ R (out ++ bytes) (v bytes t).2) :
    Keep R collect v := by
  intro bytes out t related
  exact ⟨rfl, keep bytes out t related⟩

theorem collecting_udecodeFunc (cte : Option (List UInt8)) (reads : List (List UInt8)) :
    (collecting cte reads).udecodeFunc = collect := by
  have keep : Keep (fun _ _ => True) collect collect :=
    keep_collect fun bytes out t _ => ⟨rfl, trivial⟩
  exact (alike_calls keep reads (alike_start cte [] [] trivial)).left

/-- The end only adds to what is out. -/
theorem delivered_prefix (cte : Option (List UInt8)) (reads : List (List UInt8)) :
    delivered cte reads <+: decodedForm cte reads := by
  have client := collecting_udecodeFunc cte reads
  rw [delivered, decodedForm, rfc2045CdecodeEnd]
  cases (collecting cte reads).decodeFunc with
  | decodeRaw => exact List.prefix_rfl
  | decodeQp =>
      simp only [doDecodeQp, udecode, client, collect_apply]
      exact List.prefix_append _ _
  | decodeBase64 =>
      simp only [doDecodeBase64, udecode, client, collect_apply]
      exact List.prefix_append _ _

end Cone.CdecodeClients
