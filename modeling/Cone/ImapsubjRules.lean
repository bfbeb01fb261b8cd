import Cone.Imapsubj

/-! # The rules for a base subject

One rule at a time, the first that applies in the order of the comments in `stripsubj`.  What a blob
and a reply or forward marker look like is left to a grammar: `rfc` is the ABNF of those comments,
`source` is what `skipblob` and `stripRefwd` accept. -/
set_option autoImplicit false
namespace Cone.Imapsubj

open Cone.Ctype
open Cone.ImapBodystructure (Text upper)

/-- Behind a `subj-blob`, and behind a `subj-refwd`. -/
structure Grammar where
  blob : Text → Option Text
  refwd : Text → Option Text

section Rules
variable (g : Grammar)

/-- `*subj-blob` -/
def Grammar.blobs : Nat → Text → Text
  | 0, t => t
  | n + 1, t =>
    match g.blob t with
    | some t' => Grammar.blobs n t'
    | none => t

def Grammar.leader (t : Text) : Option Text := g.refwd (g.blobs t.length t)

def endsFwd (t : Text) : Bool :=
  decide (5 ≤ t.length) && decide (upper (t.drop (t.length - 5)) = str "(FWD)")

/-- The `subj-fwd-hdr` and the `subj-fwd-trl`. -/
def ruleFwd (t : Text) : Option (Bool × Text) :=
  if isFwd t then some (true, t.dropLast.drop 5) else none

def ruleBlob (t : Text) : Option (Bool × Text) :=
  match g.blob t with
  | some t' => if t' ≠ [] then some (false, t') else ruleFwd t
  | none => ruleFwd t

def ruleLeader (t : Text) : Option (Bool × Text) :=
  match g.leader t with
  | some t' => some (true, t')
  | none => ruleBlob g t

/-- What the first rule that applies leaves, and whether it removes a marker. -/
def rule (t : Text) : Option (Bool × Text) :=
  if t.getLast? = some SP then some (false, t.dropLast)
  else if endsFwd t then some (true, t.take (t.length - 5))
  else if t.head? = some SP then some (false, t.tail)
  else ruleLeader g t

inductive Steps : Text → Bool → Text → Prop where
  | refl (t : Text) : Steps t false t
  | next {t t' r : Text} {b m : Bool} (h : rule g t = some (b, t')) (hrest : Steps t' m r) :
    Steps t (b || m) r

def Runs (t : Text) (m : Bool) (r : Text) : Prop := Steps g t m r ∧ rule g r = none

end Rules

/-! ## The two grammars -/

def skipWsp (t : Text) : Text := t.dropWhile fun c => decide (c = SP)

def isBlobchar (c : UInt8) : Bool :=
  (decide (1 ≤ c) && decide (c ≤ 0x5a)) || decide (c = 0x5c) ||
    (decide (0x5e ≤ c) && decide (c ≤ 0x7f))

namespace Rfc

/-- `subj-blob = "[" *BLOBCHAR "]" *WSP` -/
def blob (t : Text) : Option Text :=
  match t with
  | [] => none
  | c :: t =>
    if c = byte '[' then
      match t.dropWhile isBlobchar with
      | [] => none
      | d :: r => if d = byte ']' then some (skipWsp r) else none
    else none

/-- `"re" / ("fw" ["d"])` -/
def word (t : Text) : Option Text :=
  if begins "RE" t then some (t.drop 2)
  else if begins "FW" t then
    some (if begins "D" (t.drop 2) then t.drop 3 else t.drop 2)
  else none

/-- `[subj-blob] ":"` -/
def colon (t : Text) : Option Text :=
  match (blob t).getD t with
  | [] => none
  | c :: r => if c = byte ':' then some r else none

def refwd (t : Text) : Option Text := (word t).bind fun t => colon (skipWsp t)

end Rfc

def rfc : Grammar := ⟨Rfc.blob, Rfc.refwd⟩

namespace Source

def blob (t : Text) : Option Text := if blobEnd t ≠ t then some (blobEnd t) else none

def refwd (t : Text) : Option Text :=
  (marker t).bind fun r =>
    match blobEnd r.2 with
    | [] => none
    | c :: p => if c = byte ':' then some p else none

end Source

def source : Grammar := ⟨Source.blob, Source.refwd⟩

/-! ## Facts about all grammars -/

section General
variable {g : Grammar} {t t' r : Text} {b m : Bool}

theorem Steps.trans {m' : Bool} (h : Steps g t m t') (h' : Steps g t' m' r) :
    Steps g t (m || m') r := by
  induction h with
  | refl t => simpa using h'
  | next hrule hrest ih =>
      rw [Bool.or_assoc]
      exact .next hrule (ih h')

theorem Steps.one (h : rule g t = some (b, t')) : Steps g t b t' := by
  have hstep := Steps.next h (.refl t')
  rwa [Bool.or_false] at hstep

/-- The rules determine the outcome. -/
theorem Runs.unique {m' : Bool} {r' : Text} (h : Runs g t m r) (h' : Runs g t m' r') :
    m = m' ∧ r = r' := by
  obtain ⟨hsteps, hend⟩ := h
  obtain ⟨hsteps', hend'⟩ := h'
  induction hsteps generalizing m' with
  | refl t =>
      cases hsteps' with
      | refl => exact ⟨rfl, rfl⟩
      | next hrule => rw [hend] at hrule; cases hrule
  | next hrule hrest ih =>
      cases hsteps' with
      | refl => rw [hend'] at hrule; cases hrule
      | next hrule' hrest' =>
          rw [hrule] at hrule'
          cases hrule'
          obtain ⟨rfl, rfl⟩ := ih hend hrest'
          exact ⟨rfl, rfl⟩

theorem Runs.cons (hrule : rule g t = some (b, t')) (h : Runs g t' m r) : Runs g t (b || m) r :=
  ⟨.next hrule h.1, h.2⟩

def Grammar.Trims (g : Grammar) : Prop :=
  (∀ t u, g.blob t = some u → u <:+ t) ∧ ∀ t u, g.refwd t = some u → u <:+ t

theorem blobs_suffix (hg : g.Trims) (n : Nat) (t : Text) : g.blobs n t <:+ t := by
  induction n generalizing t with
  | zero => exact List.suffix_rfl
  | succ n ih =>
      rw [Grammar.blobs]
      cases h : g.blob t with
      | none => exact List.suffix_rfl
      | some u => exact (ih u).trans (hg.1 t u h)

theorem leader_suffix (hg : g.Trims) (h : g.leader t = some r) : r <:+ t :=
  (hg.2 _ r h).trans (blobs_suffix hg _ t)

theorem ruleFwd_part (h : ruleFwd t = some (b, r)) : r <:+: t := by
  rw [ruleFwd] at h
  split at h
  · cases h
    exact (List.drop_suffix 5 _).isInfix.trans (List.dropLast_prefix t).isInfix
  · cases h

theorem rule_part (hg : g.Trims) (h : rule g t = some (b, r)) : r <:+: t := by
  rw [rule] at h
  split at h
  · cases h
    exact (List.dropLast_prefix t).isInfix
  · split at h
    · cases h
      exact (List.take_prefix _ t).isInfix
    · split at h
      · cases h
        exact (List.tail_suffix t).isInfix
      · rw [ruleLeader] at h
        split at h
        · rename_i hleader
          cases h
          exact (leader_suffix hg hleader).isInfix
        · rw [ruleBlob] at h
          split at h
          · rename_i t' hblob
            split at h
            · cases h
              exact (hg.1 t r hblob).isInfix
            · exact ruleFwd_part h
          · exact ruleFwd_part h

theorem Steps.part (hg : g.Trims) (h : Steps g t m r) : r <:+: t := by
  induction h with
  | refl t => exact List.infix_rfl
  | next hrule hrest ih => exact ih.trans (rule_part hg hrule)

end General
end Cone.Imapsubj
