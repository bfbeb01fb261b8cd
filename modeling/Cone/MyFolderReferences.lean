import Mathlib.Data.List.AList
import Cone.Ctype

/-! # References and watched conversations

What two callbacks of cone/myfolder.C put into a message's index entry from its headers: its
references, and how far it still is inside a conversation that is on the watch list
(cone/myreferences.C).  The ids on the list are Message-ID headers as they came, with their
angle brackets; so are the ones a References list is looked up by. -/
set_option autoImplicit false
namespace Cone.MyFolderReferences

open Cone.Ctype

abbrev Text := List UInt8

section WatchList

structure WatchInfo where
  expires : Int
  depth : Nat
  deriving DecidableEq, Repr

/-- `*id.c_str() == 0` -/
def blank (id : Text) : Bool := id.headD NUL = NUL

structure Watch where
  watchList : AList fun _ : Text => WatchInfo
  named : ∀ id ∈ watchList, blank id = false

def Watch.empty : Watch := ⟨∅, fun id mem => absurd mem (AList.notMem_empty id)⟩

theorem named_insert {w : Watch} {id : Text} (h : blank id = false) (info : WatchInfo) :
    ∀ id' ∈ w.watchList.insert id info, blank id' = false := by
  intro id' mem
  rcases (AList.mem_insert _).1 mem with rfl | mem
  · exact h
  · exact w.named id' mem

/-- `Watch::operator()` -/
def Watch.watch (w : Watch) (id : Text) (t : Int) (s : Nat) : Watch :=
  if h : blank id = false then ⟨w.watchList.insert id ⟨t, s⟩, named_insert h _⟩
  else w -- Don't watch a blank msgid!

def Watch.watching (w : Watch) (id : Text) : Option WatchInfo := w.watchList.lookup id

theorem watching_blank {id : Text} (h : blank id = true) (w : Watch) : w.watching id = none := by
  rw [Watch.watching, AList.lookup_eq_none]
  intro mem
  rw [w.named id mem] at h
  cases h

theorem watching_nil (w : Watch) : w.watching [] = none := watching_blank rfl w

theorem watching_watch (w : Watch) {id : Text} (h : blank id = false) (t : Int) (s : Nat) :
    (w.watch id t s).watching id = some ⟨t, s⟩ := by
  rw [Watch.watch, dif_pos h]
  exact AList.lookup_insert _

theorem watching_watch_of_ne (w : Watch) {id id' : Text} (h : id' ≠ id) (t : Int) (s : Nat) :
    (w.watch id t s).watching id' = w.watching id' := by
  rw [Watch.watch]
  by_cases hb : blank id = false
  · rw [dif_pos hb]
    exact AList.lookup_insert_ne h
  · rw [dif_neg hb]

end WatchList

section Callbacks

structure Index where
  messageDate : Int
  messageid : Text
  references : List Text
  watchLevel : Nat
  expires : Int
  deriving DecidableEq, Repr

structure Folder where
  serverIndex : List Index
  watchList : Watch

/-- What the callbacks read of an envelope; the subject and the addresses are not used here. -/
structure Envelope where
  date : Int
  inreplyto : Text
  messageid : Text
  references : List Text
  deriving DecidableEq, Repr

/-- `watching(id, i.expires, i.watchLevel)` found an entry. -/
def Index.watched (i : Index) (info : WatchInfo) : Index :=
  { i with expires := info.expires, watchLevel := info.depth }

def Index.checkwatch (i : Index) (w : Watch) : Index :=
  if i.watchLevel = 0 then
    match w.watching i.messageid with
    | some info => i.watched info
    | none => i
  else i

/-- The id without its angle brackets. -/
def bare (rb : Text) : Text :=
  let s := if rb.head? = some (byte '<') then rb.tail else rb
  if s.getLast? = some (byte '>') then s.dropLast else s

def Index.further (i : Index) : Index :=
  if i.watchLevel > 0 then
    { i with
      watchLevel := i.watchLevel - 1
      expires := if i.watchLevel - 1 = 0 then 0 else i.expires }
  else i

def reference (w : Watch) (i : Index) (rb : Text) : Index :=
  let i := { i with references := i.references ++ [bare rb] }
  match w.watching rb with
  | some info => i.watched info
  | none => i.further

def updateReferences (w : Watch) (i : Index) (references : List Text) : Watch × Index :=
  let i := references.foldl (reference w) { i with references := [], watchLevel := 0, expires := 0 }
  if i.messageid ≠ [] then -- Already seen env
    if i.watchLevel > 0 then
      let i := { i with watchLevel := i.watchLevel - 1 }
      let w := w.watch i.messageid i.expires i.watchLevel
      (w, i.checkwatch w)
    else (w, i.checkwatch w)
  else (w, i)

/-- What is taken from an In-Reply-To header; `substr(0, n-1)` of an `n` of 0 is all of it. -/
def inReplyTo (inreplyto : Text) : Text :=
  let s := match inreplyto.idxOf? (byte '<') with
    | some n => if n = 0 then inreplyto else inreplyto.take (n - 1)
    | none => inreplyto
  match s.idxOf? (byte '>') with
  | some n => s.drop (n + 1)
  | none => s

def envelopeReferences (w : Watch) (i : Index) (envelope : Envelope) : Watch × Index :=
  if envelope.references ≠ [] then updateReferences w i envelope.references else (w, i)

def envelopeInReplyTo (w : Watch) (i : Index) (envelope : Envelope) : Watch × Index :=
  if i.references = [] then updateReferences w i [inReplyTo envelope.inreplyto] else (w, i)

def updateEnvelope (w : Watch) (i : Index) (envelope : Envelope) : Watch × Index :=
  let i := { i with messageid := envelope.messageid, messageDate := envelope.date }
  let (w, i) := envelopeReferences w i envelope
  let (w, i) := envelopeInReplyTo w i envelope
  (w, i.checkwatch w)

def Folder.update (f : Folder) (messageNumber : Nat) (change : Watch → Index → Watch × Index) :
    Folder :=
  match f.serverIndex[messageNumber]? with
  | none => f
  | some i =>
    let (w, i) := change f.watchList i
    ⟨f.serverIndex.set messageNumber i, w⟩

def messageReferencesCallback (f : Folder) (messageNumber : Nat) (references : List Text) :
    Folder :=
  f.update messageNumber fun w i => updateReferences w i references

def messageEnvelopeCallback (f : Folder) (messageNumber : Nat) (envelope : Envelope) : Folder :=
  f.update messageNumber fun w i => updateEnvelope w i envelope

end Callbacks

section Level

def lastWatched (w : Watch) : List Text → Option (WatchInfo × Nat)
  | [] => none
  | rb :: rest => (lastWatched w rest).or ((w.watching rb).map (·, rest.length))

def inherited (w : Watch) (references : List Text) : Nat :=
  match lastWatched w references with
  | some (info, after) => info.depth - after
  | none => 0

def levelOf (w : Watch) (id : Text) (references : List Text) : Nat :=
  if inherited w references = 0 then ((w.watching id).map WatchInfo.depth).getD 0
  else if id = [] then inherited w references
  else inherited w references - 1

theorem watchLevel_further (i : Index) : i.further.watchLevel = i.watchLevel - 1 := by
  rw [Index.further]
  by_cases h : i.watchLevel > 0
  · rw [if_pos h]
  · rw [if_neg h]
    omega

theorem references_reference (w : Watch) (i : Index) (rb : Text) :
    (reference w i rb).references = i.references ++ [bare rb] := by
  simp only [reference, Index.watched, Index.further]
  cases w.watching rb with
  | some info => rfl
  | none => by_cases h : i.watchLevel > 0 <;> simp [h]

theorem messageid_reference (w : Watch) (i : Index) (rb : Text) :
    (reference w i rb).messageid = i.messageid := by
  simp only [reference, Index.watched, Index.further]
  cases w.watching rb with
  | some info => rfl
  | none => by_cases h : i.watchLevel > 0 <;> simp [h]

theorem watchLevel_reference (w : Watch) (i : Index) (rb : Text) :
    (reference w i rb).watchLevel =
      match w.watching rb with
      | some info => info.depth
      | none => i.watchLevel - 1 := by
  simp only [reference]
  cases w.watching rb with
  | some info => rfl
  | none => exact watchLevel_further _

theorem watchLevel_foldl (w : Watch) (references : List Text) (i : Index) :
    (references.foldl (reference w) i).watchLevel =
      match lastWatched w references with
      | some (info, after) => info.depth - after
      | none => i.watchLevel - references.length := by
  induction references generalizing i with
  | nil => rfl
  | cons rb rest ih =>
      rw [List.foldl_cons, ih, watchLevel_reference, lastWatched]
      cases lastWatched w rest with
      | some p => rfl
      | none =>
          cases w.watching rb with
          | some info => rfl
          | none =>
              show i.watchLevel - 1 - rest.length = i.watchLevel - (rest.length + 1)
              omega

theorem references_foldl (w : Watch) (references : List Text) (i : Index) :
    (references.foldl (reference w) i).references = i.references ++ references.map bare := by
  induction references generalizing i with
  | nil => simp
  | cons rb rest ih => rw [List.foldl_cons, ih, references_reference, List.map_cons,
      List.append_assoc, List.singleton_append]

theorem messageid_foldl (w : Watch) (references : List Text) (i : Index) :
    (references.foldl (reference w) i).messageid = i.messageid := by
  induction references generalizing i with
  | nil => rfl
  | cons rb rest ih => rw [List.foldl_cons, ih, messageid_reference]

theorem messageid_checkwatch (i : Index) (w : Watch) :
    (i.checkwatch w).messageid = i.messageid := by
  rw [Index.checkwatch]
  split
  · cases w.watching i.messageid <;> rfl
  · rfl

theorem references_checkwatch (i : Index) (w : Watch) :
    (i.checkwatch w).references = i.references := by
  rw [Index.checkwatch]
  split
  · cases w.watching i.messageid <;> rfl
  · rfl

theorem watchLevel_checkwatch (i : Index) (w : Watch) :
    (i.checkwatch w).watchLevel =
      if i.watchLevel = 0 then ((w.watching i.messageid).map WatchInfo.depth).getD 0
      else i.watchLevel := by
  rw [Index.checkwatch]
  split
  · next h =>
      cases w.watching i.messageid with
      | some info => rfl
      | none => exact h
  · rfl

theorem watchLevel_checkwatch_twice (i : Index) (w : Watch) :
    ((i.checkwatch w).checkwatch w).watchLevel = (i.checkwatch w).watchLevel := by
  rw [watchLevel_checkwatch, messageid_checkwatch, watchLevel_checkwatch]
  by_cases h : i.watchLevel = 0
  · rw [if_pos h, ite_eq_right_iff]
    exact fun _ => rfl
  · rw [if_neg h, if_neg h]

end Level

section Callback

def looped (w : Watch) (i : Index) (references : List Text) : Index :=
  references.foldl (reference w) { i with references := [], watchLevel := 0, expires := 0 }

variable (w : Watch) (i : Index) (references : List Text)

theorem watchLevel_looped : (looped w i references).watchLevel = inherited w references := by
  rw [looped, watchLevel_foldl, inherited]
  cases lastWatched w references with
  | some p => rfl
  | none => exact Nat.zero_sub _

theorem references_looped : (looped w i references).references = references.map bare := by
  rw [looped, references_foldl]
  rfl

theorem messageid_looped : (looped w i references).messageid = i.messageid :=
  messageid_foldl w references _

theorem updateReferences_eq :
    updateReferences w i references =
      if i.messageid = [] then (w, looped w i references)
      else if inherited w references = 0 then (w, (looped w i references).checkwatch w)
      else
        let j := { looped w i references with watchLevel := inherited w references - 1 }
        let w := w.watch i.messageid j.expires j.watchLevel
        (w, j.checkwatch w) := by
  have hid := messageid_looped w i references
  have hlevel := watchLevel_looped w i references
  rw [looped] at hid hlevel
  rw [updateReferences, looped]
  simp only [hid, hlevel, ne_eq, gt_iff_lt]
  by_cases h : i.messageid = []
  · rw [if_neg (not_not.2 h), if_pos h]
  · rw [if_pos h, if_neg h]
    by_cases h0 : inherited w references = 0
    · rw [if_neg (by omega), if_pos h0]
    · rw [if_pos (by omega), if_neg h0]

theorem messageid_updateReferences :
    (updateReferences w i references).2.messageid = i.messageid := by
  rw [updateReferences_eq]
  split
  · exact messageid_looped w i references
  · split
    · rw [messageid_checkwatch]
      exact messageid_looped w i references
    · rw [messageid_checkwatch]
      exact messageid_looped w i references

theorem references_updateReferences :
    (updateReferences w i references).2.references = references.map bare := by
  rw [updateReferences_eq]
  split
  · exact references_looped w i references
  · split
    · rw [references_checkwatch]
      exact references_looped w i references
    · rw [references_checkwatch]
      exact references_looped w i references

theorem watchLevel_updateReferences :
    (updateReferences w i references).2.watchLevel = levelOf w i.messageid references := by
  rw [updateReferences_eq, levelOf]
  by_cases h : i.messageid = []
  · rw [if_pos h, if_pos h, h, watching_nil, watchLevel_looped]
    split
    · next h0 => exact h0
    · rfl
  · rw [if_neg h, if_neg h]
    by_cases h0 : inherited w references = 0
    · rw [if_pos h0, if_pos h0, watchLevel_checkwatch, messageid_looped, watchLevel_looped,
        if_pos h0]
    · rw [if_neg h0, if_neg h0, watchLevel_checkwatch]
      simp only [messageid_looped]
      split
      · next h1 =>
          -- the entry just made says 0 too; a blank id has none
          by_cases hb : blank i.messageid = false
          · rw [watching_watch _ hb]
            rfl
          · rw [watching_blank (by simpa using hb), h1]
            rfl
      · rfl

/-- The only entry that is made is the message's own, under the id as it came. -/
theorem watching_updateReferences {id : Text} (h : id ≠ i.messageid) :
    (updateReferences w i references).1.watching id = w.watching id := by
  rw [updateReferences_eq]
  split
  · rfl
  · split
    · rfl
    · exact watching_watch_of_ne w h _ _

theorem watching_own (hb : blank i.messageid = false) (h0 : inherited w references ≠ 0) :
    ((updateReferences w i references).1.watching i.messageid).map WatchInfo.depth =
      some (inherited w references - 1) := by
  have h : i.messageid ≠ [] := by
    intro h
    rw [h] at hb
    cases hb
  rw [updateReferences_eq, if_neg h, if_neg h0, watching_watch w hb]
  rfl

/-- Once the envelope has been seen the entry agrees with the list. -/
theorem checkwatch_updateReferences :
    let r := updateReferences w i references
    (r.2.checkwatch r.1).watchLevel = r.2.watchLevel := by
  simp only
  rw [updateReferences_eq]
  split
  · next h =>
      rw [watchLevel_checkwatch, messageid_looped, h, watching_nil]
      split
      · next h0 => rw [h0]; rfl
      · rfl
  · split
    · exact watchLevel_checkwatch_twice _ _
    · exact watchLevel_checkwatch_twice _ _

theorem watching_kept {id : Text} (h0 : inherited w references = 0) :
    (updateReferences w i references).1.watching id = w.watching id := by
  rw [updateReferences_eq, if_pos h0]
  split <;> rfl

theorem messageid_updateEnvelope (envelope : Envelope) :
    (updateEnvelope w i envelope).2.messageid = envelope.messageid := by
  simp only [updateEnvelope, messageid_checkwatch, envelopeReferences, envelopeInReplyTo]
  split <;> split <;> simp only [messageid_updateReferences]

theorem updateEnvelope_of_references {envelope : Envelope} (h : envelope.references ≠ []) :
    let i := { i with messageid := envelope.messageid, messageDate := envelope.date }
    updateEnvelope w i envelope =
      ((updateReferences w i envelope.references).1,
        (updateReferences w i envelope.references).2.checkwatch
          (updateReferences w i envelope.references).1) := by
  intro i
  have hrefs := references_updateReferences w i envelope.references
  have hsome : (updateReferences w i envelope.references).2.references ≠ [] := by
    rw [hrefs]
    simpa using h
  show updateEnvelope w i envelope = _
  simp only [updateEnvelope, envelopeReferences]
  rw [if_pos h, envelopeInReplyTo, if_neg hsome]

end Callback

section Folders

theorem getElem?_update {f : Folder} {n : Nat} {i : Index} (here : f.serverIndex[n]? = some i)
    (change : Watch → Index → Watch × Index) :
    (f.update n change).serverIndex[n]? = some (change f.watchList i).2 := by
  rw [Folder.update, here]
  exact List.getElem?_set_self (List.getElem?_eq_some_iff.1 here).1

theorem watchList_update {f : Folder} {n : Nat} {i : Index} (here : f.serverIndex[n]? = some i)
    (change : Watch → Index → Watch × Index) :
    (f.update n change).watchList = (change f.watchList i).1 := by
  rw [Folder.update, here]

structure Referenced (f f' : Folder) (n : Nat) (id : Text) (references : List Text) : Prop where
  entry : ∃ i, f'.serverIndex[n]? = some i ∧ i.messageid = id ∧
    i.references = references.map bare ∧ i.watchLevel = levelOf f.watchList id references
  entered : blank id = false → inherited f.watchList references ≠ 0 →
    (f'.watchList.watching id).map WatchInfo.depth = some (inherited f.watchList references - 1)
  kept : ∀ id', id' ≠ id ∨ inherited f.watchList references = 0 →
    f'.watchList.watching id' = f.watchList.watching id'

theorem referenced_update {f : Folder} {n : Nat} {i : Index} (here : f.serverIndex[n]? = some i)
    (references : List Text) :
    Referenced f (messageReferencesCallback f n references) n i.messageid references where
  entry := ⟨_, getElem?_update here _, messageid_updateReferences _ i references,
    references_updateReferences _ i references, watchLevel_updateReferences _ i references⟩
  entered := by
    rw [messageReferencesCallback, watchList_update here]
    exact watching_own _ i references
  kept := by
    rw [messageReferencesCallback, watchList_update here]
    rintro id' (h | h)
    · exact watching_updateReferences _ i references h
    · exact watching_kept _ i references h

theorem referenced_envelope {f : Folder} {n : Nat} {i : Index} (here : f.serverIndex[n]? = some i)
    {envelope : Envelope} (h : envelope.references ≠ []) :
    Referenced f (messageEnvelopeCallback f n envelope) n envelope.messageid
      envelope.references := by
  let j := { i with messageid := envelope.messageid, messageDate := envelope.date }
  have heq : updateEnvelope f.watchList i envelope = _ :=
    updateEnvelope_of_references f.watchList i h
  refine ⟨⟨_, getElem?_update here _, ?_, ?_, ?_⟩, ?_, ?_⟩
  · exact messageid_updateEnvelope _ i envelope
  · rw [heq, references_checkwatch, references_updateReferences]
  · rw [heq, checkwatch_updateReferences, watchLevel_updateReferences]
  · rw [messageEnvelopeCallback, watchList_update here, heq]
    exact watching_own f.watchList j envelope.references
  · rw [messageEnvelopeCallback, watchList_update here, heq]
    rintro id' (h | h)
    · exact watching_updateReferences f.watchList j envelope.references h
    · exact watching_kept f.watchList j envelope.references h

theorem references_watched (f : Folder) {n : Nat} (here : n < f.serverIndex.length)
    (envelope : Envelope) {references : List Text} (some' : references ≠ []) :
    let seen := messageEnvelopeCallback f n envelope
    let listed := messageReferencesCallback f n references
    (envelope.references ≠ [] → Referenced f seen n envelope.messageid envelope.references) ∧
    Referenced seen (messageReferencesCallback seen n references) n envelope.messageid references ∧
    (envelope.references ≠ [] →
      Referenced listed (messageEnvelopeCallback listed n envelope) n envelope.messageid
        envelope.references) ∧
    (envelope.references = [] →
      ∃ i, (messageEnvelopeCallback listed n envelope).serverIndex[n]? = some i ∧
        i.messageid = envelope.messageid ∧ i.references = references.map bare) := by
  have hi : f.serverIndex[n]? = some f.serverIndex[n] := List.getElem?_eq_getElem here
  have hseen := getElem?_update hi fun w i => updateEnvelope w i envelope
  have hlisted := getElem?_update hi fun w i => updateReferences w i references
  refine ⟨referenced_envelope hi, ?_, referenced_envelope hlisted, fun none' => ?_⟩
  · have h := referenced_update hseen references
    rwa [messageid_updateEnvelope] at h
  · refine ⟨_, getElem?_update hlisted _, messageid_updateEnvelope _ _ envelope, ?_⟩
    have hrefs := references_updateReferences f.watchList f.serverIndex[n] references
    simp only [updateEnvelope, envelopeReferences, none', ne_eq, not_true_eq_false, if_false]
    rw [references_checkwatch, envelopeInReplyTo, if_neg (by rw [hrefs]; simpa using some'), hrefs]

/-- A message that is on no list yet. -/
def fresh : Index := ⟨0, [], [], 0, 0⟩

def watchedFolder : Folder := ⟨[fresh], Watch.empty.watch (str "<a@b>") 9 5⟩

theorem references_watched_sample :
    let envelope : Envelope := ⟨1, [], str "<c@d>", [str "<a@b>"]⟩
    Referenced watchedFolder (messageEnvelopeCallback watchedFolder 0 envelope) 0 (str "<c@d>")
      [str "<a@b>"] :=
  (@references_watched watchedFolder 0 (by decide) ⟨1, [], str "<c@d>", [str "<a@b>"]⟩
    [str "<a@b>"] (by decide)).1 (by decide)

/-- The list is read and entered by ids with their brackets; a message that inherits nothing
keeps the level of its own entry; an In-Reply-To of one id is stored as the empty id; and after
an earlier References list the envelope does not count the message itself. -/
theorem references_not_watched :
    let envelope : Envelope := ⟨1, [], str "<c@d>", [str "<a@b>"]⟩
    let seen := messageEnvelopeCallback watchedFolder 0 envelope
    let entry := fun f : Folder => f.serverIndex.map fun i => (i.references, i.watchLevel)
    entry seen = [([str "a@b"], 4)] ∧
      watchedFolder.watchList.watching (str "a@b") = none ∧
      seen.watchList.watching (str "<c@d>") = some ⟨9, 4⟩ ∧
      seen.watchList.watching (str "c@d") = none ∧
      entry (messageEnvelopeCallback watchedFolder 0 ⟨1, [], str "<a@b>", [str "<e@f>"]⟩) =
        [([str "e@f"], 5)] ∧
      entry (messageEnvelopeCallback watchedFolder 0 ⟨1, str "<a@b>", str "<c@d>", []⟩) =
        [([[]], 0)] ∧
      entry (messageEnvelopeCallback (messageReferencesCallback watchedFolder 0 [str "<a@b>"]) 0
        ⟨1, [], str "<c@d>", []⟩) = [([str "a@b"], 5)] := by
  decide

end Folders
end Cone.MyFolderReferences
