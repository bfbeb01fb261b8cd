import Mathlib.Data.List.Basic
import Mathlib.Data.List.Range
import Mathlib.Data.List.Perm.Basic

/-! # The threaded order of a folder

`thread::resort` of cone/myfolder.C: a tree of messages and dummies is laid out on the screen, each
message with its level and with the vertical lines that are drawn in front of it.  The tree itself
comes from rfc822_thread. -/
set_option autoImplicit false
namespace Cone.MyFolderThread

section Layout

inductive Forest where
  | nil
  | node (isdummy : Bool) (seqnum : Nat) (firstchild nextsib : Forest)

/-- A message that has been seen. -/
structure Refmsg where
  seqnum : Nat
  firstchild : Forest

structure Index where
  threadLevel : Nat
  active_threads : List Nat
  deriving DecidableEq, Repr

structure Layout where
  serverIndex : List Index
  sorted_index : List Nat
  active_threads : List Nat
  deriving DecidableEq, Repr

def MAXTHREADLEVEL : Nat := 10

abbrev Visit := Refmsg → Layout → Option Layout

def visitLast (visit : Visit) (lastPtr : Option Refmsg) (f : Layout) : Option Layout :=
  match lastPtr with
  | some last => visit last f
  | none => some f

/-- The first `resort_layout`, for a node and its later siblings: a node is visited when the next
one is seen.  `flat` is for `threadLevel` at `MAXTHREADLEVEL`. -/
def spread (visit : Visit) (flat : Bool) :
    Forest → Option Refmsg → Layout → Option (Option Refmsg × Layout)
  | .nil, lastPtr, f => some (lastPtr, f)
  | .node true _ firstchild nextsib, lastPtr, f =>
    (spread visit flat firstchild lastPtr f).bind fun x => spread visit flat nextsib x.1 x.2
  | .node false seqnum firstchild nextsib, lastPtr, f =>
    (visitLast visit lastPtr f).bind fun f =>
      if flat then
        (spread visit flat firstchild (some ⟨seqnum, firstchild⟩) f).bind fun x =>
          spread visit flat nextsib x.1 x.2
      else spread visit flat nextsib (some ⟨seqnum, firstchild⟩) f

def Layout.enter (threadLevel seqnum : Nat) (f : Layout) : Option Layout :=
  if seqnum < f.serverIndex.length then
    some { f with
      serverIndex := f.serverIndex.set seqnum ⟨threadLevel, f.active_threads⟩
      sorted_index := f.sorted_index ++ [seqnum] }
  else none

/-- Nothing is popped off an empty vector. -/
def Layout.pop_back (f : Layout) : Option Layout :=
  if f.active_threads = [] then none
  else some { f with active_threads := f.active_threads.dropLast }

def Layout.push_back (threadLevel : Nat) (f : Layout) : Layout :=
  { f with active_threads := f.active_threads ++ [threadLevel] }

/-- What the second `resort_layout` does before the children. -/
def Layout.start (threadLevel : Nat) (popLast : Bool) (seqnum : Nat) (f : Layout) :
    Option Layout :=
  ((f.enter threadLevel seqnum).bind fun f => if popLast then f.pop_back else some f).map
    (Layout.push_back threadLevel)

/-- The second `resort_layout`; `threadLevel` is `left` levels below `MAXTHREADLEVEL`. -/
def visit : Nat → Bool → Visit
  | 0, popLast, node, f => (f.start MAXTHREADLEVEL popLast node.seqnum).bind Layout.pop_back
  | left + 1, popLast, node, f =>
    (f.start (MAXTHREADLEVEL - (left + 1)) popLast node.seqnum).bind fun f =>
      (spread (visit left false) (left = 0) node.firstchild none f).bind fun x =>
        match x.1 with
        | some last => visit left true last x.2
        | none => x.2.pop_back

def resort (f : Layout) (root : Forest) : Option Layout :=
  let f := { f with sorted_index := [], active_threads := [] }
  (spread (visit MAXTHREADLEVEL false) false root none f).bind fun x =>
    visitLast (visit MAXTHREADLEVEL false) x.1 x.2

end Layout

section Screen

/-- The messages of the tree, each before what is below it. -/
def preorder : Forest → List Nat
  | .nil => []
  | .node true _ firstchild nextsib => preorder firstchild ++ preorder nextsib
  | .node false seqnum firstchild nextsib => seqnum :: (preorder firstchild ++ preorder nextsib)

/-- Each message with the number of messages it is below. -/
def depths (d : Nat) : Forest → List (Nat × Nat)
  | .nil => []
  | .node true _ firstchild nextsib => depths d firstchild ++ depths d nextsib
  | .node false seqnum firstchild nextsib =>
    (seqnum, d) :: (depths (d + 1) firstchild ++ depths d nextsib)

/-- The messages that are siblings on the screen, where dummies are not shown and, with `flat`,
what is below a message is shown next to it. -/
def row (flat : Bool) : Forest → List Refmsg
  | .nil => []
  | .node true _ firstchild nextsib => row flat firstchild ++ row flat nextsib
  | .node false seqnum firstchild nextsib =>
    ⟨seqnum, firstchild⟩ :: ((if flat then row flat firstchild else []) ++ row flat nextsib)

def withLater {α : Type} : List α → List (α × Bool)
  | [] => []
  | [a] => [(a, false)]
  | a :: b :: l => (a, true) :: withLater (b :: l)

/-- A message on the screen behind the messages it is shown below, from the top: the number of
each, with whether it has a later sibling. -/
abbrev Path := List (Nat × Bool)

def Path.seqnum (p : Path) : Nat := (p.getLast?.map Prod.fst).getD 0

def Path.level (p : Path) : Nat := p.length - 1

def Path.later (p : Path) (l : Nat) : Bool := (p[l]?.map Prod.snd).getD false

def paths : Nat → Path → Refmsg × Bool → List Path
  | 0, above, x => [above ++ [(x.1.seqnum, x.2)]]
  | left + 1, above, x =>
    (above ++ [(x.1.seqnum, x.2)]) :: (withLater (row (left = 0) x.1.firstchild)).flatMap
      (paths left (above ++ [(x.1.seqnum, x.2)]))

def screen (root : Forest) : List Path :=
  (withLater (row false root)).flatMap (paths MAXTHREADLEVEL [])

def lines (above : Path) : List Nat :=
  (List.range above.length).filter fun l => decide (l + 1 = above.length) || above.later (l + 1)

end Screen

section Delayed
variable {visit : Visit} {flat : Bool}

theorem dropLast_append_split (a b : List Refmsg) :
    (a ++ b).dropLast = a.dropLast ++ (a.getLast?.toList ++ b).dropLast := by
  induction a using List.reverseRecOn with
  | nil => rfl
  | append_singleton a x =>
      rw [List.dropLast_concat, List.getLast?_concat, List.append_assoc,
        List.dropLast_append_of_ne_nil (by simp)]
      rfl

theorem getLast?_append_split (a b : List Refmsg) :
    (a ++ b).getLast? = (a.getLast?.toList ++ b).getLast? := by
  induction a using List.reverseRecOn with
  | nil => rfl
  | append_singleton a x =>
      rw [List.getLast?_concat, List.append_assoc, List.getLast?_append_of_ne_nil _ (by simp)]
      rfl

def visitAll (visit : Visit) (l : List Refmsg) (f : Layout) : Option Layout :=
  l.foldlM (fun f m => visit m f) f

theorem visitAll_append (l l' : List Refmsg) (f : Layout) :
    visitAll visit (l ++ l') f = (visitAll visit l f).bind (visitAll visit l') :=
  List.foldlM_append

theorem visitAll_singleton (m : Refmsg) (f : Layout) : visitAll visit [m] f = visit m f :=
  bind_pure (visit m f)

theorem visitLast_eq (lastPtr : Option Refmsg) (f : Layout) :
    visitLast visit lastPtr f = visitAll visit lastPtr.toList f := by
  cases lastPtr with
  | none => rfl
  | some last => exact (visitAll_singleton last f).symm

def spreadRow (visit : Visit) (l : List Refmsg) (f : Layout) : Option (Option Refmsg × Layout) :=
  (visitAll visit l.dropLast f).map fun f => (l.getLast?, f)

theorem spreadRow_append (a b : List Refmsg) (f : Layout) :
    (spreadRow visit a f).bind (fun x => spreadRow visit (x.1.toList ++ b) x.2) =
      spreadRow visit (a ++ b) f := by
  rw [spreadRow, spreadRow, dropLast_append_split, getLast?_append_split, visitAll_append]
  cases visitAll visit a.dropLast f with
  | none => rfl
  | some f => rfl

theorem spread_eq (forest : Forest) (lastPtr : Option Refmsg) (f : Layout) :
    spread visit flat forest lastPtr f = spreadRow visit (lastPtr.toList ++ row flat forest) f := by
  induction forest generalizing lastPtr f with
  | nil =>
      rw [spread, row, List.append_nil]
      cases lastPtr <;> rfl
  | node isdummy seqnum firstchild nextsib ihc ihs =>
      have hrest : (fun x : Option Refmsg × Layout => spread visit flat nextsib x.1 x.2) =
          fun x => spreadRow visit (x.1.toList ++ row flat nextsib) x.2 :=
        funext fun x => ihs x.1 x.2
      cases isdummy with
      | true => rw [spread, row, ihc, hrest, spreadRow_append, List.append_assoc]
      | false =>
          rw [spread, row, visitLast_eq, spreadRow,
            List.dropLast_append_of_ne_nil (List.cons_ne_nil _ _),
            List.getLast?_append_of_ne_nil _ (List.cons_ne_nil _ _), visitAll_append]
          cases visitAll visit lastPtr.toList f with
          | none => rfl
          | some f =>
              cases flat with
              | true =>
                  simp only [Option.bind_some, if_true]
                  rw [ihc, hrest, spreadRow_append]
                  rfl
              | false =>
                  simp only [Option.bind_some, if_false, Bool.false_eq_true, List.nil_append]
                  exact ihs _ f

end Delayed
section Rows
variable {α : Type}

theorem withLater_concat (l : List α) (a : α) :
    withLater (l ++ [a]) = l.map (·, true) ++ [(a, false)] := by
  induction l with
  | nil => rfl
  | cons b l ih =>
      cases l with
      | nil => rfl
      | cons c l => rw [List.cons_append, List.cons_append, withLater, ← List.cons_append, ih]; rfl

theorem map_fst_withLater (l : List α) : (withLater l).map Prod.fst = l := by
  induction l using List.reverseRecOn with
  | nil => rfl
  | append_singleton l a =>
      rw [withLater_concat, List.map_append, List.map_map]
      exact congrArg (· ++ [a]) (List.map_id l)

end Rows

section Lines

def linesAbove (above : Path) : List Nat :=
  (List.range (above.length - 1)).filter fun l => above.later (l + 1)

theorem lines_eq (above : Path) :
    lines above = linesAbove above ++ if above = [] then [] else [above.length - 1] := by
  by_cases h : above = []
  · rw [if_pos h, h]
    rfl
  · have hpos : 0 < above.length := List.length_pos_of_ne_nil h
    obtain ⟨n, hn⟩ : ∃ n, above.length = n + 1 := ⟨above.length - 1, by omega⟩
    rw [if_neg h, lines, linesAbove, hn, List.range_succ, List.filter_append]
    congr 1
    · refine List.filter_congr fun l hl => ?_
      have hlt := List.mem_range.1 hl
      rw [decide_eq_false (by omega), Bool.false_or]
    · simp

theorem later_append {above : Path} {l : Nat} (h : l < above.length) (x : Nat × Bool) :
    Path.later (above ++ [x]) l = above.later l := by
  rw [Path.later, Path.later, List.getElem?_append_left h]

theorem later_length (above : Path) (x : Nat × Bool) :
    Path.later (above ++ [x]) above.length = x.2 := by
  rw [Path.later, List.getElem?_concat_length]
  rfl

theorem linesAbove_concat (above : Path) (x : Nat × Bool) :
    linesAbove (above ++ [x]) = if x.2 then lines above else linesAbove above := by
  by_cases h : above = []
  · rw [h]
    split <;> rfl
  · have hpos : 0 < above.length := List.length_pos_of_ne_nil h
    obtain ⟨n, hn⟩ : ∃ n, above.length = n + 1 := ⟨above.length - 1, by omega⟩
    rw [lines_eq, if_neg h, linesAbove, linesAbove, List.length_append, List.length_singleton, hn,
      Nat.add_sub_cancel, Nat.add_sub_cancel, List.range_succ, List.filter_append]
    have hlast : Path.later (above ++ [x]) (n + 1) = x.2 := hn ▸ later_length above x
    have hinit : (List.range n).filter (fun l => Path.later (above ++ [x]) (l + 1)) =
        (List.range n).filter fun l => above.later (l + 1) := by
      refine List.filter_congr fun l hl => ?_
      have hlt := List.mem_range.1 hl
      exact later_append (by omega) x
    rw [hinit, List.filter_singleton, hlast]
    cases x.2 with
    | true => rfl
    | false => exact List.append_nil _

theorem lines_concat (above : Path) (x : Nat × Bool) :
    lines (above ++ [x]) = (if x.2 then lines above else linesAbove above) ++ [above.length] := by
  have hne : above ++ [x] ≠ [] := by simp
  rw [lines_eq, if_neg hne, linesAbove_concat, List.length_append, List.length_singleton,
    Nat.add_sub_cancel]

theorem dropLast_lines {above : Path} (h : above ≠ []) :
    (lines above).dropLast = linesAbove above := by
  rw [lines_eq, if_neg h, List.dropLast_concat]

theorem lines_ne_nil {above : Path} (h : above ≠ []) : lines above ≠ [] := by
  rw [lines_eq, if_neg h]
  simp

end Lines

section Visits

def entryOf (p : Path) : Index := ⟨p.level, lines p.dropLast⟩

def store (serverIndex : List Index) (ps : List Path) : List Index :=
  ps.foldl (fun s p => s.set p.seqnum (entryOf p)) serverIndex

theorem length_store (serverIndex : List Index) (ps : List Path) :
    (store serverIndex ps).length = serverIndex.length := by
  induction ps generalizing serverIndex with
  | nil => rfl
  | cons p ps ih =>
      rw [store, List.foldl_cons, ← store, ih]
      exact List.length_set

def Layout.shown (f : Layout) (ps : List Path) : Layout :=
  ⟨store f.serverIndex ps, f.sorted_index ++ ps.map Path.seqnum, f.active_threads⟩

theorem shown_append (f : Layout) (ps qs : List Path) :
    f.shown (ps ++ qs) = (f.shown ps).shown qs := by
  simp only [Layout.shown, store, List.foldl_append, List.map_append, List.append_assoc]

theorem seqnum_concat (above : Path) (x : Nat × Bool) : Path.seqnum (above ++ [x]) = x.1 := by
  rw [Path.seqnum, List.getLast?_concat]
  rfl

theorem level_concat (above : Path) (x : Nat × Bool) :
    Path.level (above ++ [x]) = above.length := by
  rw [Path.level, List.length_append]
  rfl

def Known (f : Layout) (ps : List Path) : Prop := ∀ p ∈ ps, p.seqnum < f.serverIndex.length

theorem Known.shown {f : Layout} {ps : List Path} (h : Known f ps) (qs : List Path) :
    Known (f.shown qs) ps := fun p mem => by
  rw [Layout.shown, length_store]
  exact h p mem

def Layout.withActive (f : Layout) (active : List Nat) : Layout :=
  { f with active_threads := active }

theorem start_spec {above : Path} {x : Refmsg × Bool} {f : Layout} {popLast : Bool}
    (hpop : popLast = true ↔ above ≠ [] ∧ x.2 = false) (hactive : f.active_threads = lines above)
    (hknown : x.1.seqnum < f.serverIndex.length) :
    f.start above.length popLast x.1.seqnum =
      some ((f.shown [above ++ [(x.1.seqnum, x.2)]]).withActive
        (lines (above ++ [(x.1.seqnum, x.2)]))) := by
  have hentry : entryOf (above ++ [(x.1.seqnum, x.2)]) = ⟨above.length, f.active_threads⟩ := by
    rw [entryOf, level_concat, List.dropLast_concat, hactive]
  have hshown : f.enter above.length x.1.seqnum =
      some (f.shown [above ++ [(x.1.seqnum, x.2)]]) := by
    rw [Layout.enter, if_pos hknown, Layout.shown, store, List.foldl_cons, List.foldl_nil, hentry,
      seqnum_concat]
    simp only [List.map_cons, List.map_nil, seqnum_concat]
  rw [Layout.start, hshown, lines_concat]
  cases popLast with
  | true =>
      obtain ⟨hne, hlater⟩ := hpop.1 rfl
      have hactive' : (f.shown [above ++ [(x.1.seqnum, x.2)]]).active_threads = lines above :=
        hactive
      simp only [Option.bind_some, if_true]
      rw [Layout.pop_back, hactive', if_neg (lines_ne_nil hne), dropLast_lines hne, hlater]
      rfl
  | false =>
      have hline : (if x.2 = true then lines above else linesAbove above) = lines above := by
        by_cases hlater : x.2 = true
        · rw [if_pos hlater]
        · have hnil : above = [] := by
            by_contra hne
            exact absurd (hpop.2 ⟨hne, by simpa using hlater⟩) (by simp)
          rw [if_neg hlater, hnil]
          rfl
      rw [hline]
      simp only [Option.bind_some, Bool.false_eq_true, if_false, Option.map_some]
      rw [Layout.push_back, Layout.withActive]
      exact congrArg _ (congrArg _ (congrArg (· ++ [above.length]) hactive))

theorem pop_back_spec {f : Layout} {here : Path} (h : here ≠ [])
    (hactive : f.active_threads = lines here) :
    f.pop_back = some (f.withActive (linesAbove here)) := by
  rw [Layout.pop_back, hactive, if_neg (lines_ne_nil h), dropLast_lines h]
  rfl

theorem visitAll_spec {left : Nat} {here : Path} {l : List (Refmsg × Bool)}
    (each : ∀ x ∈ l, ∀ f : Layout, f.active_threads = lines here → Known f (paths left here x) →
      visit left false x.1 f = some (f.shown (paths left here x))) {f : Layout}
    (hactive : f.active_threads = lines here) (hknown : Known f (l.flatMap (paths left here))) :
    visitAll (visit left false) (l.map Prod.fst) f =
      some (f.shown (l.flatMap (paths left here))) := by
  induction l generalizing f with
  | nil =>
      show some f = _
      rw [List.flatMap_nil, Layout.shown, List.map_nil, List.append_nil]
      rfl
  | cons x l ih =>
      have hx : Known f (paths left here x) :=
        fun p mem => hknown p (List.mem_flatMap_of_mem List.mem_cons_self mem)
      have hl : Known f (l.flatMap (paths left here)) := fun p mem => by
        rw [List.flatMap_cons] at hknown
        exact hknown p (List.mem_append_right _ mem)
      have hrest := ih (fun y mem => each y (List.mem_cons_of_mem _ mem))
        (f := f.shown (paths left here x)) hactive (hl.shown _)
      rw [List.map_cons, List.flatMap_cons, shown_append, ← hrest, visitAll, List.foldlM_cons,
        each x List.mem_cons_self f hactive hx]
      rfl

theorem children_spec {left : Nat} {here : Path} {l : List Refmsg} {f : Layout} (hne : here ≠ [])
    (one : ∀ (x : Refmsg × Bool) (f : Layout), f.active_threads = lines here →
      Known f (paths left here x) → visit left (!x.2) x.1 f =
        some ((f.shown (paths left here x)).withActive
          (if x.2 then lines here else linesAbove here)))
    (hactive : f.active_threads = lines here)
    (hknown : Known f ((withLater l).flatMap (paths left here))) :
    ((spreadRow (visit left false) l f).bind fun x =>
      match x.1 with
      | some last => visit left true last x.2
      | none => x.2.pop_back) =
      some ((f.shown ((withLater l).flatMap (paths left here))).withActive (linesAbove here)) := by
  induction l using List.reverseRecOn with
  | nil =>
      show f.pop_back = _
      rw [pop_back_spec hne hactive, withLater, List.flatMap_nil, Layout.shown, List.map_nil,
        List.append_nil]
      rfl
  | append_singleton l last _ =>
      rw [withLater_concat, List.flatMap_append, List.flatMap_singleton] at hknown ⊢
      have hinit : Known f ((l.map (·, true)).flatMap (paths left here)) :=
        fun p mem => hknown p (List.mem_append_left _ mem)
      have hlast : Known f (paths left here (last, false)) :=
        fun p mem => hknown p (List.mem_append_right _ mem)
      have each : ∀ x ∈ l.map (·, true), ∀ f : Layout, f.active_threads = lines here →
          Known f (paths left here x) → visit left false x.1 f =
            some (f.shown (paths left here x)) := by
        intro x mem f hf hk
        obtain ⟨m, _, rfl⟩ := List.mem_map.1 mem
        have h := one (m, true) f hf hk
        rw [if_pos rfl, ← hf] at h
        exact h
      have hall := visitAll_spec each hactive hinit
      have hmap : (l.map (·, true)).map Prod.fst = l := by
        rw [List.map_map]
        exact List.map_id l
      rw [hmap] at hall
      rw [spreadRow, List.dropLast_concat, List.getLast?_concat, hall, shown_append]
      exact one (last, false) _ hactive (hlast.shown _)

theorem visit_spec (left : Nat) {above : Path} {x : Refmsg × Bool} {f : Layout} {popLast : Bool}
    (hlevel : above.length + left = MAXTHREADLEVEL)
    (hpop : popLast = true ↔ above ≠ [] ∧ x.2 = false) (hactive : f.active_threads = lines above)
    (hknown : Known f (paths left above x)) :
    visit left popLast x.1 f =
      some ((f.shown (paths left above x)).withActive
        (if x.2 then lines above else linesAbove above)) := by
  induction left generalizing above x f popLast with
  | zero =>
      have hlt : x.1.seqnum < f.serverIndex.length := by
        have h := hknown _ List.mem_cons_self
        rwa [seqnum_concat] at h
      have hmax : MAXTHREADLEVEL = above.length := hlevel.symm
      have hne : above ++ [(x.1.seqnum, x.2)] ≠ [] := by simp
      rw [visit, hmax, start_spec hpop hactive hlt]
      rw [Option.bind_some, pop_back_spec hne rfl, linesAbove_concat]
      rfl
  | succ left ih =>
      have hne : above ++ [(x.1.seqnum, x.2)] ≠ [] := by simp
      have hhere : (above ++ [(x.1.seqnum, x.2)]).length + left = MAXTHREADLEVEL := by
        rw [List.length_append, List.length_singleton]
        omega
      have hmax : MAXTHREADLEVEL - (left + 1) = above.length := by omega
      have hlt : x.1.seqnum < f.serverIndex.length := by
        have h := hknown _ List.mem_cons_self
        rwa [seqnum_concat] at h
      have hbelow : Known ((f.shown [above ++ [(x.1.seqnum, x.2)]]).withActive
          (lines (above ++ [(x.1.seqnum, x.2)])))
          ((withLater (row (left = 0) x.1.firstchild)).flatMap
            (paths left (above ++ [(x.1.seqnum, x.2)]))) :=
        Known.shown (fun p mem => hknown p (List.mem_cons_of_mem _ mem)) _
      have hchildren := children_spec hne
        (fun y e he hk => ih hhere (by simp [hne]) he hk) rfl hbelow
      have hpaths : f.shown (paths (left + 1) above x) =
          (f.shown [above ++ [(x.1.seqnum, x.2)]]).shown
            ((withLater (row (left = 0) x.1.firstchild)).flatMap
              (paths left (above ++ [(x.1.seqnum, x.2)]))) := shown_append f [_] _
      rw [visit, hmax, start_spec hpop hactive hlt, Option.bind_some, spread_eq,
        Option.toList_none, List.nil_append, hchildren, linesAbove_concat, hpaths]
      rfl

end Visits

section Levels

def levels : Nat → Nat → Refmsg → List (Nat × Nat)
  | 0, level, m => [(m.seqnum, level)]
  | left + 1, level, m =>
    (m.seqnum, level) :: (row (left = 0) m.firstchild).flatMap (levels left (level + 1))

def Path.shown (p : Path) : Nat × Nat := (p.seqnum, p.level)

theorem shown_concat (above : Path) (x : Nat × Bool) :
    Path.shown (above ++ [x]) = (x.1, above.length) := by
  rw [Path.shown, seqnum_concat, level_concat]

theorem map_shown_row {left : Nat} {above : Path} (l : List Refmsg)
    (each : ∀ x, (paths left above x).map Path.shown = levels left above.length x.1) :
    ((withLater l).flatMap (paths left above)).map Path.shown =
      l.flatMap (levels left above.length) := by
  rw [List.map_flatMap]
  simp only [each]
  rw [← List.flatMap_map, map_fst_withLater]

theorem map_shown_paths (left : Nat) (above : Path) (x : Refmsg × Bool) :
    (paths left above x).map Path.shown = levels left above.length x.1 := by
  induction left generalizing above x with
  | zero => rw [paths, levels, List.map_cons, shown_concat, List.map_nil]
  | succ left ih =>
      rw [paths, levels, List.map_cons, shown_concat, map_shown_row _ (fun y => ih _ y),
        List.length_append, List.length_singleton]

def capped (x : Nat × Nat) : Nat × Nat := (x.1, min MAXTHREADLEVEL x.2)

theorem row_flat {forest : Forest} {d : Nat} (hd : MAXTHREADLEVEL ≤ d) :
    (row true forest).flatMap (levels 0 MAXTHREADLEVEL) = (depths d forest).map capped := by
  induction forest generalizing d with
  | nil => rfl
  | node isdummy seqnum firstchild nextsib ihc ihs =>
      cases isdummy with
      | true => rw [row, depths, List.flatMap_append, List.map_append, ihc hd, ihs hd]
      | false =>
          rw [row, depths, List.flatMap_cons, List.map_cons, List.map_append, if_pos rfl,
            List.flatMap_append, ihc (Nat.le_succ_of_le hd), ihs hd, levels, capped,
            Nat.min_eq_left hd]
          rfl

theorem row_levels {left d : Nat} (hd : d + left = MAXTHREADLEVEL) (forest : Forest) :
    (row (left = 0) forest).flatMap (levels left d) = (depths d forest).map capped := by
  induction left generalizing d forest with
  | zero =>
      obtain rfl : d = MAXTHREADLEVEL := hd
      exact row_flat (Nat.le_refl _)
  | succ left ih =>
      have hflat : decide (left + 1 = 0) = false := rfl
      rw [hflat]
      induction forest with
      | nil => rfl
      | node isdummy seqnum firstchild nextsib ihc ihs =>
          cases isdummy with
          | true => rw [row, depths, List.flatMap_append, List.map_append, ihc, ihs]
          | false =>
              have hbelow := ih (d := d + 1) (by omega) firstchild
              rw [row, depths, List.flatMap_cons, List.map_cons, List.map_append, levels, hbelow,
                if_neg Bool.false_ne_true, List.nil_append, ihs, capped,
                Nat.min_eq_right (by omega)]
              rfl

theorem map_shown_screen (root : Forest) :
    (screen root).map Path.shown = (depths 0 root).map capped := by
  rw [screen, map_shown_row _ (map_shown_paths _ _)]
  exact row_levels (Nat.zero_add _) root

theorem map_fst_depths (d : Nat) (forest : Forest) :
    (depths d forest).map Prod.fst = preorder forest := by
  induction forest generalizing d with
  | nil => rfl
  | node isdummy seqnum firstchild nextsib ihc ihs =>
      cases isdummy with
      | true => rw [depths, preorder, List.map_append, ihc, ihs]
      | false => rw [depths, preorder, List.map_cons, List.map_append, ihc, ihs]

theorem map_seqnum_screen (root : Forest) : (screen root).map Path.seqnum = preorder root := by
  have h := congrArg (List.map Prod.fst) (map_shown_screen root)
  rw [List.map_map, List.map_map] at h
  exact h.trans (map_fst_depths 0 root)

end Levels

section Resorted
variable {root : Forest} {f : Layout}

theorem spreadRow_last (visit : Visit) (l : List Refmsg) (f : Layout) :
    ((spreadRow visit l f).bind fun x => visitLast visit x.1 x.2) = visitAll visit l f := by
  induction l using List.reverseRecOn with
  | nil => rfl
  | append_singleton l last _ =>
      rw [spreadRow, List.dropLast_concat, List.getLast?_concat, visitAll_append]
      cases visitAll visit l f with
      | none => rfl
      | some f => exact (visitAll_singleton last f).symm

theorem resort_eq (hknown : Known f (screen root)) :
    resort f root =
      some ({ f with sorted_index := [], active_threads := [] }.shown (screen root)) := by
  have each : ∀ x ∈ withLater (row false root), ∀ g : Layout, g.active_threads = lines [] →
      Known g (paths MAXTHREADLEVEL [] x) → visit MAXTHREADLEVEL false x.1 g =
        some (g.shown (paths MAXTHREADLEVEL [] x)) := by
    intro x _ g hg hk
    have h := @visit_spec MAXTHREADLEVEL [] x g false rfl (by simp) hg hk
    have htop : (if x.2 then lines [] else linesAbove []) = lines [] := by split <;> rfl
    rw [htop, ← hg] at h
    exact h
  have hall := @visitAll_spec MAXTHREADLEVEL [] (withLater (row false root)) each
    { f with sorted_index := [], active_threads := [] } rfl hknown
  rw [map_fst_withLater] at hall
  rw [resort, spread_eq]
  exact (spreadRow_last _ _ _).trans hall

theorem getElem?_store_of_notMem {serverIndex : List Index} {ps : List Path} {n : Nat}
    (h : n ∉ ps.map Path.seqnum) : (store serverIndex ps)[n]? = serverIndex[n]? := by
  induction ps generalizing serverIndex with
  | nil => rfl
  | cons q ps ih =>
      rw [List.map_cons, List.mem_cons, not_or] at h
      rw [store, List.foldl_cons, ← store, ih h.2, List.getElem?_set_ne (Ne.symm h.1)]

theorem getElem?_store {serverIndex : List Index} {ps : List Path}
    (hnodup : (ps.map Path.seqnum).Nodup) {p : Path} (mem : p ∈ ps)
    (hlt : p.seqnum < serverIndex.length) :
    (store serverIndex ps)[p.seqnum]? = some (entryOf p) := by
  induction ps generalizing serverIndex with
  | nil => cases mem
  | cons q ps ih =>
      rw [List.map_cons, List.nodup_cons] at hnodup
      rw [store, List.foldl_cons, ← store]
      rcases List.mem_cons.1 mem with rfl | mem
      · rw [getElem?_store_of_notMem hnodup.1, List.getElem?_set_self hlt]
      · exact ih hnodup.2 mem (by rwa [List.length_set])

theorem pairwise_lines (above : Path) : (lines above).Pairwise (· < ·) :=
  List.Pairwise.filter _ List.pairwise_lt_range

theorem mem_lines {above : Path} {l : Nat} :
    l ∈ lines above ↔
      l + 1 = above.length ∨ l + 1 < above.length ∧ above.later (l + 1) = true := by
  rw [lines, List.mem_filter, List.mem_range, Bool.or_eq_true, decide_eq_true_eq]
  constructor
  · rintro ⟨hlt, hl | hl⟩
    · exact Or.inl hl
    · by_cases h : l + 1 = above.length
      · exact Or.inl h
      · exact Or.inr ⟨by omega, hl⟩
  · rintro (hl | ⟨hlt, hl⟩)
    · exact ⟨by omega, Or.inl hl⟩
    · exact ⟨by omega, Or.inr hl⟩

theorem later_dropLast {p : Path} {l : Nat} (h : l < p.level) :
    Path.later p.dropLast l = p.later l := by
  have hlt : l < p.length - 1 := h
  rw [Path.later, Path.later, List.getElem?_dropLast, if_pos hlt]

theorem resort_shows (seqnum : Nat) (children : Forest) {cnt : Nat} (f : Layout)
    (once : (preorder children).Perm (List.range cnt)) (known : cnt ≤ f.serverIndex.length) :
    let root := Forest.node true seqnum children .nil
    ∃ f', resort f root = some f' ∧ f'.sorted_index = preorder root ∧ f'.active_threads = [] ∧
      (∀ x ∈ depths 0 root, ∃ i, f'.serverIndex[x.1]? = some i ∧
        i.threadLevel = min MAXTHREADLEVEL x.2) ∧
      (screen root).map Path.seqnum = preorder root ∧
      ∀ p ∈ screen root, ∃ i, f'.serverIndex[p.seqnum]? = some i ∧ i.threadLevel = p.level ∧
        i.active_threads.Pairwise (· < ·) ∧
        ∀ l, l ∈ i.active_threads ↔
          l + 1 = p.level ∨ l + 1 < p.level ∧ p.later (l + 1) = true := by
  intro root
  have hseq := map_seqnum_screen root
  have hperm : ((screen root).map Path.seqnum).Perm (List.range cnt) := by
    rw [hseq]
    show (preorder children ++ []).Perm _
    rwa [List.append_nil]
  have hknown : Known f (screen root) := fun p mem =>
    (List.mem_range.1 (hperm.subset (List.mem_map_of_mem mem))).trans_le known
  have hnodup := hperm.nodup_iff.2 List.nodup_range
  have hstored : ∀ p ∈ screen root,
      (store f.serverIndex (screen root))[p.seqnum]? = some (entryOf p) :=
    fun p mem => getElem?_store hnodup mem (hknown p mem)
  refine ⟨_, resort_eq hknown, ?_, rfl, ?_, hseq, ?_⟩
  · rw [Layout.shown, hseq, List.nil_append]
  · intro x mem
    have hx : capped x ∈ (screen root).map Path.shown := by
      rw [map_shown_screen]
      exact List.mem_map_of_mem mem
    obtain ⟨p, hp, he⟩ := List.mem_map.1 hx
    have hentry := hstored p hp
    rw [show p.seqnum = x.1 from congrArg Prod.fst he] at hentry
    exact ⟨_, hentry, congrArg Prod.snd he⟩
  · intro p mem
    refine ⟨_, hstored p mem, rfl, pairwise_lines _, fun l => ?_⟩
    rw [entryOf, mem_lines, List.length_dropLast]
    refine or_congr Iff.rfl (and_congr_right fun hlt => ?_)
    rw [later_dropLast hlt]

def answered : Forest := .node false 0 (.node false 1 .nil (.node false 2 .nil .nil)) .nil

def unsorted : Layout := ⟨List.replicate 3 ⟨0, []⟩, [], []⟩

theorem resort_shows_sample :
    ∃ f', resort unsorted (.node true 0 answered .nil) = some f' ∧ f'.sorted_index = [0, 1, 2] ∧
      f'.active_threads = [] := by
  obtain ⟨f', h, hsorted, hactive, _⟩ :=
    @resort_shows 0 answered 3 unsorted (List.Perm.refl _) (Nat.le_refl _)
  exact ⟨f', h, hsorted, hactive⟩

/-- The line of level 0 is in front of both answers although message 0 has no sibling, and there is
no line of level 1 in front of the first one although it has a later sibling. -/
theorem lines_of_parent :
    screen (.node true 0 answered .nil) =
        [[(0, false)], [(0, false), (1, true)], [(0, false), (2, false)]] ∧
      resort unsorted (.node true 0 answered .nil) =
        some ⟨[⟨0, []⟩, ⟨1, [0]⟩, ⟨1, [0]⟩], [0, 1, 2], []⟩ := by
  decide

end Resorted
end Cone.MyFolderThread
