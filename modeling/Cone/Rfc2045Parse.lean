import Cone.Lib.Decimal
import Cone.Lib.Lines
import Cone.Rfc2045Header

/-! # The sections of a message (`rfc2045/rfc2045.c`)

`rfc2045_parse` and `rfc2045_parse_partial`, with nothing to rewrite (no `rfc2045acptr`).  Of the
structures and their pointers a tree is left, with the last part of a section apart from the
others, since every line is for the last part that is not closed. -/
set_option autoImplicit false
namespace Cone.Rfc2045Parse

open Cone.Ctype Cone.Rfc2045Header
open Cone.Lib.Decimal (atoi)
open Cone.Lib.Lines

abbrev Text := List UInt8

def MAXPARTS : Nat := 300

def ERR8BITHEADER : Nat := 1
def ERR8BITCONTENT : Nat := 2
def ERR2COMPLEX : Nat := 4
def ERRBADBOUNDARY : Nat := 8

/-- The fields of a `struct rfc2045`; `header` is the header line that is not complete yet. -/
structure Part where
  startpos : Nat
  endpos : Nat
  startbody : Nat
  endbody : Nat
  nlines : Nat
  nbodylines : Nat
  headers : Headers
  rfcviolation : Nat
  workinheader : Bool
  workclosed : Bool
  isdummy : Bool
  informdata : Bool
  header : Text

inductive Rfc2045 where
  | leaf (p : Part)
  | node (p : Part) (earlier : List Rfc2045) (lastpart : Rfc2045)

namespace Rfc2045

def part : Rfc2045 → Part
  | leaf p => p
  | node p _ _ => p

def parts : Rfc2045 → List Rfc2045
  | leaf _ => []
  | node _ earlier last => earlier ++ [last]

def modify (f : Part → Part) : Rfc2045 → Rfc2045
  | leaf p => leaf (f p)
  | node p earlier last => node (f p) earlier last

end Rfc2045

/-- The structure of the whole message, with the count and the buffer that only this one uses. -/
structure State where
  tree : Rfc2045
  numparts : Nat
  workbuf : Text

/-- What is set outside: `rfc2045_in_reformime`, and `rfc822_getaddr` for a Content-ID. -/
structure Env where
  inReformime : Bool
  getaddr : List Rfc822Tokenize.Token → Option Text

section Model
variable (e : Env)

/-- A part of `append_part_noinherit`. -/
def appendPartNoinherit (startpos : Nat) : Part :=
  ⟨startpos, startpos, startpos, startpos, 0, 0, Headers.empty, 0, true, false, false, false, []⟩

def alloc : State := ⟨.leaf (appendPartNoinherit 0), 0, []⟩

def getattr (p : List Attr) (name : Text) : Option Text :=
  (p.find? fun a => a.name = name).map Attr.value

def appendPart (p : Part) (startpos : Nat) : Part :=
  { appendPartNoinherit startpos with
    headers := { Headers.empty with
      contentTransferEncoding := p.headers.contentTransferEncoding
      contentTypeAttr := attrset [] (str "charset")
        (getattr p.headers.contentTypeAttr (str "charset")) } }

/-- What a line does to the sections around the one that it is for. -/
structure Up where
  newcnt : Nat
  newendcnt : Nat
  nlines : Nat
  rfcviolation : Nat
  errBadBoundary : Bool
  numparts : Nat

def Up.counts (newcnt newendcnt nlines : Nat) : Up := ⟨newcnt, newendcnt, nlines, 0, false, 0⟩

def Part.updateCounts (p : Part) (u : Up) : Part :=
  { p with
    endpos := u.newcnt
    endbody := u.newendcnt
    nlines := p.nlines + u.nlines
    nbodylines := if p.workinheader then p.nbodylines else p.nbodylines + u.nlines
    rfcviolation := p.rfcviolation ||| u.rfcviolation }

/-- The buffer of `doline`, with its length without the end of the line. -/
structure Line where
  c : Text
  n : Nat
  bit8 : Bool

def Line.cnt (l : Line) : Nat := l.c.length

def getLine (workbuf : Text) : Line :=
  let c := workbuf.map fun b => if b = 0 then SP else b
  let n := c.length - 1
  ⟨c, if n ≠ 0 ∧ (c.drop (n - 1)).head? = some CR then n - 1 else n, c.any fun b => b &&& 0x80 ≠ 0⟩

/-- Whether the line is a boundary of the section, and if so whether it is the last one. -/
def Line.boundary (l : Line) (cb : Text) : Option Bool :=
  if l.c.take 2 = str "--" ∧ 2 + cb.length ≤ l.n ∧
      ((l.c.drop 2).take cb.length).map tolower = cb.map tolower then
    some (4 + cb.length ≤ l.n ∧ (l.c.drop (2 + cb.length)).take 2 = str "--")
  else none

/-- `ContentBoundary(p)`, of a section behind its header. -/
def Part.bounded (p : Part) : Option Text := if p.workinheader then none else p.headers.boundary

def isMime1 (h : Headers) : Bool := h.mimeVersion.any fun v => atoi v = 1

/-- What is made of the headers when the last of them was read. -/
def settle (parent : Option Part) (h : Headers) : Headers :=
  let h := if isMime1 h then h else
    { h with
      contentType := none, contentTypeAttr := []
      contentDisposition := none, contentDispositionAttr := [], boundary := none }
  let h := if isMime1 h ∧ h.contentType = none then
      { h with contentType := some <|
          if (parent.bind (·.headers.contentType)) = some (str "multipart/digest") then
            str "message/rfc822"
          else str "text/plain" }
    else h
  if h.contentType.any fun t => t.take 10 = str "multipart/" then h else { h with boundary := none }

def eightBit (l : Line) (p : Part) (err : Nat) : Nat :=
  if l.bit8 ∧ p.rfcviolation &&& err = 0 then err else 0

/-- A line of the body; in multiparts the final newline of a part belongs to the boundary. -/
def bodyLine (l : Line) (parent : Option Part) (p : Part) : Rfc2045 × Up :=
  let multipart := (parent.bind (·.headers.contentType)).any fun t =>
    (t.take 10).map tolower = str "multipart/"
  let u : Up := { Up.counts (p.endpos + l.cnt) (p.endpos + if multipart then l.n else l.cnt) 1 with
    rfcviolation := if p.headers.content8bit then 0 else eightBit l p ERR8BITCONTENT }
  (.leaf (p.updateCounts u), u)

/-- The section that a message or a multipart begins with. -/
def firstPart (p : Part) (u : Up) : Rfc2045 × Up :=
  if p.headers.contentType = some (str "message/rfc822") then
    (.node p [] (.leaf (appendPartNoinherit p.startbody)), { u with numparts := 1 })
  else if p.headers.boundary.isSome then
    (.node p [] (.leaf { appendPart p p.startbody with workinheader := false, isdummy := true }),
      { u with numparts := 1 })
  else (.leaf p, u)

/-- The empty line behind the header. -/
def endHeader (l : Line) (outer : List Part) (p : Part) : Rfc2045 × Up :=
  let o := doHeader e.inReformime e.getaddr (outer.map (·.headers.boundary)) p.headers p.header
  let startbody := p.endpos + l.cnt
  let u : Up := { Up.counts startbody startbody 1 with
    rfcviolation := eightBit l p ERR8BITHEADER, errBadBoundary := o.errBadBoundary }
  let p : Part := { p with
    headers := settle outer.head? o.headers, workinheader := false, startbody := startbody }
  firstPart { p.updateCounts u with nbodylines := (p.updateCounts u).nbodylines - 1 } u

def headerLine (l : Line) (outer : List Part) (p : Part) : Rfc2045 × Up :=
  let u : Up := { Up.counts (p.endpos + l.cnt) (p.endpos + l.n) 1 with
    rfcviolation := eightBit l p ERR8BITHEADER }
  if l.c.head?.any isspace then
    (.leaf { p.updateCounts u with header := p.header ++ SP :: l.c.take l.n }, u)
  else
    let o := doHeader e.inReformime e.getaddr (outer.map (·.headers.boundary)) p.headers p.header
    (.leaf { p.updateCounts u with headers := o.headers, header := l.c.take l.n },
      { u with errBadBoundary := o.errBadBoundary })

/-- The section that the line is for; `outer` are those around it, the innermost first. -/
def lineOf (l : Line) (outer : List Part) (p : Part) : Rfc2045 × Up :=
  if ¬ p.workinheader then bodyLine l outer.head? p
  else if l.n = 0 then endHeader e l outer p
  else headerLine e l outer p

/-- The look ahead of `doline`: whether a part is in the middle of form-data. -/
def Rfc2045.formdata : Rfc2045 → Bool
  | leaf _ => false
  | node p _ last =>
    !last.part.workclosed && (p.bounded.isSome && last.part.informdata || last.formdata)

/-- The drill down of `doline`.  Up to a part in the middle of form-data, if there is one ahead,
no line is a boundary. -/
def Rfc2045.line (l : Line) : Bool → List Part → Rfc2045 → Rfc2045 × Up
  | _, outer, leaf p => lineOf e l outer p
  | ahead, outer, node p earlier last =>
    if last.part.workclosed then
      let u := Up.counts (p.endpos + l.cnt) (p.endpos + l.n) 1
      (node (p.updateCounts u) earlier last, u)
    else if ahead then
      let found := p.bounded.isSome && last.part.informdata
      let (last, u) := last.line l (!found) (p :: outer)
      let last := if found then last.modify fun q => { q with informdata := false } else last
      (node (p.updateCounts u) earlier last, u)
    else
      match p.bounded.bind l.boundary with
      | some true =>
        let u := Up.counts (p.endpos + l.cnt) (p.endpos + l.cnt) 1
        (node (p.updateCounts u) earlier (last.modify fun q => { q with workclosed := true }), u)
      | some false =>
        let u := { Up.counts (p.endpos + l.cnt) (p.endpos + l.n) 1 with numparts := 1 }
        let newp := appendPart p (p.endpos + l.cnt)
        let newp :=
          { newp with headers := { newp.headers with mimeVersion := p.headers.mimeVersion } }
        (node (p.updateCounts u) (earlier ++ [last]) (leaf newp), u)
      | none =>
        let (last, u) := last.line l false (p :: outer)
        (node (p.updateCounts u) earlier last, u)

def doline (h : State) : State :=
  if h.numparts > MAXPARTS then
    { h with
      tree := h.tree.modify fun p => { p with rfcviolation := p.rfcviolation ||| ERR2COMPLEX } }
  else
    let (tree, u) := h.tree.line e (getLine h.workbuf) h.tree.formdata []
    { h with
      tree := if u.errBadBoundary then
          tree.modify fun p => { p with rfcviolation := p.rfcviolation ||| ERRBADBOUNDARY }
        else tree
      numparts := h.numparts + u.numparts }

/-- `l` bytes for the last section that is open. -/
def Rfc2045.gobble (l : Nat) : Rfc2045 → Rfc2045 × Up
  | leaf p =>
    let u := Up.counts (p.endpos + l) (p.endpos + l) 0
    (leaf { p.updateCounts u with informdata := true }, u)
  | node p earlier last =>
    if last.part.workclosed then
      let u := Up.counts (p.endpos + l) (p.endpos + l) 0
      (node { p.updateCounts u with informdata := true } earlier last, u)
    else
      let (last, u) := last.gobble l
      (node (p.updateCounts u) earlier last, u)

def parsePartial (h : State) : State :=
  if h.workbuf = [] then h
  else
    let l := if h.workbuf.getLast? = some CR then h.workbuf.length - 1 else h.workbuf.length
    { h with tree := (h.tree.gobble l).1, workbuf := h.workbuf.drop l }

/-- A byte is added to the buffer, which is a line when it is a newline. -/
def add (h : State) (b : UInt8) : State :=
  let h := { h with workbuf := h.workbuf ++ [b] }
  if b = NL then { doline e h with workbuf := [] } else h

def parse (h : State) (buf : Text) : State :=
  let h := buf.foldl (add e) h
  if h.workbuf.length > 1024 then parsePartial h else h

/-- What a caller does with a message, over and over. -/
inductive Call where
  | parse (buf : Text)
  | parsePartial

def Call.run (h : State) : Call → State
  | .parse buf => Rfc2045Parse.parse e h buf
  | .parsePartial => Rfc2045Parse.parsePartial h

def Call.fed : Call → Nat
  | .parse buf => buf.length
  | .parsePartial => 0

end Model


/-! ## Every section is inside the one around it -/

section Nesting

structure Part.Ranged (p : Part) : Prop where
  startbody : p.startpos ≤ p.startbody
  endbody : p.startbody ≤ p.endbody
  endpos : p.endbody ≤ p.endpos

theorem Part.Ranged.le {p : Part} (h : p.Ranged) : p.startpos ≤ p.endpos :=
  h.startbody.trans (h.endbody.trans h.endpos)

/-- One after another between two offsets. -/
def Within : Nat → Nat → List Rfc2045 → Prop
  | a, b, [] => a ≤ b
  | a, b, s :: l => a ≤ s.part.startpos ∧ Within s.part.endpos b l

theorem within_concat {a b : Nat} {l : List Rfc2045} {s : Rfc2045} :
    Within a b (l ++ [s]) ↔ Within a s.part.startpos l ∧ s.part.endpos ≤ b := by
  induction l generalizing a with
  | nil => simp [Within]
  | cons t l ih => simp [Within, ih, and_assoc]

/-- The offsets of a section and of the sections in it. -/
inductive Nested : Rfc2045 → Prop
  | leaf {p : Part} (ranged : p.Ranged) : Nested (.leaf p)
  | node {p : Part} {earlier : List Rfc2045} {last : Rfc2045} (ranged : p.Ranged)
      (within : Within p.startbody p.endpos (earlier ++ [last]))
      (parts : ∀ s ∈ earlier, Nested s) (lastpart : Nested last) : Nested (.node p earlier last)

/-- The sections that are open end where the text so far does. -/
def Rfc2045.Reached (pos : Nat) : Rfc2045 → Prop
  | leaf p => p.endpos = pos
  | node p _ last => p.endpos = pos ∧ (last.part.workclosed = false → last.Reached pos)

mutual

def Rfc2045.count : Rfc2045 → Nat
  | .leaf _ => 1
  | .node _ earlier last => countAll earlier + last.count + 1

def countAll : List Rfc2045 → Nat
  | [] => 0
  | s :: l => s.count + countAll l

end

theorem countAll_concat (l : List Rfc2045) (s : Rfc2045) :
    countAll (l ++ [s]) = countAll l + s.count := by
  induction l with
  | nil => simp [countAll]
  | cons t l ih => rw [List.cons_append, countAll, ih, countAll, Nat.add_assoc]

theorem Nested.ranged {t : Rfc2045} (h : Nested t) : t.part.Ranged := by
  cases h with
  | leaf ranged => exact ranged
  | node ranged => exact ranged

theorem Rfc2045.Reached.endpos {t : Rfc2045} {pos : Nat} (h : t.Reached pos) :
    t.part.endpos = pos := by
  cases t with
  | leaf p => exact h
  | node p earlier last => exact h.1

/-- The marks of a section are no offsets. -/
structure Marks (f : Part → Part) : Prop where
  ranged : ∀ p, p.Ranged → (f p).Ranged
  startpos : ∀ p, (f p).startpos = p.startpos
  endpos : ∀ p, (f p).endpos = p.endpos
  startbody : ∀ p, (f p).startbody = p.startbody

@[simp] theorem part_modify (f : Part → Part) (t : Rfc2045) : (t.modify f).part = f t.part := by
  cases t with
  | leaf p => rfl
  | node p earlier last => rfl

@[simp] theorem count_modify (f : Part → Part) (t : Rfc2045) : (t.modify f).count = t.count := by
  cases t with
  | leaf p => simp only [Rfc2045.modify, Rfc2045.count]
  | node p earlier last => simp only [Rfc2045.modify, Rfc2045.count]

theorem Nested.modify {t : Rfc2045} {f : Part → Part} (hf : Marks f) (h : Nested t) :
    Nested (t.modify f) := by
  cases h with
  | leaf ranged => exact .leaf (hf.ranged _ ranged)
  | node ranged within parts lastpart =>
      refine .node (hf.ranged _ ranged) ?_ parts lastpart
      rwa [hf.startbody, hf.endpos]

theorem Rfc2045.Reached.modify {t : Rfc2045} {pos : Nat} {f : Part → Part} (hf : Marks f)
    (h : t.Reached pos) : (t.modify f).Reached pos := by
  cases t with
  | leaf p => exact (hf.endpos p).trans h
  | node p earlier last => exact ⟨(hf.endpos p).trans h.1, h.2⟩

/-- What a section becomes with `k` bytes more behind `pos`. -/
structure Moved (pos k : Nat) (t : Rfc2045) (r : Rfc2045 × Up) : Prop where
  nested : Nested r.1
  reached : r.1.Reached (pos + k)
  startpos : r.1.part.startpos = t.part.startpos
  workclosed : r.1.part.workclosed = t.part.workclosed
  newcnt : r.2.newcnt = pos + k
  newendcnt : pos ≤ r.2.newendcnt ∧ r.2.newendcnt ≤ pos + k
  numparts : r.2.numparts ≤ 1
  count : r.1.count = t.count + r.2.numparts

variable {pos k : Nat} {p : Part} {u : Up} {earlier : List Rfc2045} {last : Rfc2045}

theorem ranged_updateCounts (h : p.Ranged) (hpos : p.endpos = pos) (hnew : u.newcnt = pos + k)
    (hend : pos ≤ u.newendcnt ∧ u.newendcnt ≤ pos + k) : (p.updateCounts u).Ranged := by
  obtain ⟨hstart, hbody, hendpos⟩ := h
  refine ⟨hstart, ?_, ?_⟩
  · simp only [Part.updateCounts]
    omega
  · simp only [Part.updateCounts]
    omega

/-- The section around one that was moved. -/
theorem Moved.node {r : Rfc2045 × Up} (h : Nested (.node p earlier last)) (hpos : p.endpos = pos)
    (hlast : Moved pos k last r) :
    Moved pos k (.node p earlier last) (.node (p.updateCounts r.2) earlier r.1, r.2) := by
  cases h with
  | node ranged within parts lastpart =>
      rw [within_concat] at within
      refine ⟨.node (ranged_updateCounts ranged hpos hlast.newcnt hlast.newendcnt) ?_ parts
        hlast.nested, ⟨hlast.newcnt, fun _ => hlast.reached⟩, rfl, rfl, hlast.newcnt,
        hlast.newendcnt, hlast.numparts, ?_⟩
      · rw [within_concat, hlast.startpos, hlast.reached.endpos]
        exact ⟨within.1, hlast.newcnt.ge⟩
      · simp only [Rfc2045.count, hlast.count]
        omega

/-- A section of which the last part is closed. -/
theorem Moved.closed (h : Nested (.node p earlier last)) (hpos : p.endpos = pos)
    (hclosed : last.part.workclosed = true) (hnew : u.newcnt = pos + k)
    (hend : pos ≤ u.newendcnt ∧ u.newendcnt ≤ pos + k) (hnum : u.numparts = 0) :
    Moved pos k (.node p earlier last) (.node (p.updateCounts u) earlier last, u) := by
  cases h with
  | node ranged within parts lastpart =>
      rw [within_concat] at within
      refine ⟨.node (ranged_updateCounts ranged hpos hnew hend) ?_ parts lastpart,
        ⟨hnew, fun h => absurd (hclosed.symm.trans h) (by decide)⟩, rfl, rfl, hnew, hend,
        hnum.trans_le (Nat.zero_le 1),
        by simp only [Rfc2045.count, hnum]⟩
      rw [within_concat]
      refine ⟨within.1, ?_⟩
      simp only [Part.updateCounts]
      omega

theorem ranged_fresh {q : Part} (h : q.startbody = q.startpos ∧ q.endbody = q.startpos ∧
    q.endpos = q.startpos) : q.Ranged := by
  obtain ⟨hbody, hend, hpos⟩ := h
  exact ⟨hbody.ge, by omega, by omega⟩

variable {e : Env}

theorem n_getLine_le (workbuf : Text) : (getLine workbuf).n ≤ (getLine workbuf).cnt := by
  simp only [getLine, Line.cnt]
  split
  · omega
  · omega

theorem leaf_moved (ranged : p.Ranged) (hnew : u.newcnt = p.endpos + k)
    (hend : p.endpos ≤ u.newendcnt ∧ u.newendcnt ≤ p.endpos + k) (hnum : u.numparts = 0) :
    Moved p.endpos k (.leaf p) (.leaf (p.updateCounts u), u) :=
  ⟨.leaf (ranged_updateCounts ranged rfl hnew hend), hnew, rfl, rfl, hnew, hend,
    hnum.trans_le (Nat.zero_le 1), by simp only [Rfc2045.count, hnum]⟩

theorem bodyLine_moved {l : Line} (hl : l.n ≤ l.cnt) (parent : Option Part) (ranged : p.Ranged) :
    Moved p.endpos l.cnt (.leaf p) (bodyLine l parent p) := by
  have hend : ∀ b : Bool, p.endpos ≤ p.endpos + (if b then l.n else l.cnt) ∧
      p.endpos + (if b then l.n else l.cnt) ≤ p.endpos + l.cnt := by
    intro b
    split <;> omega
  exact leaf_moved ranged rfl (hend _) rfl

theorem firstPart_moved {p' : Part} (hstart : p'.startpos ≤ pos + k)
    (hnew : p'.startbody = pos + k ∧ p'.endbody = pos + k ∧ p'.endpos = pos + k)
    (hsame : p'.startpos = p.startpos ∧ p'.workclosed = p.workclosed)
    (hu : u.newcnt = pos + k ∧ u.newendcnt = pos + k ∧ u.numparts = 0) :
    Moved pos k (.leaf p) (firstPart p' u) := by
  have ranged : p'.Ranged := ⟨by omega, by omega, by omega⟩
  have hend : pos ≤ u.newendcnt ∧ u.newendcnt ≤ pos + k := by omega
  have within : ∀ q : Part, q.startpos = p'.startbody → q.endpos = q.startpos →
      Within p'.startbody p'.endpos ([] ++ [.leaf q]) := by
    intro q hq hpos
    simp only [Within, List.nil_append, Rfc2045.part]
    omega
  rw [firstPart]
  split
  · exact ⟨.node ranged (within _ rfl rfl) (by simp) (.leaf (ranged_fresh ⟨rfl, rfl, rfl⟩)),
      ⟨hnew.2.2, fun _ => hnew.1⟩, hsame.1, hsame.2, hu.1, hend, le_rfl,
      by simp only [Rfc2045.count, countAll]⟩
  · split
    · exact ⟨.node ranged (within _ rfl rfl) (by simp) (.leaf (ranged_fresh ⟨rfl, rfl, rfl⟩)),
        ⟨hnew.2.2, fun _ => hnew.1⟩, hsame.1, hsame.2, hu.1, hend, le_rfl,
        by simp only [Rfc2045.count, countAll]⟩
    · exact ⟨.leaf ranged, hnew.2.2, hsame.1, hsame.2, hu.1, hend,
        hu.2.2.trans_le (Nat.zero_le 1), by simp only [Rfc2045.count, hu.2.2]⟩

theorem headerLine_moved {l : Line} (hl : l.n ≤ l.cnt) (outer : List Part) (ranged : p.Ranged) :
    Moved p.endpos l.cnt (.leaf p) (headerLine e l outer p) := by
  have hend : p.endpos ≤ p.endpos + l.n ∧ p.endpos + l.n ≤ p.endpos + l.cnt := by omega
  obtain ⟨hstart, hbody, hendpos⟩ := ranged_updateCounts ranged rfl
    (u := Up.counts (p.endpos + l.cnt) (p.endpos + l.n) 1) rfl hend
  rw [headerLine]
  dsimp only
  split
  · exact ⟨.leaf ⟨hstart, hbody, hendpos⟩, rfl, rfl, rfl, rfl, hend, Nat.zero_le 1,
      by simp only [Rfc2045.count, Up.counts]⟩
  · exact ⟨.leaf ⟨hstart, hbody, hendpos⟩, rfl, rfl, rfl, rfl, hend, Nat.zero_le 1,
      by simp only [Rfc2045.count, Up.counts]⟩

theorem lineOf_moved {l : Line} (hl : l.n ≤ l.cnt) (outer : List Part) (ranged : p.Ranged)
    (hpos : p.endpos = pos) :
    Moved pos l.cnt (.leaf p) (lineOf e l outer p) := by
  subst hpos
  rw [lineOf]
  split
  · exact bodyLine_moved hl outer.head? ranged
  · split
    · exact firstPart_moved (ranged.le.trans (Nat.le_add_right ..)) ⟨rfl, rfl, rfl⟩ ⟨rfl, rfl⟩
        ⟨rfl, rfl, rfl⟩
    · exact headerLine_moved hl outer ranged

theorem marks_informdata (b : Bool) : Marks fun q => { q with informdata := b } :=
  ⟨fun _ h => ⟨h.startbody, h.endbody, h.endpos⟩, fun _ => rfl, fun _ => rfl, fun _ => rfl⟩

theorem marks_workclosed : Marks fun q => { q with workclosed := true } :=
  ⟨fun _ h => ⟨h.startbody, h.endbody, h.endpos⟩, fun _ => rfl, fun _ => rfl, fun _ => rfl⟩

theorem Moved.modify {t : Rfc2045} {r : Rfc2045 × Up} {f : Part → Part} (hf : Marks f)
    (hclosed : ∀ q, (f q).workclosed = q.workclosed) (h : Moved pos k t r) :
    Moved pos k t (r.1.modify f, r.2) := by
  refine ⟨h.nested.modify hf, h.reached.modify hf, ?_, ?_, h.newcnt, h.newendcnt, h.numparts, ?_⟩
  · rw [part_modify, hf.startpos, h.startpos]
  · rw [part_modify, hclosed, h.workclosed]
  · rw [count_modify, h.count]

theorem Moved.ended (h : Nested (.node p earlier last)) (hpos : p.endpos = pos) :
    Moved pos k (.node p earlier last)
      (.node (p.updateCounts (Up.counts (p.endpos + k) (p.endpos + k) 1)) earlier
        (last.modify fun q => { q with workclosed := true }),
        Up.counts (p.endpos + k) (p.endpos + k) 1) := by
  have hend : pos ≤ pos + k ∧ pos + k ≤ pos + k := ⟨Nat.le_add_right .., le_rfl⟩
  subst hpos
  cases h with
  | node ranged within parts lastpart =>
      rw [within_concat] at within
      refine ⟨.node (ranged_updateCounts ranged rfl rfl hend) ?_ parts
        (lastpart.modify marks_workclosed), ⟨rfl, fun hno => ?_⟩, rfl, rfl, rfl, hend,
        Nat.zero_le 1, ?_⟩
      · rw [within_concat, part_modify]
        exact ⟨within.1, within.2.trans hend.1⟩
      · rw [part_modify] at hno
        cases hno
      · simp only [Rfc2045.count, count_modify, Up.counts, Nat.add_zero]

theorem Moved.next {q : Part} (h : Nested (.node p earlier last))
    (hend : p.endpos ≤ u.newendcnt ∧ u.newendcnt ≤ p.endpos + k)
    (hq : q.startbody = q.startpos ∧ q.endbody = q.startpos ∧ q.endpos = q.startpos)
    (hstart : q.startpos = p.endpos + k) (hnew : u.newcnt = p.endpos + k) (hnum : u.numparts = 1) :
    Moved p.endpos k (.node p earlier last)
      (.node (p.updateCounts u) (earlier ++ [last]) (.leaf q), u) := by
  cases h with
  | node ranged within parts lastpart =>
      refine ⟨.node (ranged_updateCounts ranged rfl hnew hend) ?_ ?_ (.leaf (ranged_fresh hq)),
        ⟨hnew, fun _ => hq.2.2.trans hstart⟩, rfl, rfl, hnew, hend, hnum.le, ?_⟩
      · rw [within_concat] at within ⊢
        rw [within_concat]
        exact ⟨⟨within.1, (within.2.trans (Nat.le_add_right ..)).trans hstart.ge⟩,
          (hq.2.2.trans (hstart.trans hnew.symm)).le⟩
      · intro s hs
        rcases List.mem_append.1 hs with hs | hs
        · exact parts s hs
        · exact List.mem_singleton.1 hs ▸ lastpart
      · simp only [Rfc2045.count, countAll_concat, hnum]

theorem line_moved {l : Line} (hl : l.n ≤ l.cnt) {t : Rfc2045} (h : Nested t)
    (hpos : t.Reached pos) (ahead : Bool) (outer : List Part) :
    Moved pos l.cnt t (t.line e l ahead outer) := by
  have hend : pos ≤ pos + l.n ∧ pos + l.n ≤ pos + l.cnt := by omega
  induction h generalizing ahead outer with
  | leaf ranged => exact lineOf_moved hl outer ranged hpos
  | @node p earlier last ranged within parts lastpart ihparts ih =>
      have h := Nested.node ranged within parts lastpart
      obtain ⟨rfl, hlast⟩ := hpos
      rw [Rfc2045.line]
      split
      · exact .closed h rfl ‹_› rfl hend rfl
      · rename_i hopen
        rw [Bool.not_eq_true] at hopen
        split
        · dsimp only
          split
          · exact .node h rfl ((ih (hlast hopen) _ _).modify (marks_informdata false) fun _ => rfl)
          · exact .node h rfl (ih (hlast hopen) _ _)
        · split
          · exact .ended h rfl
          · exact .next h hend ⟨rfl, rfl, rfl⟩ rfl rfl rfl
          · exact .node h rfl (ih (hlast hopen) _ _)

theorem gobble_moved {t : Rfc2045} (h : Nested t) (hpos : t.Reached pos) (k : Nat) :
    Moved pos k t (t.gobble k) := by
  have hend : pos ≤ pos + k ∧ pos + k ≤ pos + k := ⟨Nat.le_add_right .., le_rfl⟩
  induction h with
  | @leaf p ranged =>
      obtain rfl := hpos
      have hleaf := leaf_moved (u := Up.counts (p.endpos + k) (p.endpos + k) 0) ranged rfl hend rfl
      exact hleaf.modify (marks_informdata true) fun _ => rfl
  | @node p earlier last ranged within parts lastpart ihparts ih =>
      have h := Nested.node ranged within parts lastpart
      obtain ⟨rfl, hlast⟩ := hpos
      rw [Rfc2045.gobble]
      split
      · exact .modify (marks_informdata true) (fun _ => rfl) (.closed h rfl ‹_› rfl hend rfl)
      · rename_i hopen
        rw [Bool.not_eq_true] at hopen
        exact .node h rfl (ih (hlast hopen))

theorem numparts_gobble (k : Nat) : ∀ t : Rfc2045, (t.gobble k).2.numparts = 0
  | .leaf p => rfl
  | .node p earlier last => by
      rw [Rfc2045.gobble]
      split
      · rfl
      · exact numparts_gobble k last

/-- The offsets after so many bytes.  Where there are too many parts the lines are left out. -/
structure Sound (fed : Nat) (h : State) : Prop where
  nested : Nested h.tree
  reached : h.tree.Reached h.tree.part.endpos
  startpos : h.tree.part.startpos = 0
  taken : h.tree.part.endpos + h.workbuf.length ≤ fed
  all : h.numparts ≤ MAXPARTS → h.tree.part.endpos + h.workbuf.length = fed
  count : h.tree.count = h.numparts + 1
  numparts : h.numparts ≤ MAXPARTS + 1

theorem Moved.sound {h : State} {r : Rfc2045 × Up} {fed : Nat} (hs : Sound fed h)
    (hr : Moved h.tree.part.endpos k h.tree r) {h' : State} (htree : h'.tree = r.1)
    (hbuf : h'.workbuf.length + k = h.workbuf.length)
    (hnum : h'.numparts = h.numparts + r.2.numparts) (hmax : h'.numparts ≤ MAXPARTS + 1) :
    Sound fed h' := by
  have hend := hr.reached.endpos
  refine ⟨htree ▸ hr.nested, ?_, ?_, ?_, fun hfew => ?_, ?_, hmax⟩
  · rw [htree, hend]
    exact hr.reached
  · rw [htree, hr.startpos, hs.startpos]
  · rw [htree, hend]
    have htaken := hs.taken
    omega
  · rw [htree, hend]
    have hall := hs.all (by omega)
    omega
  · rw [htree, hr.count, hs.count, hnum]
    omega

theorem marks_rfcviolation (err : Nat) :
    Marks fun q => { q with rfcviolation := q.rfcviolation ||| err } :=
  ⟨fun _ h => ⟨h.startbody, h.endbody, h.endpos⟩, fun _ => rfl, fun _ => rfl, fun _ => rfl⟩

theorem cnt_getLine (workbuf : Text) : (getLine workbuf).cnt = workbuf.length := by
  simp [getLine, Line.cnt]

theorem doline_sound {h : State} {fed : Nat} (hs : Sound fed h) :
    Sound fed { doline e h with workbuf := [] } := by
  rw [doline]
  split
  · rename_i hmax
    have hmarks := marks_rfcviolation ERR2COMPLEX
    refine ⟨hs.nested.modify hmarks, ?_, ?_, ?_, fun hno => absurd hno (Nat.not_le.2 hmax),
      (count_modify _ _).trans hs.count, hs.numparts⟩
    · simp only [part_modify]
      exact hs.reached.modify hmarks
    · simp only [part_modify]
      exact hs.startpos
    · simp only [part_modify]
      exact (Nat.le_add_right ..).trans hs.taken
  · have hline := line_moved (e := e)
      (n_getLine_le h.workbuf) hs.nested hs.reached h.tree.formdata []
    rw [cnt_getLine] at hline
    have hmore := hline.numparts
    dsimp only
    split
    · exact (hline.modify (marks_rfcviolation ERRBADBOUNDARY) fun _ => rfl).sound hs rfl
        (by simp) rfl (by dsimp only; omega)
    · exact hline.sound hs rfl (by simp) rfl (by dsimp only; omega)

theorem add_sound {h : State} {fed : Nat} (hs : Sound fed h) (b : UInt8) :
    Sound (fed + 1) (add e h b) := by
  have hadd : Sound (fed + 1) { h with workbuf := h.workbuf ++ [b] } := by
    refine ⟨hs.nested, hs.reached, hs.startpos, ?_, fun hmax => ?_, hs.count, hs.numparts⟩
    · have htaken := hs.taken
      simp only [List.length_append, List.length_singleton]
      omega
    · have hall := hs.all hmax
      simp only [List.length_append, List.length_singleton]
      omega
  rw [add]
  split
  · exact doline_sound hadd
  · exact hadd

theorem parsePartial_sound {h : State} {fed : Nat} (hs : Sound fed h) :
    Sound fed (parsePartial h) := by
  rw [parsePartial]
  split
  · exact hs
  · rename_i hne
    have hlen := List.length_pos_iff.2 hne
    refine (gobble_moved hs.nested hs.reached _).sound hs rfl ?_ ?_ hs.numparts
    · simp only [List.length_drop]
      split <;> omega
    · exact (congrArg (h.numparts + ·) (numparts_gobble _ h.tree)).symm

theorem foldl_add_sound {h : State} {fed : Nat} (hs : Sound fed h) (text : Text) :
    Sound (fed + text.length) (text.foldl (add e) h) := by
  induction text generalizing h fed with
  | nil => exact hs
  | cons b text ih =>
      have hnext := ih (add_sound (e := e) hs b)
      rwa [Nat.add_right_comm, Nat.add_assoc] at hnext

theorem parse_sound {h : State} {fed : Nat} (hs : Sound fed h) (buf : Text) :
    Sound (fed + buf.length) (parse e h buf) := by
  rw [parse]
  split
  · exact parsePartial_sound (foldl_add_sound hs buf)
  · exact foldl_add_sound hs buf

theorem alloc_sound : Sound 0 alloc :=
  ⟨.leaf (ranged_fresh ⟨rfl, rfl, rfl⟩), rfl, rfl, le_rfl, fun _ => rfl, rfl, Nat.zero_le _⟩

/-- Whatever is fed, in whatever pieces. -/
theorem calls_sound (calls : List Call) :
    Sound (calls.map Call.fed).sum (calls.foldl (Call.run e) alloc) := by
  induction calls using List.reverseRecOn with
  | nil => exact alloc_sound
  | append_singleton calls c ih =>
      rw [List.foldl_append, List.map_append, List.sum_append]
      cases c with
      | parse buf => exact parse_sound ih buf
      | parsePartial => exact parsePartial_sound ih

end Nesting

/-! ## The parts of a multipart are what is between its boundaries -/

section Pieces
variable {e : Env}
variable {p : Part} {earlier : List Rfc2045} {last : Rfc2045} {cb msg : Text} {h : State}

def Rfc2045.bytes (msg : Text) (s : Rfc2045) : Text :=
  (msg.drop s.part.startpos).take (s.part.endpos - s.part.startpos)

/-- The pieces between the boundary lines, the first of which is `piece` so far. -/
def pieces (cb : Text) : Text → List Text → List Text
  | piece, [] => [piece]
  | piece, l :: lines =>
    match (getLine l).boundary cb with
    | none => pieces cb (piece ++ l) lines
    | some false => piece :: pieces cb [] lines
    | some true => [piece]

theorem bytes_append {s : Rfc2045} (hstart : s.part.startpos ≤ s.part.endpos)
    (hend : s.part.endpos ≤ msg.length) (text : Text) : s.bytes (msg ++ text) = s.bytes msg := by
  rw [Rfc2045.bytes, List.drop_append_of_le_length (hstart.trans hend),
    List.take_append_of_le_length, Rfc2045.bytes]
  rw [List.length_drop]
  omega

theorem bytes_grown {s s' : Rfc2045} {text : Text} (hstart : s.part.startpos ≤ s.part.endpos)
    (hsame : s'.part.startpos = s.part.startpos) (hend : s.part.endpos = msg.length)
    (hend' : s'.part.endpos = msg.length + text.length) :
    s'.bytes (msg ++ text) = s.bytes msg ++ text := by
  rw [Rfc2045.bytes, hsame, List.drop_append_of_le_length (hend ▸ hstart), Rfc2045.bytes,
    List.take_of_length_le, List.take_of_length_le]
  · simp only [List.length_drop]
    omega
  · simp only [List.length_append, List.length_drop]
    omega

theorem within_endpos {a b : Nat} {l : List Rfc2045} (hl : Within a b l)
    (hnested : ∀ s ∈ l, Nested s) : a ≤ b ∧ ∀ s ∈ l, s.part.endpos ≤ b := by
  induction l generalizing a with
  | nil => exact ⟨hl, by simp⟩
  | cons s l ih =>
      obtain ⟨hle, hrest⟩ := ih hl.2 fun t ht => hnested t (List.mem_cons_of_mem s ht)
      have hs := (hnested s List.mem_cons_self).ranged.le
      exact ⟨hl.1.trans (hs.trans hle), fun t ht => (List.mem_cons.1 ht).elim (· ▸ hle) (hrest t)⟩

/-- Nothing is in the middle of form-data. -/
def Rfc2045.Quiet : Rfc2045 → Prop
  | leaf p => p.informdata = false
  | node p _ last => p.informdata = false ∧ last.Quiet

theorem Rfc2045.Quiet.informdata {t : Rfc2045} (h : t.Quiet) : t.part.informdata = false := by
  cases t with
  | leaf p => exact h
  | node p earlier last => exact h.1

theorem formdata_of_quiet : ∀ {t : Rfc2045}, t.Quiet → t.formdata = false
  | .leaf p, _ => rfl
  | .node p earlier last, h => by
      rw [Rfc2045.formdata, h.2.informdata, formdata_of_quiet h.2, Bool.and_false, Bool.or_false,
        Bool.and_false]

theorem quiet_modify {t : Rfc2045} {f : Part → Part} (hf : ∀ q, (f q).informdata = q.informdata)
    (h : t.Quiet) : (t.modify f).Quiet := by
  cases t with
  | leaf p => exact (hf p).trans h
  | node p earlier last => exact ⟨(hf p).trans h.1, h.2⟩

theorem quiet_lineOf (l : Line) (outer : List Part) (h : p.informdata = false) :
    (lineOf e l outer p).1.Quiet := by
  rw [lineOf]
  split
  · exact h
  · split
    · rw [endHeader, firstPart]
      dsimp only
      split
      · exact ⟨h, rfl⟩
      · split
        · exact ⟨h, rfl⟩
        · exact h
    · rw [headerLine]
      dsimp only
      split
      · exact h
      · exact h

theorem quiet_line (l : Line) : ∀ (outer : List Part) {t : Rfc2045}, t.Quiet →
    (t.line e l false outer).1.Quiet
  | outer, .leaf p, h => quiet_lineOf l outer h
  | outer, .node p earlier last, h => by
      rw [Rfc2045.line]
      split
      · exact h
      · rw [if_neg Bool.false_ne_true]
        split
        · exact ⟨h.1, quiet_modify (fun _ => rfl) h.2⟩
        · exact ⟨h.1, rfl⟩
        · exact ⟨h.1, quiet_line l (p :: outer) h.2⟩

theorem workbuf_doline (h : State) : (doline e h).workbuf = h.workbuf := by
  rw [doline]
  split
  · rfl
  · rfl

theorem numparts_doline (h : State) : h.numparts ≤ (doline e h).numparts := by
  rw [doline]
  split
  · exact le_rfl
  · exact Nat.le_add_right ..

theorem doline_tree (hmax : h.numparts ≤ MAXPARTS) (hquiet : h.tree.Quiet) :
    ∃ err, (doline e h).tree =
      (h.tree.line e (getLine h.workbuf) false []).1.modify fun q =>
        { q with rfcviolation := q.rfcviolation ||| err } := by
  rw [doline, if_neg (Nat.not_lt.2 hmax), formdata_of_quiet hquiet]
  dsimp only
  split
  · exact ⟨ERRBADBOUNDARY, rfl⟩
  · refine ⟨0, ?_⟩
    simp only [Nat.or_zero]
    generalize (h.tree.line e (getLine h.workbuf) false []).1 = t
    cases t with
    | leaf p => rfl
    | node p earlier last => rfl

/-- A line with its newline. -/
def IsLine (l : Text) : Prop := NL ∉ l.dropLast ∧ l.getLast? = some NL

instance : DecidablePred IsLine := fun l =>
  inferInstanceAs (Decidable (NL ∉ l.dropLast ∧ l.getLast? = some NL))

theorem foldl_add_line {text : Text} (hl : NL ∉ text) (h : State) :
    (text ++ [NL]).foldl (add e) h =
      { doline e { h with workbuf := h.workbuf ++ (text ++ [NL]) } with
        workbuf := [] } := by
  induction text generalizing h with
  | nil =>
      rw [List.nil_append, List.foldl_cons, List.foldl_nil, add]
      exact if_pos rfl
  | cons b text ih =>
      obtain ⟨hb, hl⟩ := List.ne_and_not_mem_of_not_mem_cons hl
      rw [List.cons_append, List.foldl_cons, add, if_neg hb.symm, ih hl]
      simp only [List.append_assoc, List.cons_append, List.nil_append]

theorem numparts_foldl (text : Text) (h : State) :
    h.numparts ≤ (text.foldl (add e) h).numparts := by
  induction text generalizing h with
  | nil => exact le_rfl
  | cons b text ih =>
      refine le_trans ?_ (ih (add e h b))
      rw [add]
      split
      · exact numparts_doline (e := e)
          { h with workbuf := h.workbuf ++ [b] }
      · exact le_rfl

/-- The whole message is a multipart, and `msg` is what was read of it. -/
structure Multipart (cb msg : Text) (p : Part) (earlier : List Rfc2045) (last : Rfc2045)
    (h : State) : Prop where
  tree : h.tree = .node p earlier last
  bounded : p.bounded = some cb
  sound : Sound msg.length h
  quiet : h.tree.Quiet
  workbuf : h.workbuf = []

/-- What a line does to a section of which the last part is open. -/
theorem line_open (p : Part) (earlier : List Rfc2045) (hopen : last.part.workclosed = false)
    (l : Line) (outer : List Part) :
    ∃ p', p'.bounded = p.bounded ∧
      (Rfc2045.line e l false outer (.node p earlier last)).1 =
        match p.bounded.bind l.boundary with
        | none => .node p' earlier (last.line e l false (p :: outer)).1
        | some true => .node p' earlier (last.modify fun q => { q with workclosed := true })
        | some false =>
          let newp := appendPart p (p.endpos + l.cnt)
          let newp :=
            { newp with headers := { newp.headers with mimeVersion := p.headers.mimeVersion } }
          .node p' (earlier ++ [last]) (.leaf newp) := by
  rw [Rfc2045.line, if_neg (by simp [hopen]), if_neg Bool.false_ne_true]
  cases p.bounded.bind l.boundary with
  | none => exact ⟨p.updateCounts _, rfl, rfl⟩
  | some final =>
      cases final with
      | false => exact ⟨p.updateCounts _, rfl, rfl⟩
      | true => exact ⟨p.updateCounts _, rfl, rfl⟩

/-- The state after a line. -/
theorem Multipart.line {l : Text} (hm : Multipart cb msg p earlier last h)
    (hmax : h.numparts ≤ MAXPARTS) (hl : IsLine l) {p' : Part} {earlier' : List Rfc2045}
    {last' : Rfc2045} (hnode : (Rfc2045.line e (getLine l) false []
      (.node p earlier last)).1 = .node p' earlier' last') (hbounded : p'.bounded = p.bounded) :
    ∃ p'', Multipart cb (msg ++ l) p'' earlier' last' (l.foldl (add e) h) := by
  have hsound := foldl_add_sound (e := e) hm.sound l
  rw [← List.length_append] at hsound
  obtain ⟨htext, hnl⟩ := hl
  obtain ⟨text, rfl⟩ := List.getLast?_eq_some_iff.1 hnl
  rw [List.dropLast_concat] at htext
  have hfold := foldl_add_line (e := e) htext h
  rw [hm.workbuf, List.nil_append] at hfold
  obtain ⟨err, htree⟩ := doline_tree (e := e)
    (h := { h with workbuf := text ++ [NL] }) hmax hm.quiet
  have hline : (h.tree.line e (getLine (text ++ [NL])) false []).1 =
      .node p' earlier' last' := by rw [hm.tree, hnode]
  have hquiet := quiet_line (e := e)
    (getLine (text ++ [NL])) [] hm.quiet
  rw [hfold] at hsound ⊢
  refine ⟨_, htree.trans (congrArg (Rfc2045.modify _) hline),
    hbounded.trans hm.bounded, hsound, ?_, rfl⟩
  rw [htree]
  exact quiet_modify (fun _ => rfl) hquiet

theorem Multipart.within (hm : Multipart cb msg p earlier last h) :
    Within p.startbody p.endpos (earlier ++ [last]) ∧ ∀ s ∈ earlier ++ [last], Nested s := by
  have hnested := hm.sound.nested
  rw [hm.tree] at hnested
  cases hnested with
  | node ranged within parts lastpart =>
      refine ⟨within, fun s hs => ?_⟩
      rcases List.mem_append.1 hs with hs | hs
      · exact parts s hs
      · exact List.mem_singleton.1 hs ▸ lastpart

theorem Multipart.bytes_append (hm : Multipart cb msg p earlier last h) (text : Text) {s : Rfc2045}
    (hs : s ∈ earlier ++ [last]) : s.bytes (msg ++ text) = s.bytes msg := by
  obtain ⟨hwithin, hnested⟩ := hm.within
  have htaken := hm.sound.taken
  rw [hm.tree] at htaken
  refine Rfc2045Parse.bytes_append (hnested s hs).ranged.le ?_ text
  exact ((within_endpos hwithin hnested).2 s hs).trans ((Nat.le_add_right ..).trans htaken)

theorem Multipart.reached (hm : Multipart cb msg p earlier last h) (hmax : h.numparts ≤ MAXPARTS)
    (hopen : last.part.workclosed = false) : last.Reached msg.length := by
  have hall := hm.sound.all hmax
  have hreached := hm.sound.reached
  rw [hm.workbuf, List.length_nil, Nat.add_zero] at hall
  rw [hall, hm.tree] at hreached
  exact hreached.2 hopen

/-- Behind the last boundary nothing changes. -/
theorem Multipart.closed {lines : List Text} (hm : Multipart cb msg p earlier last h)
    (hclosed : last.part.workclosed = true) (hlines : ∀ l ∈ lines, IsLine l)
    (hmax : (lines.flatten.foldl (add e) h).numparts ≤ MAXPARTS) :
    (lines.flatten.foldl (add e) h).tree.parts.map
      (·.bytes (msg ++ lines.flatten)) = (earlier ++ [last]).map (·.bytes msg) := by
  induction lines generalizing msg p h with
  | nil => simp [hm.tree, Rfc2045.parts]
  | cons l lines ih =>
      rw [List.flatten_cons, List.foldl_append] at hmax ⊢
      have hfew := (numparts_foldl _ h).trans ((numparts_foldl _ _).trans hmax)
      have hnode : (Rfc2045.line e (getLine l) false [] (.node p earlier last)).1 =
          .node (p.updateCounts (Up.counts (p.endpos + (getLine l).cnt)
            (p.endpos + (getLine l).n) 1)) earlier last := by
        rw [Rfc2045.line, if_pos hclosed]
      obtain ⟨p', hm'⟩ := hm.line hfew (hlines l List.mem_cons_self) hnode rfl
      rw [← List.append_assoc, ih hm' (fun l' hl' => hlines l' (List.mem_cons_of_mem l hl')) hmax]
      exact List.map_congr_left fun s hs => hm.bytes_append l hs

theorem Multipart.pieces {lines : List Text} (hm : Multipart cb msg p earlier last h)
    (hopen : last.part.workclosed = false) (hlines : ∀ l ∈ lines, IsLine l)
    (hmax : (lines.flatten.foldl (add e) h).numparts ≤ MAXPARTS) :
    (lines.flatten.foldl (add e) h).tree.parts.map
      (·.bytes (msg ++ lines.flatten)) =
        earlier.map (·.bytes msg) ++ Rfc2045Parse.pieces cb (last.bytes msg) lines := by
  induction lines generalizing msg p earlier last h with
  | nil => simp [hm.tree, Rfc2045.parts, Rfc2045Parse.pieces]
  | cons l lines ih =>
      rw [List.flatten_cons, List.foldl_append] at hmax ⊢
      have hfew := (numparts_foldl _ h).trans ((numparts_foldl _ _).trans hmax)
      have hlater : ∀ l' ∈ lines, IsLine l' := fun l' hl' => hlines l' (List.mem_cons_of_mem l hl')
      have hl := hlines l List.mem_cons_self
      obtain ⟨p', hbounded, hnode⟩ := line_open (e := e) p earlier hopen (getLine l) []
      rw [hm.bounded, Option.bind_some] at hnode
      have hsame : earlier.map (·.bytes (msg ++ l)) = earlier.map (·.bytes msg) :=
        List.map_congr_left fun s hs => hm.bytes_append l (List.mem_append_left _ hs)
      rw [← List.append_assoc, Rfc2045Parse.pieces]
      cases hline : (getLine l).boundary cb with
      | none =>
          rw [hline] at hnode
          have hlast := hm.within.2 last (by simp)
          have hmoved := line_moved (e := e)
            (n_getLine_le l) hlast (hm.reached hfew hopen) false [p]
          rw [cnt_getLine] at hmoved
          have hgrown := bytes_grown hlast.ranged.le hmoved.startpos
            (hm.reached hfew hopen).endpos hmoved.reached.endpos
          obtain ⟨p'', hm'⟩ := hm.line hfew hl hnode hbounded
          rw [ih hm' (hmoved.workclosed.trans hopen) hlater hmax, hsame, hgrown]
      | some final =>
          cases final with
          | false =>
              rw [hline] at hnode
              obtain ⟨p'', hm'⟩ := hm.line hfew hl hnode hbounded
              rw [ih hm' rfl hlater hmax, List.map_append, hsame, List.map_singleton,
                hm.bytes_append l (by simp), List.append_assoc, List.singleton_append]
              simp [Rfc2045.bytes, Rfc2045.part, appendPart, appendPartNoinherit]
          | true =>
              rw [hline] at hnode
              obtain ⟨p'', hm'⟩ := hm.line hfew hl hnode hbounded
              rw [hm'.closed (by rw [part_modify]) hlater hmax, List.map_append, hsame,
                List.map_singleton, ← hm.bytes_append l (s := last) (by simp)]
              simp [Rfc2045.bytes]

end Pieces

/-! ## The buffers do not matter -/

section Buffers
variable {e : Env}
variable {h : State}

theorem length_of_eachLine {k : Nat} {line text : Text}
    (hl : EachLine NL (·.length ≤ k) line text) : line.length ≤ k := by
  induction text generalizing line with
  | nil => exact hl
  | cons b text ih =>
      rw [EachLine] at hl
      split at hl
      · exact hl.1
      · have hmore := ih hl
        rw [List.length_append] at hmore
        exact (Nat.le_add_right ..).trans hmore

theorem eachLine_foldl {P : Text → Prop} {buf rest : Text}
    (hl : EachLine NL P h.workbuf (buf ++ rest)) :
    EachLine NL P (buf.foldl (add e) h).workbuf rest := by
  induction buf generalizing h with
  | nil => exact hl
  | cons b buf ih =>
      rw [List.cons_append, EachLine] at hl
      apply ih
      rw [add]
      split
      · rename_i hb
        rw [if_pos hb] at hl
        exact hl.2
      · rename_i hb
        rwa [if_neg hb] at hl

/-- Where no line is long, nothing is read before its line is complete. -/
theorem foldl_parse {bufs : List Text}
    (hl : EachLine NL (·.length ≤ 1024) h.workbuf bufs.flatten) :
    bufs.foldl (parse e) h = bufs.flatten.foldl (add e) h := by
  induction bufs generalizing h with
  | nil => rfl
  | cons buf bufs ih =>
      rw [List.flatten_cons] at hl
      have hrest := eachLine_foldl (e := e) hl
      have hparse : parse e h buf = buf.foldl (add e) h := by
        rw [parse]
        exact if_neg (Nat.not_lt.2 (length_of_eachLine hrest))
      rw [List.foldl_cons, hparse, ih hrest, List.flatten_cons, List.foldl_append]

theorem quiet_foldl (hquiet : h.tree.Quiet) (text : Text) :
    (text.foldl (add e) h).tree.Quiet := by
  induction text generalizing h with
  | nil => exact hquiet
  | cons b text ih =>
      apply ih
      rw [add]
      split
      · rw [doline]
        split
        · exact quiet_modify (fun _ => rfl) hquiet
        · have hline := quiet_line (e := e)
            (getLine (h.workbuf ++ [b])) [] hquiet
          rw [formdata_of_quiet hquiet]
          dsimp only
          split
          · exact quiet_modify (fun _ => rfl) hline
          · exact hline
      · exact hquiet

/-- However a multipart is fed, with lines that are not long and no part too many: what its parts
have of the text is what is between the boundary lines, whatever that is. -/
theorem parts_eq_pieces (e : Env) (bufs lines : List Text) (text : Text) {cb : Text} {p : Part}
    {earlier : List Rfc2045} {last : Rfc2045} (hfed : bufs.flatten = text ++ [NL] ++ lines.flatten)
    (hshort : ∀ l ∈ bufs.flatten.splitOn NL, l.length ≤ 1024) (hlines : ∀ l ∈ lines, IsLine l)
    (htree : (parse e alloc (text ++ [NL])).tree = .node p earlier last)
    (hcb : p.bounded = some cb) (hopen : last.part.workclosed = false)
    (hmax : (bufs.foldl (parse e) alloc).numparts ≤ MAXPARTS) :
    (bufs.foldl (parse e) alloc).tree.parts.map (·.bytes bufs.flatten) =
      earlier.map (·.bytes (text ++ [NL])) ++ pieces cb (last.bytes (text ++ [NL])) lines := by
  have hl := (forall_splitOn_iff NL (·.length ≤ 1024) _).1 hshort
  rw [foldl_parse hl, hfed, List.foldl_append] at hmax ⊢
  have hbuf : ((text ++ [NL]).foldl (add e) alloc).workbuf = [] := by
    rw [List.foldl_append, List.foldl_cons, List.foldl_nil, add, if_pos rfl]
  have hparse : parse e alloc (text ++ [NL]) =
      (text ++ [NL]).foldl (add e) alloc := by
    rw [parse]
    exact if_neg (by rw [hbuf]; decide)
  rw [hparse] at htree
  have hsound := foldl_add_sound (e := e) alloc_sound
    (text ++ [NL])
  rw [Nat.zero_add] at hsound
  have hquiet := quiet_foldl (e := e) (h := alloc) rfl (text ++ [NL])
  exact Multipart.pieces ⟨htree, hcb, hsound, hquiet, hbuf⟩ hopen hlines hmax

theorem parts_eq_pieces_sample :
    let bufs := [str "Mime-Version: 1\nContent-Type: multipart/mixed; boundary=b\n\np\n-",
      str "-B\n\nx\n--b--\nend\n"]
    (bufs.foldl (parse ⟨false, fun _ => none⟩) alloc).tree.parts.map (·.bytes bufs.flatten) =
      [str "p\n", str "\nx\n"] :=
  (parts_eq_pieces ⟨false, fun _ => none⟩ [_, _]
    [str "p\n", str "--B\n", str "\n", str "x\n", str "--b--\n", str "end\n"]
    (str "Mime-Version: 1\nContent-Type: multipart/mixed; boundary=b\n") (by decide) (by decide)
    (by decide) rfl rfl rfl (by decide)).trans (by decide)

end Buffers

end Cone.Rfc2045Parse
