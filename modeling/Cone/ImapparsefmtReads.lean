import Cone.ImapBodystructure

/-! # Reading nested lists

`mail::imapparsefmt` of imapparsefmt.C: the objects in a heap, the tree that `process` builds token
by token, and the copy constructor. -/
set_option autoImplicit false
namespace Cone.ImapparsefmtReads

open Cone.Ctype
open Cone.ImapBodystructure (Text Imapparsefmt)

section Definitions

/-- `mail::imapparsefmt`; a pointer is an index into the heap. -/
structure Node where
  current : Option Nat
  nil : Bool
  value : Text
  children : List Nat
  parent : Option Nat
  deriving DecidableEq, Repr

abbrev Heap := List Node

def imapparsefmt : Node := ⟨none, false, [], [], none⟩

inductive Token where
  | EOL
  | ATOM (text : Text)
  | STRING (text : Text)
  | LARGESTRING (text : Text)
  | NIL
  | char (c : UInt8)
  deriving DecidableEq, Repr

def LPAREN : UInt8 := byte '('
def RPAREN : UInt8 := byte ')'

def addChildren (h : Heap) (p : Nat) (children : List Nat) : Heap :=
  h.modify p fun n => { n with children := n.children ++ children }

def setCurrent (h : Heap) (p : Nat) (current : Option Nat) : Heap :=
  h.modify p fun n => { n with current := current }

/-- `imapparsefmt(parentArg)`: the new object is the last one of the heap. -/
def newChild (h : Heap) (parentArg : Nat) : Heap :=
  addChildren h parentArg [h.length] ++ [{ imapparsefmt with parent := some parentArg }]

/-- The objects that are destroyed stay in the heap, and nothing points to them. -/
def begin (h : Heap) (this : Nat) : Heap := h.modify this fun _ => imapparsefmt

/-- The heap, the return value and `parse_error`. -/
def process (h : Heap) (this : Nat) (t : Token) : Heap × Bool × Bool :=
  match (h[this]?).bind (·.current) with
  | none =>
    match t with
    | .NIL => (h.modify this fun n => { n with nil := true }, true, false)
    | .ATOM text => (h.modify this fun n => { n with value := text }, true, false)
    | .STRING text => (h.modify this fun n => { n with value := text }, true, false)
    | t =>
      if t ≠ .char LPAREN then (h, true, true)
      else (setCurrent h this (some this), false, false)
  | some current =>
    if t = .char RPAREN then
      let parent := (h[current]?).bind (·.parent)
      (setCurrent h this parent, parent.isNone, false)
    else
      let child := h.length
      let h := newChild h current
      match t with
      | .NIL => (h.modify child fun n => { n with nil := true }, false, false)
      | .ATOM text => (h.modify child fun n => { n with value := text }, false, false)
      | .STRING text => (h.modify child fun n => { n with value := text }, false, false)
      | t =>
        if t ≠ .char LPAREN then (h, true, true)
        else (setCurrent h this (some child), false, false)

/-- What the calls return, and what they leave. -/
def run (h : Heap) (this : Nat) : List Token → Heap × List (Bool × Bool)
  | [] => (h, [])
  | t :: ts =>
    let r := process h this t
    ((run r.1 this ts).1, r.2 :: (run r.1 this ts).2)

def copy : Nat → Heap → Nat → Option (Heap × Nat)
  | 0, _, _ => none
  | fuel + 1, h, cpy =>
    match h[cpy]? with
    | none => none
    | some node =>
      let this := h.length
      (node.children.foldlM (fun h b =>
          (copy fuel h b).map fun (h, ptr) =>
            addChildren (h.modify ptr fun n => { n with parent := some this }) this [ptr])
        (h ++ [{ node with children := [] }])).map fun h => (h, this)

end Definitions

section Values

inductive Value where
  | nil
  | atom (text : Text)
  | string (text : Text)
  | list (values : List Value)

mutual

def Value.tokens : Value → List Token
  | .nil => [.NIL]
  | .atom text => [.ATOM text]
  | .string text => [.STRING text]
  | .list values => .char LPAREN :: (tokensAll values ++ [.char RPAREN])

def tokensAll : List Value → List Token
  | [] => []
  | v :: values => v.tokens ++ tokensAll values

end

mutual

def Value.tree : Value → Imapparsefmt
  | .nil => .mk true [] []
  | .atom text => .mk false text []
  | .string text => .mk false text []
  | .list values => .mk false [] (treeAll values)

def treeAll : List Value → List Imapparsefmt
  | [] => []
  | v :: values => v.tree :: treeAll values

end

mutual

/-- The object `id` with the parent `p` is the root of the tree. -/
def Holds (h : Heap) (p : Option Nat) (id : Nat) : Imapparsefmt → Prop
  | .mk nil value children =>
    ∃ ids, h[id]? = some ⟨none, nil, value, ids, p⟩ ∧ HoldsAll h id ids children

def HoldsAll (h : Heap) (p : Nat) : List Nat → List Imapparsefmt → Prop
  | ids, [] => ids = []
  | ids, t :: trees => ∃ id rest, ids = id :: rest ∧ Holds h (some p) id t ∧ HoldsAll h p rest trees

end

def Starts (ts : List Token) : Prop := ∃ v : Value, ts <+: v.tokens

def Unfinished (ts : List Token) : Prop :=
  ∃ v : Value, ts <+: v.tokens ∧ ts.length < v.tokens.length

end Values

section Layout

mutual

def size : Imapparsefmt → Nat
  | .mk _ _ children => sizeAll children + 1

def sizeAll : List Imapparsefmt → Nat
  | [] => 0
  | t :: trees => size t + sizeAll trees

end

def idsFrom (n : Nat) : List Imapparsefmt → List Nat
  | [] => []
  | t :: trees => n :: idsFrom (n + size t) trees

mutual

/-- The objects of a tree in the order in which they are made, from `n` on. -/
def layout (p : Option Nat) (n : Nat) : Imapparsefmt → List Node
  | .mk nil value children =>
    ⟨none, nil, value, idsFrom (n + 1) children, p⟩ :: layoutAll n (n + 1) children

def layoutAll (p n : Nat) : List Imapparsefmt → List Node
  | [] => []
  | t :: trees => layout (some p) n t ++ layoutAll p (n + size t) trees

end

mutual

theorem length_layout (p : Option Nat) (n : Nat) (t : Imapparsefmt) :
    (layout p n t).length = size t := by
  cases t with
  | mk nil value children =>
      rw [layout, size, List.length_cons, length_layoutAll]

theorem length_layoutAll (p n : Nat) (trees : List Imapparsefmt) :
    (layoutAll p n trees).length = sizeAll trees := by
  cases trees with
  | nil => rfl
  | cons t trees => rw [layoutAll, sizeAll, List.length_append, length_layout, length_layoutAll]

end

mutual

theorem holds_layout (a b : Heap) (p : Option Nat) (t : Imapparsefmt) :
    Holds (a ++ (layout p a.length t ++ b)) p a.length t := by
  cases t with
  | mk nil value children =>
      have hchildren := holdsAll_layout
        (a ++ [⟨none, nil, value, idsFrom (a.length + 1) children, p⟩]) b a.length children
      rw [List.length_append, List.length_singleton, List.append_assoc] at hchildren
      rw [layout, Holds]
      refine ⟨idsFrom (a.length + 1) children, ?_, hchildren⟩
      rw [List.getElem?_append_right (Nat.le_refl _), Nat.sub_self]
      rfl

theorem holdsAll_layout (a b : Heap) (p : Nat) (trees : List Imapparsefmt) :
    HoldsAll (a ++ (layoutAll p a.length trees ++ b)) p (idsFrom a.length trees) trees := by
  cases trees with
  | nil => rfl
  | cons t trees =>
      have hfirst := holds_layout a (layoutAll p (a.length + size t) trees ++ b) (some p) t
      have hrest := holdsAll_layout (a ++ layout (some p) a.length t) b p trees
      rw [List.length_append, length_layout, List.append_assoc] at hrest
      rw [layoutAll, HoldsAll, List.append_assoc]
      exact ⟨_, _, rfl, hfirst, hrest⟩

end

def Keeps (h g : Heap) : Prop := ∀ (i : Nat) (n : Node), h[i]? = some n → g[i]? = some n

mutual

theorem Holds.mono {h g : Heap} (hkeeps : Keeps h g) (p : Option Nat) (id : Nat)
    (t : Imapparsefmt) (ht : Holds h p id t) : Holds g p id t := by
  cases t with
  | mk nil value children =>
      rw [Holds] at ht ⊢
      obtain ⟨ids, hid, hchildren⟩ := ht
      exact ⟨ids, hkeeps _ _ hid, HoldsAll.mono hkeeps id ids children hchildren⟩

theorem HoldsAll.mono {h g : Heap} (hkeeps : Keeps h g) (p : Nat) (ids : List Nat)
    (trees : List Imapparsefmt) (htrees : HoldsAll h p ids trees) : HoldsAll g p ids trees := by
  cases trees with
  | nil => exact htrees
  | cons t trees =>
      rw [HoldsAll] at htrees ⊢
      obtain ⟨id, rest, heq, ht, hrest⟩ := htrees
      exact ⟨id, rest, heq, Holds.mono hkeeps (some p) id t ht,
        HoldsAll.mono hkeeps p rest trees hrest⟩

end

end Layout

section HeapSpec
variable {h : Heap} {i j : Nat}

theorem modify_append_left {a : Heap} (b : Heap) (f : Node → Node) (hi : i < a.length) :
    (a ++ b).modify i f = a.modify i f ++ b := by
  refine List.ext_getElem? fun k => ?_
  by_cases hk : k < a.length
  · rw [List.getElem?_append_left (by rwa [List.length_modify]), List.getElem?_modify,
      List.getElem?_modify, List.getElem?_append_left hk]
  · rw [List.getElem?_append_right (by rw [List.length_modify]; omega), List.length_modify,
      List.getElem?_modify_ne _ _ (by omega), List.getElem?_append_right (by omega)]

theorem modify_append_right (a : Heap) (n : Node) (b : Heap) (f : Node → Node) :
    (a ++ n :: b).modify a.length f = a ++ f n :: b := by
  induction a with
  | nil => rfl
  | cons m a ih => rw [List.cons_append, List.length_cons, List.modify_succ_cons, ih]; rfl

theorem setCurrent_twice (c d : Option Nat) :
    setCurrent (setCurrent h i c) i d = setCurrent h i d := by
  rw [setCurrent, setCurrent, List.modify_modify_eq]
  rfl

theorem addChildren_twice (a b : List Nat) :
    addChildren (addChildren h i a) i b = addChildren h i (a ++ b) := by
  rw [addChildren, addChildren, List.modify_modify_eq, addChildren]
  congr 1
  funext n
  simp

theorem addChildren_nil : addChildren h i [] = h := by
  have hid : (fun n : Node => { n with children := n.children ++ [] }) = id := by
    funext n
    rw [List.append_nil]
    rfl
  rw [addChildren, hid, List.modify_id]

theorem addChildren_setCurrent (c : Option Nat) (children : List Nat) :
    addChildren (setCurrent h i c) j children = setCurrent (addChildren h j children) i c := by
  by_cases hij : i = j
  · subst hij
    rw [addChildren, setCurrent, List.modify_modify_eq, setCurrent, addChildren,
      List.modify_modify_eq]
    rfl
  · rw [addChildren, setCurrent, List.modify_modify_ne _ _ _ hij]
    rfl

theorem length_setCurrent (c : Option Nat) : (setCurrent h i c).length = h.length :=
  List.length_modify _ _ _

theorem length_addChildren (children : List Nat) :
    (addChildren h i children).length = h.length :=
  List.length_modify _ _ _

theorem current_setCurrent (hi : i < h.length) (c : Option Nat) :
    ((setCurrent h i c)[i]?).bind (·.current) = c := by
  rw [setCurrent, List.getElem?_modify_eq, List.getElem?_eq_getElem hi]
  rfl

theorem parent_setCurrent (c : Option Nat) :
    ((setCurrent h i c)[j]?).bind (·.parent) = (h[j]?).bind (·.parent) := by
  rw [setCurrent, List.getElem?_modify]
  cases h[j]? with
  | none => rfl
  | some n =>
      by_cases hij : i = j
      · simp [hij]
      · simp [hij]

theorem newChild_setCurrent (hi : i < h.length) (c : Option Nat) :
    newChild (setCurrent h i c) j = setCurrent (newChild h j) i c := by
  rw [newChild, addChildren_setCurrent, length_setCurrent, newChild, setCurrent, setCurrent,
    modify_append_left _ _ (by rwa [length_addChildren])]

theorem length_newChild : (newChild h j).length = h.length + 1 := by
  rw [newChild, List.length_append, length_addChildren]
  rfl

theorem modify_child (hi : i < h.length) (c : Option Nat) (f : Node → Node) :
    (setCurrent (newChild h j) i c).modify h.length f =
      setCurrent (addChildren h j [h.length] ++ [f { imapparsefmt with parent := some j }]) i
        c := by
  have hne : i ≠ h.length := by omega
  have hlast := modify_append_right (addChildren h j [h.length])
    { imapparsefmt with parent := some j } [] f
  rw [length_addChildren] at hlast
  rw [setCurrent, List.modify_modify_ne _ _ _ hne, newChild, hlast]
  rfl

theorem newChild_addChildren (ids : List Nat) (rest : Heap) :
    addChildren (newChild h j) h.length ids ++ rest =
      addChildren h j [h.length] ++ ⟨none, false, [], ids, some j⟩ :: rest := by
  have hlast := modify_append_right (addChildren h j [h.length])
    { imapparsefmt with parent := some j } [] fun n => { n with children := n.children ++ ids }
  rw [length_addChildren] at hlast
  rw [newChild, addChildren, hlast, List.append_assoc]
  rfl

theorem getElem?_middle {a : Heap} (ha : a.length = i) (n : Node) (b : Heap) :
    (a ++ n :: b)[i]? = some n := by
  rw [List.getElem?_append_right (by omega), ha, Nat.sub_self, List.getElem?_cons_zero]

theorem setCurrent_none (hcurrent : ∀ n, h[i]? = some n → n.current = none) :
    setCurrent h i none = h := by
  refine List.ext_getElem? fun k => ?_
  rw [setCurrent, List.getElem?_modify]
  cases hk : h[k]? with
  | none => rfl
  | some n =>
      by_cases hik : i = k
      · subst hik
        have hn := hcurrent n hk
        cases n
        simp_all
      · simp [hik]

end HeapSpec

section RunSpec
variable {h : Heap} {this c : Nat}

theorem run_append (h : Heap) (this : Nat) (ts us : List Token) :
    run h this (ts ++ us) =
      ((run (run h this ts).1 this us).1,
        (run h this ts).2 ++ (run (run h this ts).1 this us).2) := by
  induction ts generalizing h with
  | nil => rfl
  | cons t ts ih => simp only [List.cons_append, run, ih]

theorem process_leaf (hthis : this < h.length) (t : Token) (f : Node → Node)
    (ht : t = .NIL ∧ f = (fun n => { n with nil := true }) ∨
      ∃ text, (t = .ATOM text ∨ t = .STRING text) ∧ f = fun n => { n with value := text }) :
    process (setCurrent h this (some c)) this t =
      (setCurrent (addChildren h c [h.length] ++ [f { imapparsefmt with parent := some c }]) this
        (some c), false, false) := by
  rw [process.eq_def, current_setCurrent hthis, ← modify_child hthis, ← newChild_setCurrent hthis]
  rcases ht with ⟨rfl, rfl⟩ | ⟨text, rfl | rfl, rfl⟩
  · simp only [if_neg (show Token.NIL ≠ .char RPAREN by decide), length_setCurrent]
  · simp only [if_neg (show Token.ATOM text ≠ .char RPAREN from nofun), length_setCurrent]
  · simp only [if_neg (show Token.STRING text ≠ .char RPAREN from nofun), length_setCurrent]

theorem process_lparen (hthis : this < h.length) :
    process (setCurrent h this (some c)) this (.char LPAREN) =
      (setCurrent (newChild h c) this (some h.length), false, false) := by
  rw [process.eq_def, current_setCurrent hthis]
  simp only [if_neg (show Token.char LPAREN ≠ .char RPAREN by decide), ne_eq, not_true_eq_false,
    if_false, length_setCurrent, newChild_setCurrent hthis, setCurrent_twice]

theorem process_rparen (hthis : this < h.length) {p : Option Nat}
    (hp : (h[c]?).bind (·.parent) = p) :
    process (setCurrent h this (some c)) this (.char RPAREN) =
      (setCurrent h this p, p.isNone, false) := by
  rw [process.eq_def, current_setCurrent hthis]
  simp only [if_true, parent_setCurrent, setCurrent_twice, hp]

mutual

theorem run_value (h : Heap) (this c : Nat) (hthis : this < h.length) (hc : c < h.length)
    (v : Value) :
    run (setCurrent h this (some c)) this v.tokens =
      (setCurrent (addChildren h c [h.length] ++ layout (some c) h.length v.tree) this (some c),
        List.replicate v.tokens.length (false, false)) := by
  cases v with
  | nil =>
      rw [Value.tokens, run, process_leaf hthis .NIL _ (Or.inl ⟨rfl, rfl⟩)]
      rfl
  | atom text =>
      rw [Value.tokens, run, process_leaf hthis (.ATOM text) _
        (Or.inr ⟨text, Or.inl rfl, rfl⟩)]
      rfl
  | string text =>
      rw [Value.tokens, run, process_leaf hthis (.STRING text) _
        (Or.inr ⟨text, Or.inr rfl, rfl⟩)]
      rfl
  | list values =>
      have hvalues := run_values (newChild h c) this h.length (by rw [length_newChild]; omega)
        (by rw [length_newChild]; omega) values
      rw [length_newChild, newChild_addChildren] at hvalues
      have hparent : ((addChildren h c [h.length] ++ ⟨none, false, [],
          idsFrom (h.length + 1) (treeAll values), some c⟩ ::
            layoutAll h.length (h.length + 1) (treeAll values))[h.length]?).bind (·.parent) =
          some c := by
        rw [getElem?_middle (length_addChildren _)]
        rfl
      have hlength : this < (addChildren h c [h.length] ++ ⟨none, false, [],
          idsFrom (h.length + 1) (treeAll values), some c⟩ ::
            layoutAll h.length (h.length + 1) (treeAll values)).length := by
        rw [List.length_append, length_addChildren]
        omega
      have htree : layout (some c) h.length (Value.list values).tree =
          ⟨none, false, [], idsFrom (h.length + 1) (treeAll values), some c⟩ ::
            layoutAll h.length (h.length + 1) (treeAll values) := by
        rw [Value.tree, layout]
      rw [Value.tokens, run, process_lparen hthis, run_append, hvalues, run,
        process_rparen hlength hparent, run, htree, List.length_cons, List.length_append,
        List.replicate_succ, List.replicate_add]
      rfl

theorem run_values (h : Heap) (this c : Nat) (hthis : this < h.length) (hc : c < h.length)
    (values : List Value) :
    run (setCurrent h this (some c)) this (tokensAll values) =
      (setCurrent (addChildren h c (idsFrom h.length (treeAll values)) ++
          layoutAll c h.length (treeAll values)) this (some c),
        List.replicate (tokensAll values).length (false, false)) := by
  cases values with
  | nil =>
      simp [tokensAll, run, treeAll, idsFrom, layoutAll, addChildren_nil]
  | cons v values =>
      have hfirst := run_value h this c hthis hc v
      have hlength : (addChildren h c [h.length] ++ layout (some c) h.length v.tree).length =
          h.length + size v.tree := by
        rw [List.length_append, length_addChildren, length_layout]
      have hrest := run_values (addChildren h c [h.length] ++ layout (some c) h.length v.tree) this
        c (by omega) (by omega) values
      rw [hlength] at hrest
      rw [tokensAll, run_append, hfirst, hrest, treeAll, idsFrom, layoutAll]
      have hjoin : addChildren (addChildren h c [h.length] ++ layout (some c) h.length v.tree) c
            (idsFrom (h.length + size v.tree) (treeAll values)) =
          addChildren h c (h.length :: idsFrom (h.length + size v.tree) (treeAll values)) ++
            layout (some c) h.length v.tree := by
        rw [addChildren, modify_append_left _ _ (by rwa [length_addChildren]), ← addChildren,
          addChildren_twice]
        rfl
      rw [hjoin, List.append_assoc, List.length_append, List.replicate_add]

end

theorem begin_this (hthis : this < h.length) : (begin h this)[this]? = some imapparsefmt := by
  rw [begin, List.getElem?_modify_eq, List.getElem?_eq_getElem hthis]
  rfl

theorem length_begin : (begin h this).length = h.length := List.length_modify _ _ _

theorem process_only (hthis : this < h.length) (t : Token) (nil : Bool) (text : Text)
    (ht : t = .NIL ∧ nil = true ∧ text = [] ∨
      (t = .ATOM text ∨ t = .STRING text) ∧ nil = false) :
    ∃ left, process (begin h this) this t = (left, true, false) ∧
      Holds left none this (.mk nil text []) ∧ left.length = h.length := by
  have hbegin := begin_this hthis
  have hleft (f : Node → Node) (hf : f imapparsefmt = ⟨none, nil, text, [], none⟩) :
      Holds ((begin h this).modify this f) none this (.mk nil text []) := by
    rw [Holds]
    refine ⟨[], ?_, rfl⟩
    rw [List.getElem?_modify_eq, hbegin, ← hf]
    rfl
  rw [process.eq_def, hbegin]
  rcases ht with ⟨rfl, rfl, rfl⟩ | ⟨rfl | rfl, rfl⟩
  · exact ⟨_, rfl, hleft _ rfl, by rw [List.length_modify, length_begin]⟩
  · exact ⟨_, rfl, hleft _ rfl, by rw [List.length_modify, length_begin]⟩
  · exact ⟨_, rfl, hleft _ rfl, by rw [List.length_modify, length_begin]⟩

theorem run_tokens (hthis : this < h.length) (v : Value) :
    ∃ left, run (begin h this) this v.tokens =
        (left, List.replicate (v.tokens.length - 1) (false, false) ++ [(true, false)]) ∧
      Holds left none this v.tree ∧ size v.tree ≤ left.length := by
  cases v with
  | nil =>
      obtain ⟨left, hprocess, hholds, hlength⟩ :=
        process_only hthis .NIL true [] (Or.inl ⟨rfl, rfl, rfl⟩)
      refine ⟨left, by rw [Value.tokens, run, hprocess, run]; rfl, hholds, ?_⟩
      rw [Value.tree, size, sizeAll]
      omega
  | atom text =>
      obtain ⟨left, hprocess, hholds, hlength⟩ :=
        process_only hthis (.ATOM text) false text (Or.inr ⟨Or.inl rfl, rfl⟩)
      refine ⟨left, by rw [Value.tokens, run, hprocess, run]; rfl, hholds, ?_⟩
      rw [Value.tree, size, sizeAll]
      omega
  | string text =>
      obtain ⟨left, hprocess, hholds, hlength⟩ :=
        process_only hthis (.STRING text) false text (Or.inr ⟨Or.inr rfl, rfl⟩)
      refine ⟨left, by rw [Value.tokens, run, hprocess, run]; rfl, hholds, ?_⟩
      rw [Value.tree, size, sizeAll]
      omega
  | list values =>
      have hthis' : this < (begin h this).length := by rwa [length_begin]
      have hopen : process (begin h this) this (.char LPAREN) =
          (setCurrent (begin h this) this (some this), false, false) := by
        rw [process.eq_def, begin_this hthis]
        rfl
      have hvalues := run_values (begin h this) this this hthis' hthis' values
      rw [length_begin] at hvalues
      have hnode (rest : Heap) : (addChildren (begin h this) this
          (idsFrom h.length (treeAll values)) ++ rest)[this]? =
            some ⟨none, false, [], idsFrom h.length (treeAll values), none⟩ := by
        rw [List.getElem?_append_left (by rwa [length_addChildren]), addChildren,
          List.getElem?_modify_eq, begin_this hthis]
        rfl
      have hlong : this < (addChildren (begin h this) this (idsFrom h.length (treeAll values)) ++
          layoutAll this h.length (treeAll values)).length := by
        rw [List.length_append, length_addChildren]
        omega
      have hclose := process_rparen (c := this) (p := none) hlong (by rw [hnode]; rfl)
      rw [setCurrent_none (by
        intro n hn
        rw [hnode] at hn
        obtain rfl := Option.some.inj hn
        rfl)] at hclose
      refine ⟨addChildren (begin h this) this (idsFrom h.length (treeAll values)) ++
        layoutAll this h.length (treeAll values), ?_, ?_, ?_⟩
      · rw [Value.tokens, run, hopen, run_append, hvalues, run, hclose, run, List.length_cons,
          List.length_append, List.length_singleton, Nat.add_sub_cancel, List.replicate_succ]
        rfl
      · have hchildren := holdsAll_layout
          (addChildren (begin h this) this (idsFrom h.length (treeAll values))) [] this
          (treeAll values)
        rw [length_addChildren, length_begin, List.append_nil] at hchildren
        rw [Value.tree, Holds]
        exact ⟨_, hnode _, hchildren⟩
      · rw [Value.tree, size, List.length_append, length_addChildren, length_begin,
          length_layoutAll]
        omega

end RunSpec

section PrefixSpec
variable {h : Heap} {this : Nat}

theorem run_length (h : Heap) (this : Nat) (ts : List Token) :
    (run h this ts).2.length = ts.length := by
  induction ts generalizing h with
  | nil => rfl
  | cons t ts ih => rw [run, List.length_cons, List.length_cons, ih]

theorem run_unfinished (hthis : this < h.length) {ts : List Token} (hts : Unfinished ts) :
    (run (begin h this) this ts).2 = List.replicate ts.length (false, false) := by
  obtain ⟨v, ⟨us, hus⟩, hlt⟩ := hts
  obtain ⟨left, hrun, -, -⟩ := run_tokens hthis v
  rw [← hus, run_append] at hrun
  have hresults := congrArg (fun r => r.2.take ts.length) hrun
  simp only at hresults
  rw [← hus, List.length_append] at hlt
  rw [List.take_left' (run_length _ _ _), List.take_append_of_le_length, List.take_replicate,
    List.length_append, Nat.min_eq_left (by omega)] at hresults
  · exact hresults
  · rw [List.length_replicate, List.length_append]
    omega

theorem process_offending {t : Token} (ht : ¬Starts [t])
    (hcurrent : (h[this]?).bind (·.current) = none ∨ t ≠ .char RPAREN) :
    ∃ left, process h this t = (left, true, true) := by
  have hnil : t ≠ .NIL := fun heq => ht ⟨.nil, by rw [heq, Value.tokens]⟩
  have hatom (text : Text) : t ≠ .ATOM text := fun heq => ht ⟨.atom text, by rw [heq, Value.tokens]⟩
  have hstring (text : Text) : t ≠ .STRING text :=
    fun heq => ht ⟨.string text, by rw [heq, Value.tokens]⟩
  have hlparen : t ≠ .char LPAREN := by
    intro heq
    refine ht ⟨.list [], ?_⟩
    rw [heq, Value.tokens]
    exact ⟨_, rfl⟩
  rw [process.eq_def]
  cases hc : (h[this]?).bind (·.current) with
  | none =>
      cases t with
      | NIL => exact absurd rfl hnil
      | ATOM text => exact absurd rfl (hatom text)
      | STRING text => exact absurd rfl (hstring text)
      | EOL => exact ⟨_, if_pos hlparen⟩
      | LARGESTRING text => exact ⟨_, if_pos hlparen⟩
      | char c => exact ⟨_, if_pos hlparen⟩
  | some c =>
      have hrparen : t ≠ .char RPAREN := hcurrent.resolve_left (by rw [hc]; nofun)
      simp only [if_neg hrparen]
      cases t with
      | NIL => exact absurd rfl hnil
      | ATOM text => exact absurd rfl (hatom text)
      | STRING text => exact absurd rfl (hstring text)
      | EOL => exact ⟨_, if_pos hlparen⟩
      | LARGESTRING text => exact ⟨_, if_pos hlparen⟩
      | char c => exact ⟨_, if_pos hlparen⟩

mutual

theorem extend_value (t : Token) (ht : t = .char RPAREN ∨ Starts [t]) (v : Value)
    (ts : List Token) (hts : ts <+: v.tokens) (hlt : ts.length < v.tokens.length)
    (hne : ts ≠ []) : Starts (ts ++ [t]) := by
  have hpos : 0 < ts.length := List.length_pos_iff.2 hne
  cases v with
  | nil => rw [Value.tokens, List.length_singleton] at hlt; omega
  | atom text => rw [Value.tokens, List.length_singleton] at hlt; omega
  | string text => rw [Value.tokens, List.length_singleton] at hlt; omega
  | list values =>
      cases ts with
      | nil => exact absurd rfl hne
      | cons p us =>
          rw [Value.tokens, List.cons_prefix_cons] at hts
          rw [Value.tokens, List.length_cons, List.length_cons] at hlt
          obtain ⟨rfl, hus⟩ := hts
          have hinside : us <+: tokensAll values := by
            rcases List.prefix_concat_iff.1 hus with heq | hpre
            · rw [heq] at hlt
              omega
            · exact hpre
          obtain ⟨ws, hws⟩ := extend_values t ht values us hinside
          refine ⟨.list ws, ?_⟩
          rw [Value.tokens, List.cons_append, List.cons_prefix_cons]
          exact ⟨rfl, hws⟩

theorem extend_values (t : Token) (ht : t = .char RPAREN ∨ Starts [t]) (values : List Value)
    (us : List Token) (hus : us <+: tokensAll values) :
    ∃ ws : List Value, us ++ [t] <+: tokensAll ws ++ [.char RPAREN] := by
  have hitem (vs : Value) (ts : List Token) (hts : ts <+: vs.tokens) :
      ts <+: tokensAll [vs] ++ [.char RPAREN] := by
    rw [tokensAll, List.append_assoc]
    exact hts.trans (List.prefix_append _ _)
  have hempty : ∃ ws : List Value, [] ++ [t] <+: tokensAll ws ++ [.char RPAREN] := by
    rcases ht with rfl | ⟨v, hv⟩
    · exact ⟨[], by rw [tokensAll]⟩
    · exact ⟨[v], hitem v _ hv⟩
  cases values with
  | nil =>
      obtain rfl := List.prefix_nil.1 hus
      exact hempty
  | cons v values =>
      rw [tokensAll] at hus
      by_cases hnil : us = []
      · rw [hnil]
        exact hempty
      by_cases hshort : us.length < v.tokens.length
      · have hpre : us <+: v.tokens :=
          List.prefix_of_prefix_length_le hus (List.prefix_append _ _) (Nat.le_of_lt hshort)
        obtain ⟨w, hw⟩ := extend_value t ht v us hpre hshort hnil
        exact ⟨[w], hitem w _ hw⟩
      · obtain ⟨rest, rfl⟩ : v.tokens <+: us :=
          List.prefix_of_prefix_length_le (List.prefix_append _ _) hus (Nat.not_lt.1 hshort)
        obtain ⟨ws, hws⟩ := extend_values t ht values rest
          ((List.prefix_append_right_inj _).1 hus)
        refine ⟨v :: ws, ?_⟩
        rw [tokensAll, List.append_assoc, List.append_assoc]
        exact (List.prefix_append_right_inj _).2 hws

end

theorem run_offending (hthis : this < h.length) {ts : List Token} {t : Token}
    (hts : Unfinished ts) (ht : ¬Starts (ts ++ [t])) :
    (run (begin h this) this (ts ++ [t])).2 =
      List.replicate ts.length (false, false) ++ [(true, true)] := by
  have hbefore := run_unfinished hthis hts
  have hlast : ∃ left, process (run (begin h this) this ts).1 this t = (left, true, true) := by
    by_cases hnil : ts = []
    · subst hnil
      refine process_offending ht (Or.inl ?_)
      rw [run, begin_this hthis]
      rfl
    · have hextend (hallowed : t = .char RPAREN ∨ Starts [t]) : False := by
        obtain ⟨v, hpre, hlt⟩ := hts
        exact ht (extend_value t hallowed v ts hpre hlt hnil)
      refine process_offending (fun h => hextend (Or.inr h)) (Or.inr fun h => hextend (Or.inl h))
  obtain ⟨left, hleft⟩ := hlast
  rw [run_append, hbefore, run, hleft]
  rfl

end PrefixSpec

section CopySpec

theorem keeps_append (h g : Heap) : Keeps h (h ++ g) := by
  intro i n hi
  rw [List.getElem?_append_left (List.getElem?_eq_some_iff.1 hi).1, hi]

theorem layout_parent (p q : Option Nat) (n : Nat) (t : Imapparsefmt) :
    ∃ node rest, layout p n t = node :: rest ∧
      layout q n t = { node with parent := q } :: rest := by
  cases t with
  | mk nil value children =>
      rw [layout, layout]
      exact ⟨_, _, rfl, rfl⟩

mutual

theorem copy_spec (fuel : Nat) (h : Heap) (p : Option Nat) (cpy : Nat) (t : Imapparsefmt)
    (hfuel : size t ≤ fuel) (ht : Holds h p cpy t) :
    copy fuel h cpy = some (h ++ layout p h.length t, h.length) := by
  cases t with
  | mk nil value children =>
      rw [size] at hfuel
      rw [Holds] at ht
      obtain ⟨ids, hid, hchildren⟩ := ht
      obtain ⟨fuel, rfl⟩ : ∃ k, fuel = k + 1 := ⟨fuel - 1, by omega⟩
      have hloop := copyAll_spec fuel h cpy ⟨none, nil, value, [], p⟩ [] ids children (by omega)
        hchildren
      simp only [List.nil_append, List.length_nil, Nat.add_zero] at hloop
      rw [copy, hid]
      simp only [hloop, Option.map_some, layout]

theorem copyAll_spec (fuel : Nat) (h : Heap) (cpy : Nat) (node : Node) (done : Heap)
    (ids : List Nat) (trees : List Imapparsefmt) (hfuel : sizeAll trees ≤ fuel)
    (htrees : HoldsAll h cpy ids trees) :
    ids.foldlM (fun g b =>
        (copy fuel g b).map fun (g, ptr) =>
          addChildren (g.modify ptr fun n => { n with parent := some h.length }) h.length [ptr])
        (h ++ node :: done) =
      some (h ++ { node with
          children := node.children ++ idsFrom (h.length + 1 + done.length) trees } ::
        (done ++ layoutAll h.length (h.length + 1 + done.length) trees)) := by
  cases trees with
  | nil =>
      rw [HoldsAll] at htrees
      subst htrees
      simp [idsFrom, layoutAll]
  | cons t trees =>
      rw [sizeAll] at hfuel
      rw [HoldsAll] at htrees
      obtain ⟨id, rest, rfl, ht, hrest⟩ := htrees
      have hlength : (h ++ node :: done).length = h.length + 1 + done.length := by
        rw [List.length_append, List.length_cons]
        omega
      have hfirst := copy_spec fuel (h ++ node :: done) (some cpy) id t (by omega)
        (Holds.mono (keeps_append h _) _ _ _ ht)
      obtain ⟨root, below, hroot, hroot'⟩ :=
        layout_parent (some cpy) (some h.length) (h ++ node :: done).length t
      have hparent : ((h ++ node :: done) ++ layout (some cpy) (h ++ node :: done).length t).modify
            (h ++ node :: done).length (fun n => { n with parent := some h.length }) =
          (h ++ node :: done) ++ layout (some h.length) (h ++ node :: done).length t := by
        rw [hroot, hroot', modify_append_right]
      have hpush : addChildren ((h ++ node :: done) ++
            layout (some h.length) (h ++ node :: done).length t) h.length
              [(h ++ node :: done).length] =
          h ++ { node with children := node.children ++ [h.length + 1 + done.length] } ::
            (done ++ layout (some h.length) (h.length + 1 + done.length) t) := by
        rw [hlength, List.append_assoc, addChildren]
        exact modify_append_right h node _ _
      have hnext := copyAll_spec fuel h cpy
        { node with children := node.children ++ [h.length + 1 + done.length] }
        (done ++ layout (some h.length) (h.length + 1 + done.length) t) rest trees (by omega) hrest
      rw [List.length_append, length_layout, ← Nat.add_assoc] at hnext
      have hstep : ((copy fuel (h ++ node :: done) id).map fun (g, ptr) =>
            addChildren (g.modify ptr fun n => { n with parent := some h.length }) h.length [ptr]) =
          some (h ++ { node with children := node.children ++ [h.length + 1 + done.length] } ::
            (done ++ layout (some h.length) (h.length + 1 + done.length) t)) := by
        rw [hfirst, Option.map_some, Option.some.injEq]
        exact (congrArg (fun g => addChildren g h.length [(h ++ node :: done).length])
          hparent).trans hpush
      rw [List.foldlM_cons, hstep]
      refine hnext.trans ?_
      rw [idsFrom, layoutAll]
      simp only [List.append_assoc, List.singleton_append]

end

end CopySpec

section Main

/-- The copy is a tree of its own: changes of the one are none of the other. -/
def Independent (h g : Heap) (this copied : Nat) (t : Imapparsefmt) : Prop :=
  (∀ g' : Heap, (∀ i < h.length, g'[i]? = g[i]?) → Holds g' none this t) ∧
    ∀ g' : Heap, (∀ i ≥ h.length, g'[i]? = g[i]?) → Holds g' none copied t

theorem copy_independent {h : Heap} {this : Nat} {t : Imapparsefmt} (ht : Holds h none this t)
    (hsize : size t ≤ h.length) :
    ∃ g copied, copy h.length h this = some (g, copied) ∧ Holds g none copied t ∧
      Independent h g this copied t := by
  refine ⟨_, _, copy_spec h.length h none this t hsize ht, ?_, ?_, ?_⟩
  · have hcopied := holds_layout h [] none t
    rwa [List.append_nil] at hcopied
  · intro g' hg'
    refine Holds.mono ?_ none this t ht
    intro i n hi
    have hlt := (List.getElem?_eq_some_iff.1 hi).1
    rw [hg' i hlt, List.getElem?_append_left hlt, hi]
  · intro g' hg'
    have hpos : 0 < (layout none h.length t).length := by
      cases t with
      | mk nil value children => exact Nat.succ_pos _
    have hlt : h.length < g'.length := by
      have hroot := hg' h.length (Nat.le_refl _)
      rw [List.getElem?_append_right (Nat.le_refl _), Nat.sub_self,
        List.getElem?_eq_getElem hpos] at hroot
      exact (List.getElem?_eq_some_iff.1 hroot).1
    have hdrop : g'.drop h.length = layout none h.length t := by
      refine List.ext_getElem? fun i => ?_
      rw [List.getElem?_drop, hg' _ (Nat.le_add_right _ _),
        List.getElem?_append_right (Nat.le_add_right _ _), Nat.add_sub_cancel_left]
    have hcopied := holds_layout (g'.take h.length) [] none t
    rwa [List.length_take_of_le (Nat.le_of_lt hlt), List.append_nil, ← hdrop,
      List.take_append_drop] at hcopied

/-- Once a value is complete, the next token begins another. -/
theorem imapparsefmt_reads_values (h : Heap) (this : Nat) (hthis : this < h.length) :
    (∀ v : Value, ∃ left, run (begin h this) this v.tokens =
        (left, List.replicate (v.tokens.length - 1) (false, false) ++ [(true, false)]) ∧
      Holds left none this v.tree ∧
      ∃ g copied, copy left.length left this = some (g, copied) ∧ Holds g none copied v.tree ∧
        Independent left g this copied v.tree) ∧
      ∀ (ts : List Token) (t : Token), Unfinished ts → ¬Starts (ts ++ [t]) →
        (run (begin h this) this (ts ++ [t])).2 =
          List.replicate ts.length (false, false) ++ [(true, true)] := by
  refine ⟨fun v => ?_, fun ts t hts ht => run_offending hthis hts ht⟩
  obtain ⟨left, hrun, hholds, hsize⟩ := run_tokens hthis v
  exact ⟨left, hrun, hholds, copy_independent hholds hsize⟩

/-- `(A (NIL))` -/
theorem imapparsefmt_reads_values_one :
    ∃ left, run (begin [imapparsefmt] 0) 0
        (Value.list [.atom (str "A"), .list [.nil]]).tokens =
        (left, List.replicate 5 (false, false) ++ [(true, false)]) ∧
      Holds left none 0 (Value.list [.atom (str "A"), .list [.nil]]).tree := by
  obtain ⟨hvalues, -⟩ := imapparsefmt_reads_values [imapparsefmt] 0 Nat.one_pos
  obtain ⟨left, hrun, hholds, -⟩ := hvalues (.list [.atom (str "A"), .list [.nil]])
  exact ⟨left, hrun, hholds⟩

/-- Nothing is wrong with `NIL NIL NIL`. -/
theorem no_error_behind_value :
    ¬Starts [.NIL, .NIL] ∧ Starts [.NIL] ∧
      (run (begin [imapparsefmt] 0) 0 [.NIL, .NIL, .NIL]).2 =
        [(true, false), (true, false), (true, false)] := by
  refine ⟨?_, ⟨.nil, by rw [Value.tokens]⟩, by decide⟩
  rintro ⟨v, hv⟩
  cases v with
  | nil => exact absurd hv.length_le (by simp [Value.tokens])
  | atom text => exact absurd hv.length_le (by simp [Value.tokens])
  | string text => exact absurd hv.length_le (by simp [Value.tokens])
  | list values =>
      rw [Value.tokens, List.cons_prefix_cons] at hv
      exact absurd hv.1 nofun

end Main
end Cone.ImapparsefmtReads
