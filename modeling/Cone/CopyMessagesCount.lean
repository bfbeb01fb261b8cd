import Cone.CopyMessages

/-! # The copies that are in progress

`inProgress` counts the copies, without the one whose `copy` has not returned.  As long as no copy
completes inside another one's `copy`, what `doSomething` reads of it is right. -/
set_option autoImplicit false
namespace Cone.CopyMessages

open Cone.Ctype Cone.Lib.Decimal

section Spares
variable {F : Type}

/-- A call of `copyMessage::copy` has not returned. -/
def Copying (s : State F) : Prop := ∃ message, Frame.copy message ∈ s.stack

def Completes (s : State F) : Event F → Prop
  | .fetchSuccess id => (∃ c, s.copies[id]? = some c ∧ c.fetch = some .fetchText) ∧
      (s.copyTo = false ∨ s.copyFrom = false)
  | .fetchFail _ _ | .addSuccess _ _ | .addFail _ _ => True
  | _ => False

/-- Inside `copy` a copy ends only if no other one is in progress, the message keeps its number
until `readMessageContent` is called, and an error has a text. -/
structure Spares (s : State F) (e : Event F) : Prop where
  alone : Completes s e → Copying s → s.inProgress = 0
  attributes : ∀ id c, e = .fetchSuccess id → s.copies[id]? = some c →
    c.fetch = some .fetchText → s.copyTo = true → s.copyFrom = true →
    unchanged s.folder c.messageNum c.messageInfo.uid = true
  content : ∀ id stack c, e = .returned false → s.stack = .addMessage id :: stack →
    s.copies[id]? = some c → c.adding = some .addMessage →
    unchanged s.folder c.messageNum c.messageInfo.uid = true
  message : ∀ id message, e = .fetchFail id message ∨ e = .addFail id message → message ≠ []

inductive Reaches (folder₀ : List (MessageInfo F)) (messages : List Nat) : State F → Prop
  | copy : Reaches folder₀ messages (copy folder₀ messages)
  | step {s s' : State F} {e : Event F} : Reaches folder₀ messages s → step s e = some s' →
      Spares s e → Reaches folder₀ messages s'

def CopyMessage.key (c : CopyMessage F) : Nat × Text := (c.messageNum, c.messageInfo.uid)

def live (s : State F) : Nat := s.copies.countP CopyMessage.alive

def isCopy : Frame → Bool
  | .copy _ => true
  | _ => false

def copying (s : State F) : Nat := s.stack.countP isCopy

def Owns (adds : List (AddMessage F)) (id : Nat) (c : CopyMessage F) : Prop :=
  c.reading = some c.messageInfo.uid ∧
    ∃ add a, c.addMessagePtr = some add ∧ adds[add]? = some a ∧ a.owner = id

/-- Where a copy stands, and that exactly one thing is to happen next. -/
inductive Stage (adds : List (AddMessage F)) (stack : List Frame) (id : Nat) (c : CopyMessage F) :
    Prop
  | attributes (alive : c.alive = true) (copied : c.copied = false) (runLater : c.runLater = false)
      (fetch : c.fetch = some .fetchText) (adding : c.adding = none)
      (addMessagePtr : c.addMessagePtr = none)
  | addMessage (alive : c.alive = true) (copied : c.copied = false) (runLater : c.runLater = false)
      (fetch : c.fetch = none) (addMessagePtr : c.addMessagePtr = none)
      (adding : c.adding = some .refused ∨ c.adding = some .addMessage ∧ .addMessage id ∈ stack)
  | content (alive : c.alive = true) (copied : c.copied = false) (runLater : c.runLater = false)
      (fetch : c.fetch = some .fetchCompleted) (adding : c.adding = some .opened)
      (owns : Owns adds id c)
  | runLater (alive : c.alive = true) (copied : c.copied = false) (runLater : c.runLater = true)
      (fetch : c.fetch = none) (adding : c.adding = some .opened) (owns : Owns adds id c)
  | going (alive : c.alive = true) (copied : c.copied = false) (runLater : c.runLater = false)
      (fetch : c.fetch = none) (adding : c.adding = some .going) (owns : Owns adds id c)
  | destroyed (alive : c.alive = false) (runLater : c.runLater = false) (fetch : c.fetch = none)
      (adding : c.adding = none) (addMessagePtr : c.addMessagePtr = none)

structure Core (todo₀ : List (Nat × Text)) (s : State F) : Prop where
  fine : s.misused = false
  stages : ∀ id c, s.copies[id]? = some c → Stage s.adds s.stack id c
  adds : ∀ a ∈ s.adds, ∃ c, s.copies[a.owner]? = some c ∧ a.messageInfo = c.messageInfo ∧
    ∀ x ∈ a.contents, x.1 = a.owner ∧ x.2.1 = some c.messageInfo.uid
  frames : ∀ id, Frame.addMessage id ∈ s.stack → id < s.copies.length
  order : (s.copies.map CopyMessage.key ++ s.todo).Sublist todo₀
  all : s.failMessage = [] → s.copies.map CopyMessage.key ++ s.todo = todo₀ ∧
    ∀ c ∈ s.copies, c.alive = true ∨ c.copied = true
  lost : s.failMessage ≠ [] → (∃ c ∈ s.copies, c.alive = false ∧ c.copied = false) ∨
    s.copies.length + s.todo.length < todo₀.length

def Counted (s : State F) : Prop :=
  live s ≤ 2 ∧ (copying s = 0 ∧ s.inProgress = UInt64.ofNat (live s) ∨
    copying s = 1 ∧ s.inProgress + 1 = UInt64.ofNat (live s))

structure Inv (todo₀ : List (Nat × Text)) (s : State F) : Prop extends Core todo₀ s where
  counted : Counted s
  opened : s.alive = true → s.results = [] ∧
    (s.runLater = true ∧ s.copies = [] ∧ s.stack = [] ∨
      s.runLater = false ∧ (copying s = 1 ∨ 0 < live s))
  closed : s.alive = false → s.runLater = false ∧ live s = 0 ∧ copying s = 0 ∧
    ∃ r, s.results = [r] ∧ ((∃ message, r = .success message) ↔ s.failMessage = []) ∧
      (s.failMessage = [] → s.todo = [])

end Spares

section Steps
variable {F : Type} {todo₀ : List (Nat × Text)} {s : State F} {id : Nat} {c : CopyMessage F}

/-- Nobody is in the middle of `doSomething`. -/
structure Ready (todo₀ : List (Nat × Text)) (s : State F) : Prop extends Core todo₀ s where
  alive : s.alive = true
  runLater : s.runLater = false
  results : s.results = []
  copying : copying s = 0
  inProgress : s.inProgress = UInt64.ofNat (live s)
  two : live s ≤ 2

theorem ofNat_eq_zero {n : Nat} (hn : n ≤ 2) : UInt64.ofNat n = 0 ↔ n = 0 := by
  obtain rfl | rfl | rfl : n = 0 ∨ n = 1 ∨ n = 2 := by omega
  · decide
  · decide
  · decide

theorem finish_inv (h : Ready todo₀ s) (message : Text)
    (hloop : s.inProgress = 0 → s.failMessage ≠ [] ∨ s.todo = []) : Inv todo₀ (finish message s) := by
  rw [finish]
  by_cases hz : s.inProgress = 0
  · have hlive : live s = 0 := by
      rw [h.inProgress] at hz
      exact (ofNat_eq_zero h.two).mp hz
    have hcounted : live s ≤ 2 ∧ (copying s = 0 ∧ s.inProgress = UInt64.ofNat (live s) ∨
        copying s = 1 ∧ s.inProgress + 1 = UInt64.ofNat (live s)) :=
      ⟨h.two, Or.inl ⟨h.copying, h.inProgress⟩⟩
    rw [if_pos ⟨hz, hloop hz⟩]
    by_cases hfail : s.failMessage ≠ []
    · have hne : (if s.copiedCount > 0 then
          s.failMessage ++ str " (" ++ decimal s.copiedCount ++ str " message(s) copied)"
          else s.failMessage) ≠ [] := by
        split
        · simp [hfail]
        · exact hfail
      rw [if_pos hfail]
      dsimp only
      constructor
      case toCore =>
        exact ⟨h.fine, h.stages, h.adds, h.frames, h.order, fun h' => absurd h' hne,
          fun _ => h.lost hfail⟩
      case counted => exact hcounted
      case opened => exact fun h' => nomatch h'
      case closed =>
        intro _
        refine ⟨h.runLater, hlive, h.copying, _, by rw [h.results]; rfl, ?_, fun h' => absurd h' hne⟩
        apply iff_of_false
        · intro hsuccess
          obtain ⟨m, hm⟩ := hsuccess
          cases hm
        · exact hne
    · rw [if_neg hfail]
      have hnil : s.failMessage = [] := not_not.mp hfail
      constructor
      case toCore => exact ⟨h.fine, h.stages, h.adds, h.frames, h.order, h.all, h.lost⟩
      case counted => exact hcounted
      case opened => exact fun h' => nomatch h'
      case closed =>
        intro _
        refine ⟨h.runLater, hlive, h.copying, _, by rw [h.results]; rfl, ?_, ?_⟩
        · exact iff_of_true ⟨message, rfl⟩ hnil
        · intro _
          exact (hloop hz).resolve_left hfail
  · rw [if_neg (fun hc => hz hc.1)]
    have hpos : 0 < live s := by
      rw [h.inProgress] at hz
      have := (ofNat_eq_zero h.two).not.mp hz
      omega
    constructor
    case toCore => exact h.toCore
    case counted => exact ⟨h.two, Or.inl ⟨h.copying, h.inProgress⟩⟩
    case opened => exact fun _ => ⟨h.results, Or.inr ⟨h.runLater, Or.inr hpos⟩⟩
    case closed =>
      intro h'
      rw [h.alive] at h'
      cases h'

theorem Stage.mono {adds adds' : List (AddMessage F)} {stack stack' : List Frame}
    (h : Stage adds stack id c)
    (hstack : c.adding = some .addMessage → Frame.addMessage id ∈ stack →
      Frame.addMessage id ∈ stack')
    (hadds : ∀ (n : Nat) a, adds[n]? = some a → ∃ a', adds'[n]? = some a' ∧ a'.owner = a.owner) :
    Stage adds' stack' id c := by
  have hown : Owns adds id c → Owns adds' id c := by
    intro howns
    obtain ⟨hreading, add, a, hptr, ha, howner⟩ := howns
    obtain ⟨a', ha', howner'⟩ := hadds add a ha
    exact ⟨hreading, add, a', hptr, ha', howner'.trans howner⟩
  cases h with
  | attributes h₁ h₂ h₃ h₄ h₅ h₆ => exact .attributes h₁ h₂ h₃ h₄ h₅ h₆
  | addMessage h₁ h₂ h₃ h₄ h₅ h₆ =>
      apply Stage.addMessage h₁ h₂ h₃ h₄ h₅
      obtain h₆ | ⟨h₆, hin⟩ := h₆
      · exact Or.inl h₆
      · exact Or.inr ⟨h₆, hstack h₆ hin⟩
  | content h₁ h₂ h₃ h₄ h₅ h₆ => exact .content h₁ h₂ h₃ h₄ h₅ (hown h₆)
  | runLater h₁ h₂ h₃ h₄ h₅ h₆ => exact .runLater h₁ h₂ h₃ h₄ h₅ (hown h₆)
  | going h₁ h₂ h₃ h₄ h₅ h₆ => exact .going h₁ h₂ h₃ h₄ h₅ (hown h₆)
  | destroyed h₁ h₂ h₃ h₄ h₅ => exact .destroyed h₁ h₂ h₃ h₄ h₅

theorem Stage.push {adds : List (AddMessage F)} {stack : List Frame} (h : Stage adds stack id c)
    (frame : Frame) : Stage adds (frame :: stack) id c :=
  h.mono (fun _ => List.mem_cons_of_mem frame) fun _ a ha => ⟨a, ha, rfl⟩

theorem Core.drop_todo {todo : List (Nat × Text)} {entry : Nat × Text} {failMessage : Text}
    (h : Core todo₀ s) (htodo : s.todo = entry :: todo) (hmsg : failMessage ≠ []) :
    Core todo₀ { s with todo := todo, failMessage := failMessage } := by
  have hlen := h.order.length_le
  rw [htodo, List.length_append, List.length_map, List.length_cons] at hlen
  refine ⟨h.fine, h.stages, h.adds, h.frames, ?_, fun h' => absurd h' hmsg, fun _ => ?_⟩
  · apply List.Sublist.trans _ h.order
    rw [htodo]
    exact (List.Sublist.refl _).append (List.sublist_cons_self _ _)
  · apply Or.inr
    dsimp only
    omega

theorem Core.start {todo : List (Nat × Text)} {messageNum : Nat} {messageInfo : MessageInfo F}
    {message : Text} (h : Core todo₀ s) (htodo : s.todo = (messageNum, messageInfo.uid) :: todo) :
    Core todo₀
      { s with
        todo := todo
        copies := s.copies ++ [copyMessage messageNum messageInfo]
        stack := .copy message :: s.stack } := by
  have hlist : (s.copies ++ [copyMessage messageNum messageInfo]).map CopyMessage.key ++ todo =
      s.copies.map CopyMessage.key ++ s.todo := by
    rw [htodo, List.map_append, List.append_assoc]
    rfl
  constructor
  case fine => exact h.fine
  case stages =>
    intro id c hc
    rw [List.getElem?_append] at hc
    split at hc
    · exact (h.stages id c hc).push _
    · obtain ⟨_, hc⟩ := List.getElem?_eq_some_iff.mp hc
      rw [List.getElem_singleton] at hc
      rw [← hc]
      exact .attributes rfl rfl rfl rfl rfl rfl
  case adds =>
    intro a ha
    obtain ⟨c, hc, hrest⟩ := h.adds a ha
    refine ⟨c, ?_, hrest⟩
    rw [List.getElem?_append_left (List.getElem?_eq_some_iff.mp hc).1]
    exact hc
  case frames =>
    intro id hid
    rw [List.length_append]
    obtain hid | hid := List.mem_cons.mp hid
    · cases hid
    · exact Nat.lt_add_right _ (h.frames id hid)
  case order =>
    dsimp only
    rw [hlist]
    exact h.order
  case all =>
    intro hnil
    obtain ⟨hkeys, hdone⟩ := h.all hnil
    constructor
    · dsimp only
      rw [hlist, hkeys]
    · intro c hc
      obtain hc | hc := List.mem_append.mp hc
      · exact hdone c hc
      · rw [List.mem_singleton.mp hc]
        exact Or.inl rfl
  case lost =>
    intro hne
    obtain hl | hl := h.lost hne
    · obtain ⟨c, hc, hrest⟩ := hl
      exact Or.inl ⟨c, List.mem_append_left _ hc, hrest⟩
    · apply Or.inr
      rw [htodo, List.length_cons] at hl
      rw [List.length_append, List.length_singleton]
      dsimp only
      omega

theorem uint64_lt_two {n : Nat} (hn : n ≤ 2) : UInt64.ofNat n < 2 ↔ n < 2 := by
  obtain rfl | rfl | rfl : n = 0 ∨ n = 1 ∨ n = 2 := by omega
  · decide
  · decide
  · decide

theorem doSomething_inv (h : Ready todo₀ s) (message : Text) :
    Inv todo₀ (doSomething message s) := by
  rw [doSomething]
  split
  · rename_i messageNum uid todo htodo
    by_cases hgo : s.inProgress < 2 ∧ s.failMessage = []
    · rw [if_pos hgo]
      have hdrop {m : Text} (hm : m ≠ []) :
          Inv todo₀ (finish message { s with todo := todo, failMessage := m }) :=
        finish_inv ⟨h.toCore.drop_todo htodo hm, h.alive, h.runLater, h.results, h.copying,
          h.inProgress, h.two⟩ message fun _ => Or.inl hm
      split
      · exact hdrop (by decide)
      · split
        · rename_i messageInfo hinfo
          split
          · rename_i huid
            have hlt : live s < 2 := by
              have hlt := hgo.1
              rw [h.inProgress] at hlt
              exact (uint64_lt_two h.two).mp hlt
            have hlive : live { s with
                todo := todo
                copies := s.copies ++ [copyMessage messageNum messageInfo]
                stack := .copy message :: s.stack } = live s + 1 := by
              rw [live, List.countP_append]
              rfl
            have hcopying : s.stack.countP isCopy = 0 := h.copying
            constructor
            case toCore => exact h.toCore.start (by rw [htodo, huid])
            case counted =>
              rw [Counted, hlive]
              apply And.intro (by omega)
              apply Or.inr
              constructor
              · rw [copying, List.countP_cons, hcopying]
                rfl
              · dsimp only
                rw [h.inProgress, UInt64.ofNat_add]
                rfl
            case opened =>
              intro _
              refine ⟨h.results, Or.inr ⟨h.runLater, Or.inl ?_⟩⟩
              rw [copying, List.countP_cons, hcopying]
              rfl
            case closed =>
              intro h'
              rw [show s.alive = true from h.alive] at h'
              cases h'
          · exact hdrop (by decide)
        · exact hdrop (by decide)
    · rw [if_neg hgo]
      apply finish_inv h message
      intro hz
      apply Or.inl
      intro hnil
      apply hgo
      rw [hz]
      exact ⟨by decide, hnil⟩
  · rename_i htodo
    exact finish_inv h message fun _ => Or.inr htodo

end Steps

section Put
variable {F : Type} {todo₀ : List (Nat × Text)} {s : State F} {id : Nat} {c e : CopyMessage F}

def put (id : Nat) (c : CopyMessage F) (s : State F) : State F :=
  { s with copies := s.copies.set id c }

theorem modify_eq_put (hc : s.copies[id]? = some c) (f : CopyMessage F → CopyMessage F) :
    modify id f s = put id (f c) s := by
  rw [modify, put]
  congr 1
  apply List.ext_getElem?
  intro k
  rw [List.getElem?_modify, List.getElem?_set]
  have hlt := (List.getElem?_eq_some_iff.mp hc).1
  by_cases hk : id = k
  · rw [← hk, hc, if_pos rfl, if_pos hlt]
    change some (if id = id then f c else c) = some (f c)
    rw [if_pos rfl]
  · rw [if_neg hk]
    cases s.copies[k]? with
    | none => rfl
    | some d =>
        change some (if id = k then f d else d) = some d
        rw [if_neg hk]

theorem getElem?_put (hc : s.copies[id]? = some c) : (put id e s).copies[id]? = some e :=
  List.getElem?_set_self (List.getElem?_eq_some_iff.mp hc).1

theorem modify_put (hc : s.copies[id]? = some c) (f : CopyMessage F → CopyMessage F) :
    modify id f (put id e s) = put id (f e) s := by
  rw [modify_eq_put (getElem?_put hc), put, put, put]
  dsimp only
  rw [List.set_set]

theorem keys_put (hc : s.copies[id]? = some c) (hkey : e.key = c.key) :
    (put id e s).copies.map CopyMessage.key = s.copies.map CopyMessage.key := by
  rw [put]
  dsimp only
  rw [List.map_set, hkey]
  obtain ⟨hlt, rfl⟩ := List.getElem?_eq_some_iff.mp hc
  apply List.ext_getElem?
  intro k
  rw [List.getElem?_set, List.length_map, List.getElem?_map]
  by_cases hk : id = k
  · rw [if_pos hk, if_pos hlt, ← hk, hc]
    rfl
  · rw [if_neg hk]

theorem getElem?_put_cases {k : Nat} {d : CopyMessage F}
    (hd : (put id e s).copies[k]? = some d) :
    k = id ∧ d = e ∨ k ≠ id ∧ s.copies[k]? = some d := by
  rw [put] at hd
  dsimp only at hd
  by_cases hk : id = k
  · rw [List.getElem?_set, if_pos hk] at hd
    split at hd
    · exact Or.inl ⟨hk.symm, (Option.some.inj hd).symm⟩
    · cases hd
  · rw [List.getElem?_set_ne hk] at hd
    exact Or.inr ⟨fun h => hk h.symm, hd⟩

theorem live_put (hc : s.copies[id]? = some c) :
    live (put id e s) + (if c.alive then 1 else 0) = live s + if e.alive then 1 else 0 := by
  obtain ⟨hlt, hget⟩ := List.getElem?_eq_some_iff.mp hc
  rw [live, put]
  dsimp only
  rw [List.countP_set hlt, hget]
  have hpos : (if c.alive then 1 else 0) ≤ live s := by
    split
    · rename_i halive
      apply List.countP_pos_iff.mpr
      exact ⟨c, List.mem_of_getElem? hc, halive⟩
    · exact Nat.zero_le _
  rw [live] at hpos ⊢
  omega

/-- A step of one copy, which neither ends it nor starts another one. -/
theorem Core.put {adds : List (AddMessage F)} {stack : List Frame} (h : Core todo₀ s)
    (hc : s.copies[id]? = some c) (hkey : e.messageNum = c.messageNum)
    (hinfo : e.messageInfo = c.messageInfo) (halive : e.alive = c.alive)
    (hcopied : e.copied = c.copied) (hstage : Stage adds stack id e)
    (hstack : ∀ k, k ≠ id → Frame.addMessage k ∈ s.stack → Frame.addMessage k ∈ stack)
    (hframes : ∀ k, Frame.addMessage k ∈ stack → k = id ∨ Frame.addMessage k ∈ s.stack)
    (howner : ∀ (n : Nat) a, s.adds[n]? = some a → ∃ a', adds[n]? = some a' ∧ a'.owner = a.owner)
    (hadds : ∀ a ∈ adds, ∃ d, (put id e s).copies[a.owner]? = some d ∧
      a.messageInfo = d.messageInfo ∧
      ∀ x ∈ a.contents, x.1 = a.owner ∧ x.2.1 = some d.messageInfo.uid) :
    Core todo₀ { put id e s with adds := adds, stack := stack } := by
  have hlt := (List.getElem?_eq_some_iff.mp hc).1
  have hkeys := keys_put hc (e := e) (by rw [CopyMessage.key, CopyMessage.key, hkey, hinfo])
  have hlen : (Cone.CopyMessages.put id e s).copies.length = s.copies.length :=
    List.length_set
  constructor
  case fine => exact h.fine
  case stages =>
    intro k d hd
    obtain ⟨hk, rfl⟩ | ⟨hk, hd⟩ := getElem?_put_cases hd
    · rw [hk]
      exact hstage
    · exact (h.stages k d hd).mono (fun _ => hstack k hk) howner
  case adds => exact hadds
  case frames =>
    intro k hk
    obtain hk | hk := hframes k hk
    · rw [hk]
      exact hlen ▸ hlt
    · exact hlen ▸ h.frames k hk
  case order =>
    dsimp only
    rw [hkeys]
    exact h.order
  case all =>
    intro hnil
    obtain ⟨hall, hdone⟩ := h.all hnil
    constructor
    · dsimp only
      rw [hkeys]
      exact hall
    · intro d hd
      obtain ⟨k, hk⟩ := List.mem_iff_getElem?.mp hd
      obtain ⟨_, rfl⟩ | ⟨_, hd'⟩ := getElem?_put_cases hk
      · rw [halive, hcopied]
        exact hdone c (List.mem_of_getElem? hc)
      · exact hdone d (List.mem_of_getElem? hd')
  case lost =>
    intro hne
    obtain hl | hl := h.lost hne
    · obtain ⟨d, hd, hdead⟩ := hl
      apply Or.inl
      obtain ⟨k, hk⟩ := List.mem_iff_getElem?.mp hd
      by_cases hki : k = id
      · rw [hki, hc] at hk
        cases hk
        exact ⟨e, List.mem_of_getElem? (getElem?_put hc), by rw [halive, hcopied]; exact hdead⟩
      · apply Exists.intro d
        apply And.intro _ hdead
        apply List.mem_of_getElem? (i := k)
        rw [Cone.CopyMessages.put]
        dsimp only
        rw [List.getElem?_set_ne (fun h => hki h.symm)]
        exact hk
    · apply Or.inr
      dsimp only
      rw [hlen]
      exact hl

theorem Core.adds_put (h : Core todo₀ s) (hc : s.copies[id]? = some c)
    (hinfo : e.messageInfo = c.messageInfo) :
    ∀ a ∈ s.adds, ∃ d, (Cone.CopyMessages.put id e s).copies[a.owner]? = some d ∧
      a.messageInfo = d.messageInfo ∧
      ∀ x ∈ a.contents, x.1 = a.owner ∧ x.2.1 = some d.messageInfo.uid := by
  intro a ha
  obtain ⟨d, hd, hrest⟩ := h.adds a ha
  by_cases hk : a.owner = id
  · rw [hk, hc] at hd
    cases hd
    rw [hk] at hrest ⊢
    refine ⟨e, getElem?_put hc, ?_⟩
    rw [hinfo]
    exact hrest
  · refine ⟨d, ?_, hrest⟩
    rw [Cone.CopyMessages.put]
    dsimp only
    rw [List.getElem?_set_ne (fun h => hk h.symm)]
    exact hd

/-- The copy after its `delete this`. -/
def CopyMessage.ended (c : CopyMessage F) (copied : Bool) : CopyMessage F :=
  { c with
    fetch := none
    addMessagePtr := none
    adding := none
    runLater := false
    alive := false
    copied := copied }

theorem Core.ended {copied : Bool} {n : Nat} {k : UInt64} {m : Text} (h : Core todo₀ s)
    (hc : s.copies[id]? = some c) (halive : c.alive = true)
    (hm : copied = true ∧ m = s.failMessage ∨ copied = false ∧ m ≠ []) :
    Core todo₀
      { Cone.CopyMessages.put id (c.ended copied) s with
        inProgress := k
        copiedCount := n
        failMessage := m } := by
  have hkeys := keys_put (e := c.ended copied) hc rfl
  have hlen : (Cone.CopyMessages.put id (c.ended copied) s).copies.length = s.copies.length :=
    List.length_set
  have hget := getElem?_put (e := c.ended copied) hc
  constructor
  case fine => exact h.fine
  case stages =>
    intro k d hd
    obtain ⟨_, rfl⟩ | ⟨_, hd⟩ := getElem?_put_cases hd
    · exact .destroyed rfl rfl rfl rfl rfl
    · exact h.stages k d hd
  case adds => exact h.adds_put hc rfl
  case frames =>
    intro k hk
    exact hlen ▸ h.frames k hk
  case order =>
    dsimp only
    rw [hkeys]
    exact h.order
  case all =>
    intro hnil
    obtain ⟨hc', hm⟩ | ⟨_, hm⟩ := hm
    · have hnil' : s.failMessage = [] := hm ▸ hnil
      obtain ⟨hall, hdone⟩ := h.all hnil'
      constructor
      · dsimp only
        rw [hkeys]
        exact hall
      · intro d hd
        obtain ⟨j, hj⟩ := List.mem_iff_getElem?.mp hd
        obtain ⟨_, rfl⟩ | ⟨_, hd'⟩ := getElem?_put_cases hj
        · exact Or.inr hc'
        · exact hdone d (List.mem_of_getElem? hd')
    · exact absurd hnil hm
  case lost =>
    intro hne
    obtain ⟨_, hm⟩ | ⟨hc', _⟩ := hm
    · have hne' : s.failMessage ≠ [] := hm ▸ hne
      obtain hl | hl := h.lost hne'
      · obtain ⟨d, hd, hdead⟩ := hl
        obtain ⟨j, hj⟩ := List.mem_iff_getElem?.mp hd
        apply Or.inl
        apply Exists.intro d
        apply And.intro _ hdead
        apply List.mem_of_getElem? (i := j)
        rw [Cone.CopyMessages.put]
        dsimp only
        rw [List.getElem?_set_ne]
        · exact hj
        · intro heq
          rw [← heq, hc] at hj
          cases hj
          rw [halive] at hdead
          cases hdead.1
      · apply Or.inr
        dsimp only
        rw [hlen]
        exact hl
    · exact Or.inl ⟨_, List.mem_of_getElem? hget, rfl, hc'⟩

theorem doSomething_of_wrapped (message : Text) (h : ¬ s.inProgress < 2) (hz : s.inProgress ≠ 0) :
    doSomething message s = s := by
  have hfinish : finish message s = s := by
    rw [finish, if_neg (fun hc => hz hc.1)]
  rw [doSomething]
  split
  · rw [if_neg (fun hc => h hc.1), hfinish]
  · exact hfinish

theorem uint64_sub_one {n : Nat} (hn : n ≤ 2) (hpos : 0 < n) :
    UInt64.ofNat n - 1 = UInt64.ofNat (n - 1) := by
  obtain rfl | rfl : n = 1 ∨ n = 2 := by omega
  · decide
  · decide

theorem copying_pos : 0 < copying s ↔ Copying s := by
  rw [copying, List.countP_pos_iff]
  constructor
  · intro h
    obtain ⟨f, hf, hcopy⟩ := h
    cases f with
    | copy message => exact ⟨message, hf⟩
    | addMessage id => cases hcopy
    | tail => cases hcopy
  · intro h
    obtain ⟨message, hf⟩ := h
    exact ⟨_, hf, rfl⟩

theorem live_pos (hc : s.copies[id]? = some c) (halive : c.alive = true) : 0 < live s :=
  List.countP_pos_iff.mpr ⟨c, List.mem_of_getElem? hc, halive⟩

theorem Inv.alive_of_live (h : Inv todo₀ s) (hpos : 0 < live s) :
    s.alive = true ∧ s.results = [] ∧ s.runLater = false := by
  have halive : s.alive = true := by
    by_contra hdead
    have := (h.closed (Bool.of_not_eq_true hdead)).2.1
    omega
  apply And.intro halive
  obtain ⟨hres, hopen⟩ := h.opened halive
  apply And.intro hres
  obtain ⟨_, hnone, _⟩ | ⟨hlater, _⟩ := hopen
  · rw [live, hnone] at hpos
    cases hpos
  · exact hlater

theorem inv_ended {copied : Bool} {n : Nat} {m message : Text} (h : Inv todo₀ s)
    (hc : s.copies[id]? = some c) (halive : c.alive = true)
    (hm : copied = true ∧ m = s.failMessage ∨ copied = false ∧ m ≠ [])
    (halone : Copying s → s.inProgress = 0) :
    Inv todo₀ (doSomething message
      { Cone.CopyMessages.put id (c.ended copied) s with
        inProgress := s.inProgress - 1
        copiedCount := n
        failMessage := m }) := by
  have hcore := h.toCore.ended (n := n) (k := s.inProgress - 1) hc halive hm
  have hpos := live_pos hc halive
  obtain ⟨hopen, hres, hlater⟩ := h.alive_of_live hpos
  have hlive := live_put (e := c.ended copied) hc
  rw [halive, if_pos rfl, CopyMessage.ended, if_neg Bool.false_ne_true, Nat.add_zero] at hlive
  have hlive' : live { Cone.CopyMessages.put id (c.ended copied) s with
      inProgress := s.inProgress - 1
      copiedCount := n
      failMessage := m } = live s - 1 := Nat.eq_sub_of_add_eq hlive
  obtain ⟨htwo, ⟨hzero, hin⟩ | ⟨hone, hin⟩⟩ := h.counted
  · apply doSomething_inv
    exact ⟨hcore, hopen, hlater, hres, hzero, by
      dsimp only
      rw [hlive', hin]
      exact uint64_sub_one htwo hpos, by
      rw [hlive']
      omega⟩
  · -- inside `copy` the count wraps, and the callback does nothing
    have hz := halone (copying_pos.mp (by omega))
    have hlone : live s = 1 := by
      rw [hz] at hin
      obtain h₁ | h₂ : live s = 1 ∨ live s = 2 := by omega
      · exact h₁
      · rw [h₂] at hin
        exact absurd hin (by decide)
    rw [doSomething_of_wrapped]
    · constructor
      case toCore => exact hcore
      case counted =>
        rw [Counted, hlive', hlone, hz]
        have hwrap : (0 : UInt64) - 1 + 1 = UInt64.ofNat (1 - 1) := by decide
        exact ⟨by omega, Or.inr ⟨hone, hwrap⟩⟩
      case opened => exact fun _ => ⟨hres, Or.inr ⟨hlater, Or.inl hone⟩⟩
      case closed =>
        intro h'
        have hdead : s.alive = false := h'
        rw [hopen] at hdead
        cases hdead
    · dsimp only
      rw [hz]
      decide
    · dsimp only
      rw [hz]
      decide

end Put

end Cone.CopyMessages
