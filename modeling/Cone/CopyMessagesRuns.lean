import Cone.CopyMessagesCount

/-! # Copying messages, run after run

Every event keeps the invariant when it is spared; at most two copies are in progress, and the
caller is told once, when all of them are done. -/
set_option autoImplicit false
namespace Cone.CopyMessages

open Cone.Ctype

section Events
variable {F : Type} {todo₀ : List (Nat × Text)} {s s' : State F} {id : Nat}
variable {c d : CopyMessage F} {message : Text}

/-- A step that counts nothing. -/
theorem Inv.quiet (h : Inv todo₀ s) (hcore : Core todo₀ s') (hlive : live s' = live s)
    (hcopying : copying s' = copying s) (hin : s'.inProgress = s.inProgress)
    (halive : s'.alive = s.alive) (hres : s'.results = s.results)
    (hlater : s'.runLater = s.runLater) (hfail : s'.failMessage = s.failMessage)
    (htodo : s'.todo = s.todo)
    (hstart : s.copies = [] → s.stack = [] → s'.copies = [] ∧ s'.stack = []) : Inv todo₀ s' := by
  constructor
  case toCore => exact hcore
  case counted =>
    rw [Counted, hlive, hcopying, hin]
    exact h.counted
  case opened =>
    intro hopen
    rw [halive] at hopen
    obtain ⟨hnone, hrest⟩ := h.opened hopen
    rw [hres, hlater, hcopying, hlive]
    apply And.intro hnone
    obtain ⟨hrun, hcopies, hstack⟩ | hrest := hrest
    · exact Or.inl ⟨hrun, hstart hcopies hstack⟩
    · exact Or.inr hrest
  case closed =>
    intro hclosed
    rw [halive] at hclosed
    rw [hlater, hlive, hcopying, hres, hfail, htodo]
    exact h.closed hclosed

theorem ne_nil_of_getElem? (hc : s.copies[id]? = some c) : s.copies ≠ [] := by
  intro hnil
  rw [hnil] at hc
  cases hc

theorem not_dead (h : c.alive = true) : ¬ (!c.alive) = true := by
  rw [h]
  exact Bool.false_ne_true

theorem failed_put (hc : s.copies[id]? = some c) (hptr : d.addMessagePtr = none)
    (hd : d.alive = true) :
    failed id d message (put id d s) =
      callbackFail message (put id { d with alive := false, copied := false } s) := by
  rw [failed, destroy, modify_put hc, hptr, hd]
  rfl

theorem inv_failed (h : Inv todo₀ s) (hc : s.copies[id]? = some c) (halive : c.alive = true)
    (hptr : d.addMessagePtr = none) (hd : d.alive = true)
    (hend : { d with alive := false, copied := false } = c.ended false) (hm : message ≠ [])
    (halone : Copying s → s.inProgress = 0) :
    Inv todo₀ (failed id d message (put id d s)) := by
  have hopen : (put id (c.ended false) s).alive = true :=
    (h.alive_of_live (live_pos hc halive)).1
  have hm' : (if s.failMessage.length = 0 then message else s.failMessage) ≠ [] := by
    split
    · exact hm
    · rename_i hne
      intro hnil
      rw [hnil] at hne
      exact hne rfl
  rw [failed_put hc hptr hd, hend, callbackFail, if_pos hopen]
  exact inv_ended (n := s.copiedCount) h hc halive (Or.inr ⟨rfl, hm'⟩) halone

theorem inv_addFail (h : Inv todo₀ s) (hc : s.copies[id]? = some c) (halive : c.alive = true)
    (hfetch : d.fetch = none) (hd : d.alive = true) (hlater : d.runLater = false)
    (hsame : { d with fetch := c.fetch } = c) (hm : message ≠ [])
    (halone : Copying s → s.inProgress = 0) :
    Inv todo₀ (addFail id d message (put id d s)) := by
  rw [addFail, modify_put hc, if_neg (not_dead hd)]
  refine inv_failed h hc halive rfl hd ?_ hm halone
  rw [← hsame, CopyMessage.ended, hfetch, hlater]

theorem inv_addSuccess (h : Inv todo₀ s) (hc : s.copies[id]? = some c) (halive : c.alive = true)
    (hfetch : c.fetch = none) (hlater : c.runLater = false)
    (halone : Copying s → s.inProgress = 0) : Inv todo₀ (addSuccess id c message s) := by
  have hopen : (put id (c.ended true) s).alive = true :=
    (h.alive_of_live (live_pos hc halive)).1
  have hend : { c with adding := none, addMessagePtr := none, alive := false, copied := true } =
      c.ended true := by
    rw [CopyMessage.ended, hfetch, hlater]
  rw [addSuccess, modify_eq_put hc, if_neg (not_dead halive), destroy, modify_put hc]
  dsimp only
  rw [halive]
  change Inv todo₀ (callbackSuccess message
    (put id { c with adding := none, addMessagePtr := none, alive := false, copied := true } s))
  rw [hend, callbackSuccess, if_pos hopen]
  exact inv_ended (n := s.copiedCount + 1) h hc halive (Or.inl ⟨rfl, rfl⟩) halone

theorem inv_fetchFail (h : Inv todo₀ s) (hc : s.copies[id]? = some c) {fetch : SuccessCallback}
    (hfetch : c.fetch = some fetch) (hm : message ≠ [])
    (halone : Copying s → s.inProgress = 0) : Inv todo₀ (fetchFail id c message s) := by
  have hstage := h.stages id c hc
  cases hstage with
  | attributes halive hcopied hlater hf hadding hptr =>
      rw [fetchFail, modify_eq_put hc, if_neg (not_dead halive)]
      split
      · rename_i hsome
        rw [hptr] at hsome
        cases hsome
      · refine inv_failed h hc halive hptr halive ?_ hm halone
        rw [CopyMessage.ended, hlater, hptr, hadding]
  | content halive hcopied hlater hf hadding howns =>
      obtain ⟨_, add, _, hptr, _⟩ := howns
      rw [fetchFail, modify_eq_put hc, if_neg (not_dead halive)]
      split
      · exact inv_addFail h hc halive rfl halive hlater rfl hm halone
      · rename_i hnone
        rw [hptr] at hnone
        cases hnone
  | addMessage _ _ _ hf => rw [hf] at hfetch; cases hfetch
  | runLater _ _ _ hf => rw [hf] at hfetch; cases hfetch
  | going _ _ _ hf => rw [hf] at hfetch; cases hfetch
  | destroyed _ _ hf => rw [hf] at hfetch; cases hfetch

theorem Inv.put (adds : List (AddMessage F)) (stack : List Frame) (h : Inv todo₀ s)
    (hc : s.copies[id]? = some c) (hcore : Core todo₀ { put id d s with adds := adds, stack := stack })
    (halive : d.alive = c.alive) (hcopying : stack.countP isCopy = s.stack.countP isCopy) :
    Inv todo₀ { Cone.CopyMessages.put id d s with adds := adds, stack := stack } := by
  refine h.quiet hcore ?_ hcopying rfl rfl rfl rfl rfl rfl ?_
  · have hlive := live_put (e := d) hc
    rw [halive] at hlive
    exact Nat.add_right_cancel hlive
  · intro hnil
    exact absurd hnil (ne_nil_of_getElem? hc)

theorem same_owner {adds : List (AddMessage F)} (n : Nat) (a : AddMessage F)
    (ha : adds[n]? = some a) : ∃ a', adds[n]? = some a' ∧ a'.owner = a.owner :=
  ⟨a, ha, rfl⟩

theorem inv_fetchSuccess (h : Inv todo₀ s) (hc : s.copies[id]? = some c) {fetch : SuccessCallback}
    (hfetch : c.fetch = some fetch)
    (halone : fetch = .fetchText → (s.copyTo = false ∨ s.copyFrom = false) → Copying s →
      s.inProgress = 0)
    (hsame : fetch = .fetchText → s.copyTo = true → s.copyFrom = true →
      unchanged s.folder c.messageNum c.messageInfo.uid = true) :
    Inv todo₀ (fetchSuccess id c fetch s) := by
  have hstage := h.stages id c hc
  cases hstage with
  | attributes halive hcopied hlater hf hadding hptr =>
      rw [hf] at hfetch
      cases hfetch
      rw [fetchSuccess.eq_def, modify_eq_put hc, if_neg (not_dead halive)]
      dsimp only
      rw [fetchText]
      split
      · rename_i hclosed
        have hclosed' : s.copyTo = false ∨ s.copyFrom = false := by
          change (!s.copyTo || !s.copyFrom) = true at hclosed
          rw [Bool.or_eq_true, Bool.not_eq_true', Bool.not_eq_true'] at hclosed
          exact hclosed
        refine inv_failed h hc halive hptr halive ?_ (by decide) (halone rfl hclosed')
        rw [CopyMessage.ended, hlater, hptr, hadding]
      · rename_i hopen
        change ¬ (!s.copyTo || !s.copyFrom) = true at hopen
        rw [Bool.or_eq_true, Bool.not_eq_true', Bool.not_eq_true', not_or, Bool.not_eq_false,
          Bool.not_eq_false] at hopen
        have hfound := hsame rfl hopen.1 hopen.2
        split
        · rw [modify_put hc]
          refine Inv.put (d := { c with fetch := none, adding := some .addMessage })
            s.adds (.addMessage id :: s.stack) h hc ?_ rfl rfl
          refine h.toCore.put hc rfl rfl rfl rfl ?_ (fun _ _ hk => List.mem_cons_of_mem _ hk) ?_
            same_owner (h.toCore.adds_put hc rfl)
          · exact .addMessage halive hcopied hlater rfl hptr (Or.inr ⟨rfl, List.mem_cons_self⟩)
          · intro k hk
            obtain hk | hk := List.mem_cons.mp hk
            · cases hk
              exact Or.inl rfl
            · exact Or.inr hk
        · rename_i hno
          exact absurd hfound hno
  | content halive hcopied hlater hf hadding howns =>
      rw [hf] at hfetch
      cases hfetch
      rw [fetchSuccess.eq_def, modify_eq_put hc, if_neg (not_dead halive)]
      dsimp only
      rw [modify_put hc]
      refine Inv.put (d := { c with fetch := none, runLater := true })
        s.adds s.stack h hc ?_ rfl rfl
      exact h.toCore.put hc rfl rfl rfl rfl (.runLater halive hcopied rfl rfl hadding howns)
        (fun _ _ hk => hk) (fun _ hk => Or.inr hk) same_owner (h.toCore.adds_put hc rfl)
  | addMessage _ _ _ hf => rw [hf] at hfetch; cases hfetch
  | runLater _ _ _ hf => rw [hf] at hfetch; cases hfetch
  | going _ _ _ hf => rw [hf] at hfetch; cases hfetch
  | destroyed _ _ hf => rw [hf] at hfetch; cases hfetch

theorem inv_copyRunningLater (h : Inv todo₀ s) (hc : s.copies[id]? = some c)
    (hlater : c.runLater = true) : Inv todo₀ (copyRunningLater id c s) := by
  have hstage := h.stages id c hc
  cases hstage with
  | runLater halive hcopied _ hf hadding howns =>
      have hptr := howns.2
      obtain ⟨add, _, hptr, _⟩ := hptr
      rw [copyRunningLater, modify_eq_put hc]
      split
      · rw [modify_put hc]
        refine Inv.put (d := { c with runLater := false, adding := some .going })
          s.adds (.tail :: s.stack) h hc ?_ rfl rfl
        refine h.toCore.put hc rfl rfl rfl rfl (.going halive hcopied rfl hf rfl howns)
          (fun _ _ hk => List.mem_cons_of_mem _ hk) ?_ same_owner (h.toCore.adds_put hc rfl)
        intro k hk
        obtain hk | hk := List.mem_cons.mp hk
        · cases hk
        · exact Or.inr hk
      · rename_i hnone
        rw [hptr] at hnone
        cases hnone
  | attributes _ _ hno => rw [hno] at hlater; cases hlater
  | addMessage _ _ hno => rw [hno] at hlater; cases hlater
  | content _ _ hno => rw [hno] at hlater; cases hlater
  | going _ _ hno => rw [hno] at hlater; cases hlater
  | destroyed _ hno => rw [hno] at hlater; cases hlater

theorem inv_arrivalDate (h : Inv todo₀ s) (hc : s.copies[id]? = some c)
    (hfetch : c.fetch = some .fetchText) (date : Int) :
    Inv todo₀ (if c.alive then modify id (fun c => { c with arrivalDate := date }) s
      else misuse s) := by
  have hstage := h.stages id c hc
  cases hstage with
  | attributes halive hcopied hlater hf hadding hptr =>
      rw [if_pos halive, modify_eq_put hc]
      refine Inv.put (d := { c with arrivalDate := date })
        s.adds s.stack h hc ?_ rfl rfl
      exact h.toCore.put hc rfl rfl rfl rfl (.attributes halive hcopied hlater hf hadding hptr)
        (fun _ _ hk => hk) (fun _ hk => Or.inr hk) same_owner (h.toCore.adds_put hc rfl)
  | addMessage _ _ _ hf => rw [hf] at hfetch; cases hfetch
  | content _ _ _ hf => rw [hf] at hfetch; cases hfetch
  | runLater _ _ _ hf => rw [hf] at hfetch; cases hfetch
  | going _ _ _ hf => rw [hf] at hfetch; cases hfetch
  | destroyed _ _ hf => rw [hf] at hfetch; cases hfetch

theorem put_self (hc : s.copies[id]? = some c) : put id c s = s := by
  obtain ⟨hlt, hget⟩ := List.getElem?_eq_some_iff.mp hc
  rw [put, ← hget, List.set_getElem_self]

theorem inv_messageText (h : Inv todo₀ s) (hc : s.copies[id]? = some c)
    (hfetch : c.fetch = some .fetchCompleted) (text : Text) :
    Inv todo₀ (messageText id c text s) := by
  have hstage := h.stages id c hc
  cases hstage with
  | content halive hcopied hlater hf hadding howns =>
      rw [messageText, if_neg (not_dead halive)]
      split
      · rename_i add hptr
        obtain ⟨hreading, add', a, hptr', ha, howner⟩ := howns
        rw [hptr, Option.some.injEq] at hptr'
        rw [← hptr'] at ha
        have hkeep : ∀ (n : Nat) b, s.adds[n]? = some b → ∃ b', (s.adds.modify add fun a =>
            { a with contents := a.contents ++ [(id, c.reading, text)] })[n]? = some b' ∧
              b'.owner = b.owner := by
          intro n b hb
          rw [List.getElem?_modify, hb]
          refine ⟨_, rfl, ?_⟩
          split
          · rfl
          · rfl
        have hown' : Owns (s.adds.modify add fun a =>
            { a with contents := a.contents ++ [(id, c.reading, text)] }) id c := by
          obtain ⟨a', ha', howner'⟩ := hkeep add a ha
          exact ⟨hreading, add, a', hptr, ha', howner'.trans howner⟩
        have hput := Inv.put (d := c)
          (s.adds.modify add fun a =>
            { a with contents := a.contents ++ [(id, c.reading, text)] }) s.stack h hc ?_ rfl rfl
        · rw [put_self hc] at hput
          exact hput
        · refine h.toCore.put hc rfl rfl rfl rfl
            (.content halive hcopied hlater hf hadding hown') (fun _ _ hk => hk)
            (fun _ hk => Or.inr hk) hkeep ?_
          rw [put_self hc]
          intro b hb
          obtain ⟨n, hn⟩ := List.mem_iff_getElem?.mp hb
          rw [List.getElem?_modify] at hn
          cases hb₀ : s.adds[n]? with
          | none => rw [hb₀] at hn; cases hn
          | some b₀ =>
              rw [hb₀] at hn
              obtain ⟨e, he, hinfo, hrest⟩ := h.adds b₀ (List.mem_of_getElem? hb₀)
              by_cases hadd : add = n
              · -- the object itself: it belongs to this copy
                change some (if add = n then _ else b₀) = some b at hn
                rw [if_pos hadd] at hn
                rw [← hadd, ha] at hb₀
                cases hb₀
                cases hn
                refine ⟨e, he, hinfo, ?_⟩
                intro x hx
                obtain hx | hx := List.mem_append.mp hx
                · exact hrest x hx
                · rw [List.mem_singleton.mp hx]
                  rw [howner, hc] at he
                  cases he
                  exact ⟨howner.symm, hreading⟩
              · change some (if add = n then _ else b₀) = some b at hn
                rw [if_neg hadd] at hn
                cases hn
                exact ⟨e, he, hinfo, hrest⟩
      · exact h
  | attributes _ _ _ hf => rw [hf] at hfetch; cases hfetch
  | addMessage _ _ _ hf => rw [hf] at hfetch; cases hfetch
  | runLater _ _ _ hf => rw [hf] at hfetch; cases hfetch
  | going _ _ _ hf => rw [hf] at hfetch; cases hfetch
  | destroyed _ _ hf => rw [hf] at hfetch; cases hfetch

theorem Core.pop {frame : Frame} {stack : List Frame} (h : Core todo₀ s)
    (hs : s.stack = frame :: stack)
    (hkeep : ∀ k e, s.copies[k]? = some e → e.adding = some .addMessage →
      frame ≠ .addMessage k) : Core todo₀ { s with stack := stack } := by
  constructor
  case fine => exact h.fine
  case adds => exact h.adds
  case order => exact h.order
  case all => exact h.all
  case lost => exact h.lost
  case stages =>
    intro k e he
    refine (h.stages k e he).mono ?_ same_owner
    intro hadding hk
    rw [hs] at hk
    obtain hk | hk := List.mem_cons.mp hk
    · exact absurd hk.symm (hkeep k e he hadding)
    · exact hk
  case frames =>
    intro k hk
    apply h.frames k
    rw [hs]
    exact List.mem_cons_of_mem _ hk

theorem inv_copyReturned {stack : List Frame} (h : Inv todo₀ s)
    (hs : s.stack = .copy message :: stack) :
    Inv todo₀ (copyReturned message { s with stack := stack }) := by
  have hcopying : copying s = stack.countP isCopy + 1 := by
    rw [copying, hs, List.countP_cons]
    rfl
  obtain ⟨htwo, ⟨hzero, _⟩ | ⟨hone, hin⟩⟩ := h.counted
  · omega
  · have hopen : s.alive = true := by
      by_contra hdead
      have := (h.closed (Bool.of_not_eq_true hdead)).2.2.1
      omega
    obtain ⟨hres, ⟨_, _, hstack⟩ | ⟨hlater, _⟩⟩ := h.opened hopen
    · rw [hs] at hstack
      cases hstack
    · have hnone : stack.countP isCopy = 0 := by omega
      rw [copyReturned, if_pos hopen]
      apply doSomething_inv
      have hpop : Core todo₀ { s with stack := stack } :=
        h.toCore.pop hs fun _ _ _ _ hf => by cases hf
      exact ⟨⟨hpop.fine, hpop.stages, hpop.adds, hpop.frames, hpop.order, hpop.all, hpop.lost⟩,
        hopen, hlater, hres, hnone, hin, htwo⟩

theorem inv_tailReturned {stack : List Frame} (h : Inv todo₀ s) (hs : s.stack = .tail :: stack) :
    Inv todo₀ { s with stack := stack } := by
  refine h.quiet (h.toCore.pop hs fun _ _ _ _ hf => nomatch hf) rfl ?_ rfl rfl rfl rfl rfl rfl ?_
  · rw [copying, copying, hs]
    exact (List.countP_cons_of_neg (p := isCopy) (a := Frame.tail) Bool.false_ne_true).symm
  · intro _ hnil
    rw [hs] at hnil
    cases hnil

theorem inv_addMessageReturned {stack : List Frame} {null : Bool} (h : Inv todo₀ s)
    (hs : s.stack = .addMessage id :: stack) (hc : s.copies[id]? = some c)
    (hsame : null = false → c.adding = some .addMessage →
      unchanged s.folder c.messageNum c.messageInfo.uid = true) :
    Inv todo₀ (addMessageReturned id c null { s with stack := stack }) := by
  have hcopying : stack.countP isCopy = s.stack.countP isCopy := by
    rw [hs]
    exact (List.countP_cons_of_neg (p := isCopy) (a := Frame.addMessage id)
      Bool.false_ne_true).symm
  have hleft : ∀ k, k ≠ id → Frame.addMessage k ∈ s.stack → Frame.addMessage k ∈ stack := by
    intro k hk hin
    rw [hs] at hin
    obtain hin | hin := List.mem_cons.mp hin
    · cases hin
      exact absurd rfl hk
    · exact hin
  have hstill : ∀ k, Frame.addMessage k ∈ stack → k = id ∨ Frame.addMessage k ∈ s.stack := by
    intro k hk
    rw [hs]
    exact Or.inr (List.mem_cons_of_mem _ hk)
  rw [addMessageReturned]
  by_cases hadding : c.adding = some .addMessage
  · have hstage := h.stages id c hc
    cases hstage with
    | addMessage halive hcopied hlater hf hptr _ =>
        rw [if_neg (not_not.mpr hadding)]
        cases null with
        | true =>
            rw [if_pos rfl, modify_eq_put (s := { s with stack := stack }) hc]
            refine Inv.put (d := { c with adding := some .refused }) s.adds stack h hc ?_ rfl hcopying
            exact h.toCore.put hc rfl rfl rfl rfl
              (.addMessage halive hcopied hlater hf hptr (Or.inl rfl)) hleft hstill same_owner
              (h.toCore.adds_put hc rfl)
        | false =>
            have hfound := hsame rfl hadding
            have hreading : s.folder[c.messageNum]?.map MessageInfo.uid =
                some c.messageInfo.uid := by
              rw [unchanged] at hfound
              cases hi : s.folder[c.messageNum]? with
              | none => rw [hi] at hfound; cases hfound
              | some i =>
                  rw [hi] at hfound
                  rw [Option.map_some, of_decide_eq_true hfound]
            have hnew : (s.adds ++ [(⟨id, c.messageInfo, c.arrivalDate, []⟩ : AddMessage F)])[
                s.adds.length]? = some ⟨id, c.messageInfo, c.arrivalDate, []⟩ := by
              rw [List.getElem?_append_right (Nat.le_refl _), Nat.sub_self]
              rfl
            rw [if_neg Bool.false_ne_true, if_neg (not_dead halive),
              modify_eq_put (s := { s with stack := stack }) hc]
            refine Inv.put (d := { c with
                adding := some .opened
                addMessagePtr := some s.adds.length
                fetch := some .fetchCompleted
                reading := s.folder[c.messageNum]?.map MessageInfo.uid })
              (s.adds ++ [⟨id, c.messageInfo, c.arrivalDate, []⟩]) (.tail :: stack) h hc ?_ rfl hcopying
            refine h.toCore.put hc rfl rfl rfl rfl
              (.content halive hcopied hlater rfl rfl
                ⟨hreading, s.adds.length, _, rfl, hnew, rfl⟩)
              (fun k hk hin => List.mem_cons_of_mem _ (hleft k hk hin)) ?_ ?_ ?_
            · intro k hk
              obtain hk | hk := List.mem_cons.mp hk
              · cases hk
              · exact hstill k hk
            · intro n a ha
              refine ⟨a, ?_, rfl⟩
              rw [List.getElem?_append_left (List.getElem?_eq_some_iff.mp ha).1]
              exact ha
            · intro a ha
              obtain ha | ha := List.mem_append.mp ha
              · refine h.toCore.adds_put hc ?_ a ha
                rfl
              · rw [List.mem_singleton.mp ha]
                exact ⟨_, getElem?_put hc, rfl, fun _ hx => nomatch hx⟩
    | attributes _ _ _ _ hno => rw [hno] at hadding; cases hadding
    | content _ _ _ _ hno => rw [hno] at hadding; cases hadding
    | runLater _ _ _ _ hno => rw [hno] at hadding; cases hadding
    | going _ _ _ _ hno => rw [hno] at hadding; cases hadding
    | destroyed _ _ _ hno => rw [hno] at hadding; cases hadding
  · -- the callback has failed inside the call
    rw [if_pos hadding]
    refine h.quiet (h.toCore.pop hs ?_) rfl hcopying rfl rfl rfl rfl rfl rfl ?_
    · intro k e he hk heq
      cases heq
      rw [hc] at he
      cases he
      exact hadding hk
    · intro _ hnil
      rw [hs] at hnil
      cases hnil

theorem inv_runningLater (h : Inv todo₀ s) (hstack : s.stack = []) (hlater : s.runLater = true) :
    Inv todo₀ (runningLater s) := by
  have hopen : s.alive = true := by
    by_contra hdead
    have hno := (h.closed (Bool.of_not_eq_true hdead)).1
    rw [hlater] at hno
    cases hno
  have hcopying : copying s = 0 := by
    rw [copying, hstack]
    rfl
  obtain ⟨htwo, ⟨_, hin⟩ | ⟨hone, _⟩⟩ := h.counted
  · rw [runningLater]
    apply doSomething_inv
    exact ⟨⟨h.fine, h.stages, h.adds, h.frames, h.order, h.all, h.lost⟩, hopen, rfl,
      (h.opened hopen).1, hcopying, hin, htwo⟩
  · omega

theorem Stage.alive_of_adding {adds : List (AddMessage F)} {stack : List Frame}
    (h : Stage adds stack id c) (hadding : c.adding = some .addMessage ∨ c.adding = some .refused ∨
      c.adding = some .going) :
    c.alive = true ∧ c.fetch = none ∧ c.runLater = false := by
  cases h with
  | addMessage halive _ hlater hf => exact ⟨halive, hf, hlater⟩
  | going halive _ hlater hf => exact ⟨halive, hf, hlater⟩
  | attributes _ _ _ _ hno => rw [hno] at hadding; simp at hadding
  | content _ _ _ _ hno => rw [hno] at hadding; simp at hadding
  | runLater _ _ _ _ hno => rw [hno] at hadding; simp at hadding
  | destroyed _ _ _ hno => rw [hno] at hadding; simp at hadding

theorem inv_step {event : Event F} (h : Inv todo₀ s) (hstep : step s event = some s')
    (hsp : Spares s event) : Inv todo₀ s' := by
  cases event with
  | runningLater =>
      obtain ⟨hgo, hs⟩ := Option.ite_none_right_eq_some.mp hstep
      cases hs
      exact inv_runningLater h hgo.1 hgo.2
  | copyRunningLater id =>
      obtain ⟨c, hc, hif⟩ := Option.bind_eq_some_iff.mp hstep
      obtain ⟨hgo, hs⟩ := Option.ite_none_right_eq_some.mp hif
      cases hs
      exact inv_copyRunningLater h hc hgo.2.1
  | arrivalDate id date =>
      obtain ⟨c, hc, hif⟩ := Option.bind_eq_some_iff.mp hstep
      obtain ⟨hgo, hs⟩ := Option.ite_none_right_eq_some.mp hif
      cases hs
      exact inv_arrivalDate h hc hgo date
  | text id text =>
      obtain ⟨c, hc, hif⟩ := Option.bind_eq_some_iff.mp hstep
      obtain ⟨hgo, hs⟩ := Option.ite_none_right_eq_some.mp hif
      cases hs
      exact inv_messageText h hc hgo text
  | fetchSuccess id =>
      obtain ⟨c, hc, hgo⟩ := Option.bind_eq_some_iff.mp hstep
      obtain ⟨fetch, hfetch, rfl⟩ := Option.map_eq_some_iff.mp hgo
      apply inv_fetchSuccess h hc hfetch
      · intro htext hclosed
        rw [htext] at hfetch
        exact hsp.alone ⟨⟨c, hc, hfetch⟩, hclosed⟩
      · intro htext
        rw [htext] at hfetch
        exact hsp.attributes id c rfl hc hfetch
  | fetchFail id message =>
      obtain ⟨c, hc, hgo⟩ := Option.bind_eq_some_iff.mp hstep
      obtain ⟨fetch, hfetch, rfl⟩ := Option.map_eq_some_iff.mp hgo
      exact inv_fetchFail h hc hfetch (hsp.message id message (Or.inl rfl)) (hsp.alone trivial)
  | addSuccess id message =>
      obtain ⟨c, hc, hif⟩ := Option.bind_eq_some_iff.mp hstep
      obtain ⟨hgo, hs⟩ := Option.ite_none_right_eq_some.mp hif
      cases hs
      obtain ⟨halive, hf, hlater⟩ := (h.stages id c hc).alive_of_adding (Or.inr (Or.inr hgo))
      exact inv_addSuccess h hc halive hf hlater (hsp.alone trivial)
  | addFail id message =>
      obtain ⟨c, hc, hif⟩ := Option.bind_eq_some_iff.mp hstep
      obtain ⟨hgo, hs⟩ := Option.ite_none_right_eq_some.mp hif
      cases hs
      obtain ⟨halive, hf, hlater⟩ := (h.stages id c hc).alive_of_adding hgo
      have hfail := inv_addFail h hc halive hf halive hlater rfl
        (hsp.message id message (Or.inr rfl)) (hsp.alone trivial)
      rw [put_self hc] at hfail
      exact hfail
  | returned null =>
      unfold step at hstep
      dsimp only at hstep
      split at hstep
      · cases hstep
      · rename_i message stack hs
        cases hstep
        exact inv_copyReturned h hs
      · rename_i id stack hs
        obtain ⟨c, hc, rfl⟩ := Option.map_eq_some_iff.mp hstep
        apply inv_addMessageReturned h hs hc
        intro hnull
        rw [hnull] at hsp
        exact hsp.content id stack c rfl hs hc
      · rename_i stack hs
        cases hstep
        exact inv_tailReturned h hs
  | renumbered | closedFrom | closedTo =>
      cases hstep
      exact h.quiet ⟨h.fine, h.stages, h.adds, h.frames, h.order, h.all, h.lost⟩ rfl rfl rfl rfl rfl
        rfl rfl rfl fun hcopies hstack => ⟨hcopies, hstack⟩

end Events

section Runs
variable {F : Type} {folder₀ : List (MessageInfo F)} {messages : List Nat} {s : State F}

theorem inv_copy (folder₀ : List (MessageInfo F)) (messages : List Nat) :
    Inv (copy folder₀ messages).todo (copy folder₀ messages) := by
  constructor
  case toCore =>
    constructor
    case fine => rfl
    case stages => exact fun _ _ hc => nomatch hc
    case adds => exact fun _ ha => nomatch ha
    case frames => exact fun _ hf => nomatch hf
    case order => exact List.Sublist.refl _
    case all => exact fun _ => ⟨rfl, fun _ hc => nomatch hc⟩
    case lost => exact fun hne => absurd rfl hne
  case counted => exact ⟨Nat.zero_le _, Or.inl ⟨rfl, rfl⟩⟩
  case opened => exact fun _ => ⟨rfl, Or.inl ⟨rfl, rfl, rfl⟩⟩
  case closed => exact fun h => nomatch h

theorem inv_reaches (h : Reaches folder₀ messages s) : Inv (copy folder₀ messages).todo s := by
  induction h with
  | copy => exact inv_copy folder₀ messages
  | step _ hstep hsp ih => exact inv_step ih hstep hsp

/-- The accounts and the event loop have nothing left to do. -/
def Quiet (s : State F) : Prop :=
  s.stack = [] ∧ s.runLater = false ∧
    ∀ c ∈ s.copies, c.fetch = none ∧ c.runLater = false ∧
      (c.adding = none ∨ c.adding = some .opened)

theorem Stage.dead_of_quiet {adds : List (AddMessage F)} {id : Nat} {c : CopyMessage F}
    (h : Stage adds [] id c) (hfetch : c.fetch = none) (hlater : c.runLater = false)
    (hadding : c.adding = none ∨ c.adding = some .opened) : c.alive = false := by
  cases h with
  | attributes _ _ _ hf => rw [hf] at hfetch; cases hfetch
  | content _ _ _ hf => rw [hf] at hfetch; cases hfetch
  | runLater _ _ hl => rw [hl] at hlater; cases hlater
  | addMessage _ _ _ _ _ ha =>
      obtain ha | ⟨_, hin⟩ := ha
      · rw [ha] at hadding
        simp at hadding
      · cases hin
  | going _ _ _ _ ha =>
      rw [ha] at hadding
      simp at hadding
  | destroyed hdead => exact hdead

/-- What `copyMessages` promises its caller; `todo₀` is the list of messages at the start. -/
structure Kept (todo₀ : List (Nat × Text)) (s : State F) : Prop where
  once : s.results.length ≤ 1
  completes : Quiet s → s.results.length = 1
  waits : s.results ≠ [] → ∀ c ∈ s.copies, c.alive = false
  honest : ∀ r ∈ s.results, (∃ message, r = .success message) ↔
    s.copies.map CopyMessage.key = todo₀ ∧ ∀ c ∈ s.copies, c.copied = true
  two : live s ≤ 2
  started : (s.copies.map CopyMessage.key).Sublist todo₀
  own : ∀ a ∈ s.adds, ∃ c, s.copies[a.owner]? = some c ∧ a.messageInfo = c.messageInfo ∧
    ∀ x ∈ a.contents, x.1 = a.owner ∧ x.2.1 = some c.messageInfo.uid
  fine : s.misused = false

theorem dead_of_live (h : live s = 0) :
    ∀ c ∈ s.copies, c.alive = false := by
  intro c hc
  exact Bool.of_not_eq_true (List.countP_eq_zero.mp h c hc)

/-- In every run whose steps are all spared. -/
theorem copyMessages_keeps (h : Reaches folder₀ messages s) : Kept (copy folder₀ messages).todo s := by
  have hinv := inv_reaches h
  constructor
  case fine => exact hinv.fine
  case own => exact hinv.adds
  case two => exact hinv.counted.1
  case started => exact (List.sublist_append_left _ _).trans hinv.order
  case once =>
    by_cases hopen : s.alive = true
    · rw [(hinv.opened hopen).1]
      exact Nat.zero_le _
    · obtain ⟨_, _, _, r, hr, _⟩ := hinv.closed (Bool.of_not_eq_true hopen)
      rw [hr]
      exact Nat.le_refl _
  case waits =>
    intro hne
    have hdead : ¬ s.alive = true := fun hopen => hne (hinv.opened hopen).1
    exact dead_of_live (hinv.closed (Bool.of_not_eq_true hdead)).2.1
  case honest =>
    intro r hr
    by_cases hopen : s.alive = true
    · rw [(hinv.opened hopen).1] at hr
      cases hr
    · obtain ⟨_, hlive, _, r', hr', hsuccess, htodo⟩ := hinv.closed (Bool.of_not_eq_true hopen)
      rw [hr'] at hr
      rw [List.mem_singleton.mp hr, hsuccess]
      constructor
      · intro hnil
        obtain ⟨hall, hdone⟩ := hinv.all hnil
        rw [htodo hnil, List.append_nil] at hall
        apply And.intro hall
        intro c hc
        apply (hdone c hc).resolve_left
        rw [dead_of_live hlive c hc]
        exact Bool.false_ne_true
      · intro hall
        by_contra hne
        obtain hl | hl := hinv.lost hne
        · obtain ⟨c, hc, _, hno⟩ := hl
          rw [hall.2 c hc] at hno
          cases hno
        · have hlen := congrArg List.length hall.1
          rw [List.length_map] at hlen
          omega
  case completes =>
    intro hquiet
    obtain ⟨hstack, hlater, hcopies⟩ := hquiet
    have hlive : live s = 0 := by
      apply List.countP_eq_zero.mpr
      intro c hc
      obtain ⟨id, hid⟩ := List.mem_iff_getElem?.mp hc
      obtain ⟨hf, hl, ha⟩ := hcopies c hc
      have hstage := hinv.stages id c hid
      rw [hstack] at hstage
      rw [hstage.dead_of_quiet hf hl ha]
      exact Bool.false_ne_true
    have hcopying : copying s = 0 := by
      rw [copying, hstack]
      rfl
    by_cases hopen : s.alive = true
    · obtain ⟨_, ⟨hrun, _⟩ | ⟨_, hbusy⟩⟩ := hinv.opened hopen
      · rw [hlater] at hrun
        cases hrun
      · omega
    · obtain ⟨_, _, _, r, hr, _⟩ := hinv.closed (Bool.of_not_eq_true hopen)
      rw [hr]
      rfl

theorem spares_of_not_completes {event : Event F} (hends : ¬ Completes s event)
    (hfetch : ∀ id, event ≠ .fetchSuccess id) (hreturned : event ≠ .returned false) :
    Spares s event := by
  constructor
  case alone => exact fun h => absurd h hends
  case attributes => exact fun id _ h => absurd h (hfetch id)
  case content => exact fun _ _ _ h => absurd h hreturned
  case message =>
    intro id message h
    obtain h | h := h
    · rw [h] at hends
      exact absurd trivial hends
    · rw [h] at hends
      exact absurd trivial hends

end Runs

section Folders

def one : List (MessageInfo Unit) := [⟨str "1", ()⟩]

def two : List (MessageInfo Unit) := [⟨str "1", ()⟩, ⟨str "2", ()⟩]

/-- One message is copied. -/
theorem copyMessages_keeps_one :
    ∃ s : State Unit, s.results = [.success (str "Ok")] ∧ Kept (copy one [0]).todo s := by
  have h₁ : Reaches one [0] _ :=
    .step (e := .runningLater) .copy rfl
      (spares_of_not_completes id (fun _ h => nomatch h) (fun h => nomatch h))
  have h₂ : Reaches one [0] _ :=
    .step (e := .returned true) h₁ rfl
      (spares_of_not_completes id (fun _ h => nomatch h) (fun h => nomatch h))
  have h₃ : Reaches one [0] _ :=
    .step (e := .fetchSuccess 0) h₂ rfl
      ⟨fun h => absurd h.2 (by decide), fun _ _ hid hc _ _ _ => by cases hid; cases hc; rfl,
        (fun _ _ _ h => nomatch h), fun _ _ h => by simp at h⟩
  have h₄ : Reaches one [0] _ :=
    .step (e := .returned false) h₃ rfl
      ⟨fun h => h.elim, (fun _ _ h => nomatch h), fun _ _ _ _ hs hc _ => by cases hs; cases hc; rfl,
        fun _ _ h => by simp at h⟩
  have h₅ : Reaches one [0] _ :=
    .step (e := .text 0 (str "Hi")) h₄ rfl
      (spares_of_not_completes id (fun _ h => nomatch h) (fun h => nomatch h))
  have h₆ : Reaches one [0] _ :=
    .step (e := .returned true) h₅ rfl
      (spares_of_not_completes id (fun _ h => nomatch h) (fun h => nomatch h))
  have h₇ : Reaches one [0] _ :=
    .step (e := .fetchSuccess 0) h₆ rfl
      ⟨fun h => absurd h.2 (by decide),
        (fun _ _ hid hc hfetch _ _ => by cases hid; cases hc; cases hfetch),
        (fun _ _ _ h => nomatch h), fun _ _ h => by simp at h⟩
  have h₈ : Reaches one [0] _ :=
    .step (e := .copyRunningLater 0) h₇ rfl
      (spares_of_not_completes id (fun _ h => nomatch h) (fun h => nomatch h))
  have h₉ : Reaches one [0] _ :=
    .step (e := .addSuccess 0 (str "Ok")) h₈ rfl
      ⟨fun _ hcopy => by simpa using List.mem_singleton.mp hcopy.choose_spec,
        (fun _ _ h => nomatch h), (fun _ _ _ h => nomatch h), fun _ _ h => by simp at h⟩
  exact ⟨_, rfl, copyMessages_keeps h₉⟩

def run (s : State Unit) (es : List (Event Unit)) : Option (State Unit) := es.foldlM step s

/-- The second copy fails inside `copy`, while the first one is in progress: the caller is told at
once, `copyMessages` is destroyed, and the loop that called `copy` goes on with it. -/
theorem copyMessages_told_early :
    (run (copy two [0, 1])
      [.runningLater, .returned true, .fetchFail 1 (str "No"), .returned true]).map
      (fun s => (s.results, live s, s.misused)) = some ([.fail (str "No")], 1, true) := by
  decide

end Folders
end Cone.CopyMessages
