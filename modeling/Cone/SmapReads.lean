import Cone.Smap

/-! # SMAP replies and how they are read

The replies byte by byte, which is what every way of reading them amounts to. -/
set_option autoImplicit false
namespace Cone.SmapReads

open Cone.Ctype Cone.Smap

section Calls
variable {accepts : Reply → Bool} {s : Account} {line : Text} {seen : List Seen}

theorem pieces_append (a b : List (Bool × Seen)) : pieces (a ++ b) = pieces a ++ pieces b := by
  rw [pieces, List.filter_append, List.map_append]
  exact List.flatMap_append

theorem pieces_calls (current : Bool) (h : ∀ x ∈ seen, (current && x.refused) = false) :
    pieces (seen.map (Prod.mk current)) = bytewise seen := by
  have hfilter : (seen.map (Prod.mk current)).filter (fun call => !(call.1 && call.2.refused)) =
      seen.map (Prod.mk current) := by
    rw [List.filter_eq_self]
    intro call mem
    obtain ⟨x, hx, rfl⟩ := List.mem_map.1 mem
    simp only [h x hx, Bool.not_false]
  rw [pieces, hfilter, List.map_map]
  exact congrArg bytewise (List.map_id seen)

theorem singleLine_taken (h : (singleLine accepts s line).1 = true) :
    ∀ x ∈ (singleLine accepts s line).2.2, x.refused = false := by
  intro x mem
  rw [singleLine] at h mem
  cases hb : beginning (parseWords [] (line ++ [NL])) s with
  | some start =>
      simp only [hb, List.mem_cons, List.not_mem_nil, or_false] at mem
      rcases mem with rfl | rfl <;> rfl
  | none =>
      simp only [hb] at h mem
      rw [h] at mem
      rw [List.mem_singleton.1 mem]
      rfl

theorem singleLine_refused (h : (singleLine accepts s line).1 = false) :
    (singleLine accepts s line).2 = (s, [.answered (parseWords [] (line ++ [NL])) false]) := by
  rw [singleLine] at h ⊢
  cases hb : beginning (parseWords [] (line ++ [NL])) s with
  | some start =>
      simp only [hb] at h
      cases h
  | none =>
      simp only [hb] at h ⊢
      rw [h]

end Calls

section Machines

structure Machine where
  protocol : Protocol
  count : Nat
  line : Text
  taken : List Seen
  deriving DecidableEq, Repr

def Machine.account (m : Machine) : Account := ⟨m.protocol, m.count⟩

def atLine (s : Account) (taken : List Seen) : Machine :=
  ⟨s.smapProtocolHandlerFunc, s.smapBinaryCount, [], taken⟩

def lineSeen (accepts : Reply → Bool) (s : Account) (line : Text) : Account × List Seen :=
  match s.smapProtocolHandlerFunc with
  | .singleLine => (singleLine accepts s line).2
  | .multiLineDotStuffed => dotStuffedLine s line
  | .multiLineBinary => chunkLine s line

variable (accepts : List Seen → Reply → Bool)

def Machine.step (m : Machine) (c : UInt8) : Option Machine :=
  if m.protocol = .multiLineBinary ∧ m.count ≠ 0 then
    some { m with count := m.count - 1, taken := m.taken ++ [.processData [c]] }
  else if c = NL then
    let r := lineSeen (accepts m.taken) m.account m.line
    some (atLine r.1 (m.taken ++ bytewise r.2))
  else if m.line.length < 16000 then some { m with line := m.line ++ [c] }
  else none

def Machine.run (m : Machine) (p : Text) : Option Machine := p.foldlM (Machine.step accepts) m

variable {accepts} {m r s : Machine} {p q line : Text}

theorem run_append (m : Machine) (p q : Text) :
    m.run accepts (p ++ q) = (m.run accepts p).bind fun r => r.run accepts q :=
  List.foldlM_append

theorem run_trans (hp : m.run accepts p = some r) (hq : r.run accepts q = some s) :
    m.run accepts (p ++ q) = some s := by
  rw [run_append, hp]
  exact hq

theorem run_cons (m : Machine) (c : UInt8) (p : Text) :
    m.run accepts (c :: p) = (m.step accepts c).bind fun r => r.run accepts p :=
  List.foldlM_cons

/-- No chunk is being read. -/
def Machine.InLine (m : Machine) : Prop := ¬ (m.protocol = .multiLineBinary ∧ m.count ≠ 0)

theorem ne_newline {c : UInt8} (hnl : NL ∉ c :: line) : c ≠ NL := by
  intro heq
  rw [heq] at hnl
  exact hnl List.mem_cons_self

theorem run_line (hmode : m.InLine) (hnl : NL ∉ line)
    (hlen : m.line.length + line.length ≤ 16000) :
    m.run accepts line = some { m with line := m.line ++ line } := by
  induction line generalizing m with
  | nil =>
      rw [List.append_nil]
      rfl
  | cons c line ih =>
      rw [List.length_cons] at hlen
      have hrest := ih (m := { m with line := m.line ++ [c] }) hmode
        (fun mem => hnl (List.mem_cons_of_mem _ mem))
        (by rw [List.length_append, List.length_singleton]; omega)
      rw [run_cons, Machine.step, if_neg hmode, if_neg (ne_newline hnl), if_pos (by omega),
        Option.bind_some, hrest, List.append_assoc]
      rfl

/-- A line that gets through is no longer than 16000 bytes. -/
theorem length_of_run (hmode : m.InLine) (hnl : NL ∉ line) (h : m.run accepts line = some r)
    (hstart : m.line.length ≤ 16000) : m.line.length + line.length ≤ 16000 := by
  induction line generalizing m with
  | nil => exact hstart
  | cons c line ih =>
      rw [run_cons, Machine.step, if_neg hmode, if_neg (ne_newline hnl)] at h
      by_cases hlt : m.line.length < 16000
      · rw [if_pos hlt, Option.bind_some] at h
        have hrest := ih (m := { m with line := m.line ++ [c] }) hmode
          (fun mem => hnl (List.mem_cons_of_mem _ mem)) h
          (by rw [List.length_append, List.length_singleton]; omega)
        rw [List.length_append, List.length_singleton] at hrest
        rw [List.length_cons]
        omega
      · rw [if_neg hlt] at h
        cases h

theorem run_newline (hmode : m.InLine) :
    m.run accepts [NL] =
      some (atLine (lineSeen (accepts m.taken) m.account m.line).1
        (m.taken ++ bytewise (lineSeen (accepts m.taken) m.account m.line).2)) := by
  rw [run_cons, Machine.step, if_neg hmode, if_pos rfl]
  rfl

theorem run_data {count : Nat} {taken : List Seen} (data : Text) (h : data.length ≤ count) :
    (⟨.multiLineBinary, count, [], taken⟩ : Machine).run accepts data =
      some ⟨.multiLineBinary, count - data.length, [], taken ++ bytewise [.processData data]⟩ := by
  induction data generalizing count taken with
  | nil => exact congrArg (fun t => some (⟨_, _, _, t⟩ : Machine)) (List.append_nil taken).symm
  | cons c data ih =>
      rw [List.length_cons] at h
      rw [run_cons, Machine.step, if_pos ⟨rfl, by show count ≠ 0; omega⟩, Option.bind_some]
      simp only
      rw [ih (by omega), List.length_cons, Nat.sub_sub, Nat.add_comm 1, List.append_assoc]
      rfl

end Machines

section Reading
variable {accepts : Reply → Bool} {s : Account} {buffer line rest : Text}

/-- Before a chunk line no byte of a chunk is left. -/
theorem count_eq_zero (hmode : (atLine s []).InLine)
    (hp : s.smapProtocolHandlerFunc = .multiLineBinary) : s.smapBinaryCount = 0 := by
  by_contra hne
  exact hmode ⟨hp, hne⟩

theorem process_beginning (hmode : (atLine s []).InLine) (hnl : NL ∉ buffer) :
    process accepts s buffer = (0, s, []) := by
  rw [process]
  cases hp : s.smapProtocolHandlerFunc with
  | singleLine => exact if_pos hnl
  | multiLineDotStuffed => exact if_pos hnl
  | multiLineBinary =>
      exact (if_pos (count_eq_zero hmode hp)).trans (if_pos hnl)

theorem takeWhile_line (hnl : NL ∉ line) (rest : Text) :
    (line ++ NL :: rest).takeWhile (· ≠ NL) = line := by
  have hall : ∀ c ∈ line, decide (c ≠ NL) = true := by
    intro c mem
    apply decide_eq_true
    intro heq
    exact hnl (heq ▸ mem)
  rw [List.takeWhile_append_of_pos hall, List.takeWhile_cons, if_neg (by decide),
    List.append_nil]

theorem dotStuffedLine_taken : ∀ x ∈ (dotStuffedLine s line).2, x.refused = false := by
  intro x mem
  simp only [dotStuffedLine] at mem
  generalize (if line.getLast? = some CR then line.dropLast else line) = text at mem
  split at mem
  · split at mem
    · rw [List.mem_singleton.1 mem]
      rfl
    · rw [List.mem_singleton.1 mem]
      rfl
  · rw [List.mem_singleton.1 mem]
    rfl

theorem chunkLine_taken : ∀ x ∈ (chunkLine s line).2, x.refused = false := by
  intro x mem
  rw [chunkLine] at mem
  split at mem
  · rw [List.mem_singleton.1 mem]
    rfl
  · cases mem

theorem process_line (hmode : (atLine s []).InLine) (hnl : NL ∉ line) :
    (process accepts s (line ++ NL :: rest)).2 = lineSeen accepts s line ∧
      ((process accepts s (line ++ NL :: rest)).1 = line.length + 1 ∧
          (∀ x ∈ (lineSeen accepts s line).2, x.refused = false) ∨
        (process accepts s (line ++ NL :: rest)).1 = 0 ∧
          ∃ reply, lineSeen accepts s line = (s, [.answered reply false])) := by
  have hmem : ¬ NL ∉ line ++ NL :: rest :=
    not_not.2 (List.mem_append_right _ List.mem_cons_self)
  have hline := takeWhile_line hnl rest
  rw [process, lineSeen]
  cases hp : s.smapProtocolHandlerFunc with
  | singleLine =>
      simp only [singleLineProcess, if_neg hmem, hline, true_and]
      cases htaken : (singleLine accepts s line).1 with
      | true => exact Or.inl ⟨if_pos rfl, singleLine_taken htaken⟩
      | false => exact Or.inr ⟨if_neg Bool.false_ne_true, _, singleLine_refused htaken⟩
  | multiLineDotStuffed =>
      simp only [multiLineProcessDotStuffed, if_neg hmem, hline, true_and]
      exact Or.inl dotStuffedLine_taken
  | multiLineBinary =>
      simp only [multiLineProcessBinary, if_pos (count_eq_zero hmode hp), if_neg hmem, hline,
        true_and]
      exact Or.inl chunkLine_taken

theorem process_data (hp : s.smapProtocolHandlerFunc = .multiLineBinary)
    (hcount : s.smapBinaryCount ≠ 0) :
    process accepts s buffer =
      (min s.smapBinaryCount buffer.length,
        ⟨.multiLineBinary, s.smapBinaryCount - buffer.length⟩,
        [.processData (buffer.take s.smapBinaryCount)]) := by
  rw [process, hp]
  simp only [multiLineProcessBinary, if_neg hcount]
  by_cases hle : s.smapBinaryCount ≥ buffer.length
  · rw [if_pos hle, Nat.min_eq_right hle, List.take_of_length_le hle, ← hp]
  · rw [if_neg hle, Nat.min_eq_left (by omega), Nat.sub_eq_zero_of_le (by omega), ← hp]

end Reading

section Dispatch
variable {accepts : List Seen → Reply → Bool} {i : Imap} {buffer line rest taken next : Text}

def machine (i : Imap) : Machine := atLine i.account (pieces i.seen)

theorem socketRead_taken {n : Nat} {s : Account} {seen : List Seen} (hpos : 0 < n)
    (h : process (accepts (pieces i.seen)) i.account buffer = (n, s, seen))
    (htaken : ∀ x ∈ seen, x.refused = false) :
    ∃ j, socketRead accepts i buffer = (n, j) ∧
      machine j = atLine s (pieces i.seen ++ bytewise seen) := by
  have hcalls (current : Bool) :
      pieces (i.seen ++ seen.map (Prod.mk current)) = pieces i.seen ++ bytewise seen := by
    rw [pieces_append, pieces_calls current]
    intro x mem
    rw [htaken x mem, Bool.and_false]
  rw [socketRead]
  cases hcur : i.current_handler with
  | true =>
      simp only [if_true, h, gt_iff_lt, if_pos hpos]
      exact ⟨_, rfl, congrArg (atLine s) (hcalls true)⟩
  | false =>
      simp only [Bool.false_eq_true, if_false, gt_iff_lt, Nat.lt_irrefl, List.map_nil,
        List.append_nil, h, if_pos hpos]
      exact ⟨_, rfl, congrArg (atLine s) (hcalls false)⟩

theorem socketRead_refused {reply : Reply} (hmem : NL ∈ buffer)
    (h : process (accepts (pieces i.seen)) i.account buffer =
      (0, i.account, [.answered reply false])) :
    ∃ j, socketRead accepts i buffer = ((buffer.takeWhile (· ≠ NL)).length + 1, j) ∧
      machine j = atLine i.account (pieces i.seen ++ bytewise [.answered reply false]) := by
  have honce : pieces [(false, .answered reply false)] = bytewise [.answered reply false] := rfl
  have hagain : pieces [(true, .answered reply false)] = [] := rfl
  rw [socketRead]
  cases hcur : i.current_handler with
  | true =>
      simp only [if_true, h, gt_iff_lt, Nat.lt_irrefl, if_false, List.map_cons, List.map_nil,
        pieces_append, hagain, List.append_nil, if_neg (not_not.2 hmem)]
      refine ⟨_, rfl, congrArg (atLine i.account) ?_⟩
      rw [pieces_append, pieces_append, hagain, List.append_nil, honce]
  | false =>
      simp only [Bool.false_eq_true, if_false, h, gt_iff_lt, Nat.lt_irrefl, List.map_cons,
        List.map_nil, List.append_nil, if_neg (not_not.2 hmem)]
      refine ⟨_, rfl, congrArg (atLine i.account) ?_⟩
      rw [pieces_append, honce]

/-- The beginning of a line stays, but for what is too much. -/
theorem socketRead_waits (hmode : (machine i).InLine) (hnl : NL ∉ buffer) :
    socketRead accepts i buffer =
      (if buffer.length > 16000 then buffer.length - 16000 else 0, ⟨i.account, false, i.seen⟩) := by
  have hprocess : process (accepts (pieces i.seen)) i.account buffer = (0, i.account, []) :=
    process_beginning hmode hnl
  rw [socketRead]
  cases hcur : i.current_handler with
  | true =>
      simp only [if_true, hprocess, gt_iff_lt, Nat.lt_irrefl, if_false, List.map_nil,
        List.append_nil, if_pos hnl]
  | false =>
      simp only [Bool.false_eq_true, if_false, hprocess, gt_iff_lt, Nat.lt_irrefl,
        List.map_nil, List.append_nil, if_pos hnl]

theorem socketRead_beginning (hmode : (machine i).InLine) (hnl : NL ∉ buffer)
    (hlen : buffer.length ≤ 16000) :
    socketRead accepts i buffer = (0, ⟨i.account, false, i.seen⟩) := by
  rw [socketRead_waits hmode hnl, if_neg (Nat.not_lt.2 hlen)]

theorem socketRead_line (hmode : (machine i).InLine) (hnl : NL ∉ line) :
    ∃ j, socketRead accepts i (line ++ NL :: rest) = (line.length + 1, j) ∧
      machine j = atLine (lineSeen (accepts (pieces i.seen)) i.account line).1
        (pieces i.seen ++ bytewise (lineSeen (accepts (pieces i.seen)) i.account line).2) := by
  obtain ⟨hsecond, ⟨hfirst, htaken⟩ | ⟨hfirst, reply, hrefused⟩⟩ :=
    @process_line (accepts (pieces i.seen)) i.account line rest hmode hnl
  · exact socketRead_taken (Nat.succ_pos _) (Prod.ext hfirst hsecond) htaken
  · obtain ⟨j, hread, hj⟩ :=
      @socketRead_refused accepts i (line ++ NL :: rest) reply
        (List.mem_append_right _ List.mem_cons_self)
        (Prod.ext hfirst (hsecond.trans hrefused))
    rw [takeWhile_line hnl] at hread
    rw [hrefused]
    exact ⟨j, hread, hj⟩

theorem socketRead_data (hp : i.account.smapProtocolHandlerFunc = .multiLineBinary)
    (hcount : i.account.smapBinaryCount ≠ 0) (hne : buffer ≠ []) :
    ∃ j, socketRead accepts i buffer = (min i.account.smapBinaryCount buffer.length, j) ∧
      machine j = ⟨.multiLineBinary, i.account.smapBinaryCount - buffer.length, [],
        pieces i.seen ++ bytewise [.processData (buffer.take i.account.smapBinaryCount)]⟩ := by
  have hpos := Nat.lt_min.2 ⟨Nat.pos_of_ne_zero hcount, List.length_pos_of_ne_nil hne⟩
  refine socketRead_taken hpos (process_data hp hcount) ?_
  intro x mem
  rw [List.mem_singleton.1 mem]
  rfl

end Dispatch

section Session
variable {accepts : List Seen → Reply → Bool} {i : Imap} {m before : Machine}
variable {buffer left : Text}

theorem socketRead_run (hne : buffer ≠ []) (h : (machine i).run accepts buffer = some m) :
    (∃ taken next j, taken ≠ [] ∧ buffer = taken ++ next ∧
      socketRead accepts i buffer = (taken.length, j) ∧
      (machine i).run accepts taken = some (machine j)) ∨
    ∃ j, socketRead accepts i buffer = (0, j) ∧ machine j = machine i ∧
      m = { machine i with line := buffer } := by
  by_cases hmode : (machine i).InLine
  · by_cases hmem : NL ∈ buffer
    · obtain ⟨line, next, rfl, hnl⟩ := List.eq_append_cons_of_mem hmem
      obtain ⟨j, hread, hj⟩ := @socketRead_line accepts i line next hmode hnl
      obtain ⟨r, hline, -⟩ := Option.bind_eq_some_iff.1 ((run_append _ _ _).symm.trans h)
      have hlen := length_of_run hmode hnl hline (Nat.zero_le _)
      refine Or.inl ⟨line ++ [NL], next, j, by simp, by simp, ?_, ?_⟩
      · rw [hread, List.length_append, List.length_singleton]
      · rw [run_trans (run_line hmode hnl hlen) (run_newline hmode), hj]
        rfl
    · have hlen := length_of_run hmode hmem h (Nat.zero_le _)
      refine Or.inr ⟨_, socketRead_beginning hmode hmem ((Nat.zero_add _).symm.trans_le hlen), rfl,
        ?_⟩
      rw [run_line hmode hmem hlen] at h
      exact (Option.some.inj h).symm
  · obtain ⟨hp, hcount⟩ := not_not.1 hmode
    have hstart : machine i =
        ⟨.multiLineBinary, i.account.smapBinaryCount, [], pieces i.seen⟩ := by
      rw [machine, atLine, show i.account.smapProtocolHandlerFunc = .multiLineBinary from hp]
    obtain ⟨j, hread, hj⟩ := @socketRead_data accepts i buffer hp hcount hne
    have htake : (buffer.take i.account.smapBinaryCount).length =
        min i.account.smapBinaryCount buffer.length := List.length_take
    refine Or.inl ⟨buffer.take i.account.smapBinaryCount, buffer.drop i.account.smapBinaryCount,
      j, ?_, (List.take_append_drop _ _).symm, by rw [hread, htake], ?_⟩
    · apply List.ne_nil_of_length_pos
      rw [htake]
      exact Nat.lt_min.2 ⟨Nat.pos_of_ne_zero hcount, List.length_pos_of_ne_nil hne⟩
    · rw [hstart, run_data _ (htake.trans_le (Nat.min_le_left _ _)), hj, htake,
        show i.account.smapBinaryCount - min i.account.smapBinaryCount buffer.length =
          i.account.smapBinaryCount - buffer.length by omega]

theorem readLoop_run (fuel : Nat) (hfuel : buffer.length ≤ fuel)
    (h : (machine i).run accepts buffer = some m) :
    ∃ j left, readLoop accepts fuel i buffer = (j, left) ∧
      (machine j).run accepts left = some m ∧ m = { machine j with line := left } := by
  induction fuel generalizing i buffer with
  | zero =>
      obtain rfl := List.length_eq_zero_iff.1 (Nat.le_zero.1 hfuel)
      exact ⟨i, [], rfl, h, (Option.some.inj h).symm⟩
  | succ fuel ih =>
      by_cases hne : buffer = []
      · subst hne
        exact ⟨i, [], by rw [readLoop, if_pos rfl], h, (Option.some.inj h).symm⟩
      rw [readLoop, if_neg hne]
      rcases socketRead_run hne h with ⟨taken, next, j, htaken, rfl, hread, hrun⟩ |
        ⟨j, hread, hj, hm⟩
      · have hpos := List.length_pos_of_ne_nil htaken
        rw [run_append, hrun, Option.bind_some] at h
        rw [List.length_append] at hfuel
        simp only [hread, if_neg (Nat.ne_of_gt hpos), List.drop_left]
        exact ih (by omega) h
      · simp only [hread, if_true]
        exact ⟨j, buffer, rfl, hj.symm ▸ h, hj.symm ▸ hm⟩

theorem session_run (reads : List Text) (hleft : (machine i).run accepts left = some before)
    (hbefore : before = { machine i with line := left })
    (h : before.run accepts reads.flatten = some m) :
    ∃ j rest, session accepts i left reads = (j, rest) ∧
      m = { machine j with line := rest } := by
  induction reads generalizing i left before with
  | nil =>
      obtain rfl := Option.some.inj h
      exact ⟨i, left, rfl, hbefore⟩
  | cons read reads ih =>
      rw [List.flatten_cons] at h
      obtain ⟨middle, hread, hrest⟩ := Option.bind_eq_some_iff.1 ((run_append _ _ _).symm.trans h)
      obtain ⟨j, rest, hloop, hrun, hmiddle⟩ :=
        readLoop_run _ (Nat.le_refl _) (run_trans hleft hread)
      rw [session, hloop]
      exact ih hrun hmiddle hrest

theorem session_eq (reads : List Text) (h : (machine i).run accepts reads.flatten = some m) :
    ∃ j, session accepts i [] reads = (j, m.line) ∧ j.account = m.account ∧
      pieces j.seen = m.taken := by
  obtain ⟨j, rest, hsession, rfl⟩ := @session_run accepts i m (machine i) [] reads rfl rfl h
  exact ⟨j, hsession, rfl, rfl⟩

end Session

end Cone.SmapReads
