import Cone.Lib.DotStuffing

/-! # Sending a message

`mail::smtp::Blast` of smtp.C and `mail::nntp::PostTask::pump` of nntppost.C, which fill the write
buffer of a socket with a message. -/
set_option autoImplicit false
namespace Cone.MessagePump

open Cone.Ctype Cone.Lib.DotStuffing

section Blast

/-- `message` is what `getc` still gives, with the characters pushed back; `mySmtp` is whether the
pointer is set. -/
structure Blast where
  message : Text
  lastChar : UInt8
  eofSent : Bool
  mySmtp : Bool
  deriving DecidableEq, Repr

def blast (message : Text) : Blast := ⟨message, NL, false, true⟩

/-- What goes into the buffer when `getc` gave `ch`, and the message then. -/
def put (lastChar ch : UInt8) (message : Text) : UInt8 × Text :=
  let message := if lastChar = NL && ch = DOT then ch :: message else message
  if ch = NL && lastChar ≠ CR then (CR, ch :: message) else (ch, message)

def fillBuffer : Nat → UInt8 → Text → Text × UInt8 × Option Text
  | 0, lastChar, message => ([], lastChar, some message)
  | _ + 1, lastChar, [] => ([], lastChar, none)
  | left + 1, lastChar, c :: message =>
    let (ch, message) := put lastChar c message
    let (buffer, filled) := fillBuffer left ch message
    (ch :: buffer, filled)

/-- `mail::smtp::Blast::fillWriteBuffer`: what it adds to the write buffer, or `none` where it
returns false. -/
def Blast.fillWriteBuffer (bufsiz : Nat) (b : Blast) : Option (Text × Blast) :=
  if !b.mySmtp then
    if !b.eofSent then some (CR :: NL :: lastLine, { b with eofSent := true }) else none
  else
    match fillBuffer bufsiz b.lastChar b.message with
    | (buffer, lastChar, some message) => some (buffer, { b with message, lastChar })
    | (buffer, lastChar, none) =>
      some (buffer ++ (if lastChar ≠ NL then [CR, NL] else []) ++ lastLine,
        ⟨[], lastChar, true, false⟩)

end Blast

section Pump

/-- `msg` is what `fread` still gives; `me` is whether the pointer is set. -/
structure Pump where
  msg : Text
  newLine : Bool
  me : Bool
  deriving DecidableEq, Repr

def pump (msg : Text) : Pump := ⟨msg, true, true⟩

def copyByte (newLine : Bool) (slice : Text) (b : UInt8) : Text × Text :=
  let (dot, slice) := if newLine && b = DOT then (slice ++ [b], []) else ([], slice)
  let (newline, slice) := if b = NL then (slice ++ [CR], []) else ([], slice)
  (dot ++ newline, slice ++ [b])

def copyChunk : Bool → Text → Text → Text × Text × Bool
  | newLine, slice, [] => ([], slice, newLine)
  | newLine, slice, b :: rest =>
    let (written, slice) := copyByte newLine slice b
    let (later, copied) := copyChunk (b = NL) slice rest
    (written ++ later, copied)

def Pump.fillWriteBuffer (bufsiz : Nat) (p : Pump) : Option (Text × Pump) :=
  if !p.me then none
  else
    match p.msg.take bufsiz with
    | [] => some ((if !p.newLine then [CR, NL] else []) ++ lastLine, { p with me := false })
    | b :: chunk =>
      let (written, slice, newLine) := copyChunk p.newLine [] (b :: chunk)
      some (written ++ slice, { p with msg := p.msg.drop bufsiz, newLine })

end Pump

section Socket
variable {σ : Type} (fillWriteBuffer : σ → Option (Text × σ))

/-- What `getWriteBuffer` gets out of all the calls, if they come to an end. -/
def sent : Nat → σ → Option Text
  | 0, _ => none
  | fuel + 1, s =>
    match fillWriteBuffer s with
    | none => some []
    | some (added, s) => (sent fuel s).map (added ++ ·)

theorem sent_step {fuel : Nat} {s s' : σ} {added out : Text}
    (h : fillWriteBuffer s = some (added, s')) (hrest : sent fillWriteBuffer fuel s' = some out) :
    sent fillWriteBuffer (fuel + 1) s = some (added ++ out) := by
  rw [sent, h]
  simp only [hrest, Option.map_some]

end Socket

section BlastRuns
variable {lastChar c : UInt8} {message : Text}

/-- What is still to come: behind a CR its newline, which was pushed back. -/
def owed (lastChar : UInt8) : Text → Text
  | [] => lineEnd lastChar [] ++ lastLine
  | c :: message =>
    if lastChar = CR ∧ c = NL then NL :: (stuffFrom true message ++ lineEnd NL message ++ lastLine)
    else stuffFrom (lastChar = NL) (c :: message) ++ lineEnd c message ++ lastLine

theorem owed_of_ne (h : lastChar ≠ CR) (message : Text) :
    owed lastChar message =
      stuffFrom (lastChar = NL) message ++ lineEnd lastChar message ++ lastLine := by
  cases message with
  | nil => rfl
  | cons c message => rw [owed, if_neg fun hcr => h hcr.1, lineEnd_cons]

/-- One byte of what is to come goes into the buffer. -/
theorem owed_put (hcr : CR ∉ c :: message) :
    owed lastChar (c :: message) =
      (put lastChar c message).1 :: owed (put lastChar c message).1 (put lastChar c message).2 := by
  have hc : c ≠ CR := fun heq => hcr (heq ▸ List.mem_cons_self)
  by_cases hnl : c = NL
  · subst hnl
    by_cases hlast : lastChar = CR
    · -- the newline that was pushed back
      have hput : put lastChar NL message = (NL, message) := by
        rw [hlast]
        rfl
      rw [hput, owed, if_pos ⟨hlast, rfl⟩, owed_of_ne (by decide : (NL : UInt8) ≠ CR)]
      rfl
    · have hput : put lastChar NL message = (CR, NL :: message) := by
        have hdot : (NL : UInt8) ≠ DOT := by decide
        simp [put, hlast, hdot]
      rw [hput, owed_of_ne hlast, owed, if_pos ⟨rfl, rfl⟩, lineEnd_cons]
      rfl
  · have howed : owed lastChar (c :: message) =
        stuffFrom (lastChar = NL) (c :: message) ++ lineEnd c message ++ lastLine := by
      rw [owed, if_neg fun h => hnl h.2]
    rw [howed, stuffFrom, if_neg hnl, decide_eq_false hnl]
    by_cases hdot : lastChar = NL ∧ c = DOT
    · -- the dot is read again, no longer at the start of the line
      have hput : put lastChar c message = (c, c :: message) := by
        rw [hdot.1, hdot.2]
        rfl
      rw [hput, owed_of_ne hc, stuffFrom, if_neg hnl, decide_eq_false hnl, lineEnd_cons]
      simp [hdot.1, hdot.2]
    · have hput : put lastChar c message = (c, message) := by
        simp [put, hnl, hdot]
      rw [hput, owed_of_ne hc, decide_eq_false hnl]
      simp [hdot]

theorem put_of_mem (hcr : CR ∉ c :: message) : CR ∉ (put lastChar c message).2 := by
  rw [put]
  split <;> split <;> simp_all

theorem fillBuffer_spec (left : Nat) (hcr : CR ∉ message) :
    match fillBuffer left lastChar message with
    | (buffer, lastChar', some message') =>
      buffer.length = left ∧ CR ∉ message' ∧
        owed lastChar message = buffer ++ owed lastChar' message'
    | (buffer, lastChar', none) => owed lastChar message = buffer ++ owed lastChar' [] := by
  induction left generalizing lastChar message with
  | zero => exact ⟨rfl, hcr, rfl⟩
  | succ left ih =>
      cases message with
      | nil => rfl
      | cons c message =>
          have hstep : owed lastChar (c :: message) = _ := owed_put hcr
          have hrest := @ih (put lastChar c message).1 (put lastChar c message).2 (put_of_mem hcr)
          rw [fillBuffer, hstep]
          rcases hfill : fillBuffer left (put lastChar c message).1 (put lastChar c message).2 with
            ⟨buffer, last, _ | message'⟩
          · rw [hfill] at hrest
            simp only [hfill]
            exact congrArg _ hrest
          · rw [hfill] at hrest
            simp only [hfill]
            obtain ⟨hlen, hcr', heq⟩ := hrest
            exact ⟨congrArg (· + 1) hlen, hcr', congrArg _ heq⟩

theorem sent_blast (bufsiz : Nat) (hsiz : 0 < bufsiz) (fuel : Nat) (hcr : CR ∉ message)
    (hfuel : (owed lastChar message).length + 2 ≤ fuel) (eof : Bool) :
    sent (Blast.fillWriteBuffer bufsiz) fuel ⟨message, lastChar, eof, true⟩ =
      some (owed lastChar message) := by
  induction fuel generalizing lastChar message with
  | zero => omega
  | succ fuel ih =>
      have hspec := @fillBuffer_spec lastChar message bufsiz hcr
      rcases hfill : fillBuffer bufsiz lastChar message with ⟨buffer, last, _ | message'⟩
      · rw [hfill] at hspec
        have hend : sent (Blast.fillWriteBuffer bufsiz) fuel ⟨[], last, true, false⟩ = some [] := by
          obtain ⟨fuel, rfl⟩ : ∃ n, fuel = n + 1 := ⟨fuel - 1, by omega⟩
          rfl
        have hlast : Blast.fillWriteBuffer bufsiz ⟨message, lastChar, eof, true⟩ =
            some (buffer ++ (if last ≠ NL then [CR, NL] else []) ++ lastLine,
              ⟨[], last, true, false⟩) := by
          simp [Blast.fillWriteBuffer, hfill]
        rw [sent_step _ hlast hend, hspec, owed, lineEnd, List.append_nil, List.append_assoc,
          ite_not]
        rfl
      · rw [hfill] at hspec
        obtain ⟨hlen, hcr', heq⟩ := hspec
        have hlength := congrArg List.length heq
        rw [List.length_append] at hlength
        rw [heq]
        refine sent_step _ ?_ (ih hcr' (by omega))
        simp [Blast.fillWriteBuffer, hfill]

end BlastRuns

section PumpRuns
variable {msg : Text}

theorem copyByte_spec (newLine : Bool) (slice : Text) (b : UInt8) :
    (copyByte newLine slice b).1 ++ (copyByte newLine slice b).2 =
      slice ++ if b = NL then [CR, NL] else if newLine && b = DOT then [b, b] else [b] := by
  by_cases hnl : b = NL
  · have hdot : (NL : UInt8) ≠ DOT := by decide
    simp [copyByte, hnl, hdot]
  · by_cases hdot : newLine && b = DOT
    · simp [copyByte, hnl, hdot]
    · simp [copyByte, hnl, hdot]

theorem copyChunk_spec (d : UInt8) (slice chunk : Text) :
    (copyChunk (d = NL) slice chunk).1 ++ (copyChunk (d = NL) slice chunk).2.1 =
        slice ++ stuffFrom (d = NL) chunk ∧
      (copyChunk (d = NL) slice chunk).2.2 = decide (chunk.getLast?.getD d = NL) := by
  induction chunk generalizing d slice with
  | nil => exact ⟨(List.append_nil slice).symm, rfl⟩
  | cons b rest ih =>
      obtain ⟨hwritten, hlast⟩ := ih b (copyByte (d = NL) slice b).2
      rw [getLast_cons, stuffFrom, ← List.append_assoc, ← copyByte_spec, List.append_assoc,
        ← hwritten, ← List.append_assoc]
      exact ⟨rfl, hlast⟩

theorem sent_pump (bufsiz : Nat) (hsiz : 0 < bufsiz) (fuel : Nat) (d : UInt8)
    (hfuel : msg.length + 2 ≤ fuel) :
    sent (Pump.fillWriteBuffer bufsiz) fuel ⟨msg, d = NL, true⟩ =
      some (stuffFrom (d = NL) msg ++ lineEnd d msg ++ lastLine) := by
  induction fuel generalizing d msg with
  | zero => omega
  | succ fuel ih =>
      cases hchunk : msg.take bufsiz with
      | nil =>
          obtain rfl : msg = [] := (List.take_eq_nil_iff.1 hchunk).resolve_left (by omega)
          have hend : sent (Pump.fillWriteBuffer bufsiz) fuel ⟨[], d = NL, false⟩ = some [] := by
            obtain ⟨fuel, rfl⟩ : ∃ n, fuel = n + 1 := ⟨fuel - 1, by omega⟩
            rfl
          have hlast : Pump.fillWriteBuffer bufsiz ⟨[], d = NL, true⟩ =
              some ((if d ≠ NL then [CR, NL] else []) ++ lastLine, ⟨[], d = NL, false⟩) := by
            simp [Pump.fillWriteBuffer]
          rw [sent_step _ hlast hend, lineEnd, List.append_nil, ite_not]
          rfl
      | cons b chunk =>
          obtain ⟨hwritten, hlast⟩ := copyChunk_spec d [] (b :: chunk)
          have hmsg : msg = (b :: chunk) ++ msg.drop bufsiz := by
            rw [← hchunk, List.take_append_drop]
          have hlen : (msg.drop bufsiz).length + 1 ≤ msg.length := by
            have := congrArg List.length hmsg
            rw [List.length_append, List.length_cons] at this
            omega
          have hrest := @ih (msg.drop bufsiz) ((b :: chunk).getLast?.getD d) (by omega)
          have hall : stuffFrom (d = NL) msg ++ lineEnd d msg ++ lastLine =
              stuffFrom (d = NL) (b :: chunk) ++
                (stuffFrom ((b :: chunk).getLast?.getD d = NL) (msg.drop bufsiz) ++
                  lineEnd ((b :: chunk).getLast?.getD d) (msg.drop bufsiz) ++ lastLine) := by
            have happend := stuffFrom_append d (b :: chunk) (msg.drop bufsiz)
            rw [← hmsg] at happend
            rw [happend, ← lineEnd_append, ← hmsg]
            simp only [List.append_assoc]
          rw [hall]
          refine sent_step _ ?_ hrest
          rw [List.nil_append] at hwritten
          rw [← hwritten, ← hlast]
          simp [Pump.fillWriteBuffer, hchunk]

end PumpRuns

section Sent

/-- Whatever the buffers' sizes, both send the stuffed message. -/
theorem posts_stuffed (message : Text) (hcr : CR ∉ message) :
    (∃ n, ∀ smtpsiz nntpsiz fuel, 0 < smtpsiz → 0 < nntpsiz → n ≤ fuel →
      sent (Blast.fillWriteBuffer smtpsiz) fuel (blast message) = some (stuffed message) ∧
      sent (Pump.fillWriteBuffer nntpsiz) fuel (pump message) = some (stuffed message)) ∧
    (∃ lines : List Text, (∀ line ∈ lines, NL ∉ line ∧ CR ∉ line ∧ line ≠ [DOT]) ∧
      stuffed message = lines.flatMap (· ++ [CR, NL]) ++ lastLine ∧
      lines.flatMap (fun line => unstuffLine line ++ [NL]) = ended message) ∧
    ∀ before after, stuffed message = before ++ NL :: after →
      ∃ b, before = b ++ [CR] ∧ b.getLast? ≠ some CR := by
  refine ⟨⟨(stuffed message).length + message.length + 2, ?_⟩, lines_of_stuffed message hcr,
    fun before after h => newline_of_stuffed hcr h⟩
  intro smtpsiz nntpsiz fuel hsmtp hnntp hfuel
  have hne : (NL : UInt8) ≠ CR := by decide
  have howed := owed_of_ne hne message
  constructor
  · rw [blast, sent_blast smtpsiz hsmtp fuel hcr, howed]
    · rfl
    · rw [howed]
      have : (stuffed message).length + 2 ≤ fuel := by omega
      exact this
  · exact sent_pump nntpsiz hnntp fuel NL (by omega)

theorem posts_stuffed_dots :
    sent (Blast.fillWriteBuffer 1) 13 (blast (str ".a\n.")) =
        some (str "..a\x0d\n..\x0d\n.\x0d\n") ∧
      ∃ n, ∀ smtpsiz nntpsiz fuel, 0 < smtpsiz → 0 < nntpsiz → n ≤ fuel →
        sent (Blast.fillWriteBuffer smtpsiz) fuel (blast (str ".a\n.")) =
          some (stuffed (str ".a\n.")) ∧
        sent (Pump.fillWriteBuffer nntpsiz) fuel (pump (str ".a\n.")) =
          some (stuffed (str ".a\n.")) :=
  ⟨by decide, (posts_stuffed (str ".a\n.") (by decide)).1⟩

/-- A message without bytes gets no newline. -/
theorem empty_message_has_no_line :
    sent (Blast.fillWriteBuffer 8192) 2 (blast []) = some lastLine ∧
      sent (Pump.fillWriteBuffer 8192) 2 (pump []) = some lastLine ∧
      ¬ ∃ lines : List Text, lastLine = lines.flatMap (· ++ [CR, NL]) ++ lastLine ∧
        lines.flatMap (fun line => unstuffLine line ++ [NL]) = [] ++ [NL] := by
  refine ⟨by decide, by decide, ?_⟩
  rintro ⟨lines, hlines, hfile⟩
  have hnil : lines.flatMap (· ++ [CR, NL]) = [] := List.self_eq_append_left.1 hlines
  cases lines with
  | nil => cases hfile
  | cons line lines =>
      rw [List.flatMap_cons] at hnil
      simp at hnil

end Sent
end Cone.MessagePump
