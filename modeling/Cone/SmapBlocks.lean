import Cone.SmapReads

/-! # SMAP reply streams

Single lines, dot-stuffed blocks and binary blocks one after the other, and what a handler sees of
them.  The lines of a block are the ones that the server sends, without their newlines. -/
set_option autoImplicit false
namespace Cone.SmapBlocks

open Cone.Ctype Cone.Smap Cone.SmapReads

section Streams

def Line (line : Text) : Prop := NL ∉ line ∧ line.length ≤ 16000

def replyOf (line : Text) : Reply := parseWords [] (line ++ [NL])

def chomp (line : Text) : Text := if line.getLast? = some CR then line.dropLast else line

def unstuffed (line : Text) : Text :=
  if (chomp line).head? = some (byte '.') then (chomp line).drop 1 else chomp line

def LoneDot (line : Text) : Prop := chomp line = [byte '.']

def announced (line : Text) : Nat :=
  if (extract (line ++ [NL])).2.1 then (extract (line ++ [NL])).1 else 0

def waiting : Account := ⟨.singleLine, 0⟩

inductive Response where
  | single (line : Text)
  | dotStuffed (start : Text) (words : List Text) (estimate : Nat) (lines : List Text)
      (last : Text)
  | binary (start : Text) (words : List Text) (estimate : Nat) (first : Text)
      (chunks : List (Text × Text)) (last : Text)

def withNewline (line : Text) : Text := line ++ [NL]

/-- What the server sends. -/
def Response.sent : Response → Text
  | .single line => withNewline line
  | .dotStuffed start _ _ lines last =>
    withNewline start ++ lines.flatMap withNewline ++ withNewline last
  | .binary start _ _ first chunks last =>
    withNewline start ++ first ++ chunks.flatMap (fun chunk => withNewline chunk.1 ++ chunk.2) ++
      withNewline last

def Response.Ok : Response → Prop
  | .single line => Line line ∧ beginning (replyOf line) waiting = none
  | .dotStuffed start words estimate lines last =>
    Line start ∧
      beginning (replyOf start) waiting = some (⟨.multiLineDotStuffed, 0⟩, words, estimate) ∧
      (∀ line ∈ lines, Line line ∧ ¬ LoneDot line) ∧ Line last ∧ LoneDot last
  | .binary start words estimate first chunks last =>
    Line start ∧
      beginning (replyOf start) waiting =
        some (⟨.multiLineBinary, first.length⟩, words, estimate) ∧
      (∀ chunk ∈ chunks,
        Line chunk.1 ∧ announced chunk.1 = chunk.2.length ∧ announced chunk.1 ≠ 0) ∧
      Line last ∧ announced last = 0

instance (line : Text) : Decidable (Line line) :=
  inferInstanceAs (Decidable (NL ∉ line ∧ line.length ≤ 16000))

instance (line : Text) : Decidable (LoneDot line) :=
  inferInstanceAs (Decidable (chomp line = [byte '.']))

instance : (x : Response) → Decidable x.Ok
  | .single _ => instDecidableAnd
  | .dotStuffed _ _ _ _ _ => instDecidableAnd
  | .binary _ _ _ _ _ _ => instDecidableAnd

/-- What a handler sees of it. -/
def Response.seen (accepts : Reply → Bool) : Response → List Seen
  | .single line => [.answered (replyOf line) (takes accepts (replyOf line))]
  | .dotStuffed start words estimate lines _ =>
    [.answered (replyOf start) true, .beginProcessData words estimate] ++
      lines.map (fun line => .processData (withNewline (unstuffed line))) ++ [.endData]
  | .binary start words estimate first chunks _ =>
    [.answered (replyOf start) true, .beginProcessData words estimate, .processData first] ++
      chunks.map (fun chunk => .processData chunk.2) ++ [.endData]

def Response.after (accepts : List Seen → Reply → Bool) (seen : List Seen) (x : Response) :
    List Seen :=
  seen ++ bytewise (x.seen (accepts seen))

end Streams

section Machines
variable {accepts : List Seen → Reply → Bool} {s : Account} {seen : List Seen} {line : Text}

theorem bytewise_append (a b : List Seen) : bytewise (a ++ b) = bytewise a ++ bytewise b :=
  List.flatMap_append

theorem bytewise_cons (x : Seen) (xs : List Seen) :
    bytewise (x :: xs) = bytewise [x] ++ bytewise xs :=
  bytewise_append [x] xs

theorem run_withNewline (hmode : (atLine s seen).InLine) (hline : Line line) :
    (atLine s seen).run accepts (withNewline line) =
      some (atLine (lineSeen (accepts seen) s line).1
        (seen ++ bytewise (lineSeen (accepts seen) s line).2)) := by
  have hlen : (atLine s seen).line.length + line.length ≤ 16000 :=
    (Nat.zero_add _).trans_le hline.2
  exact run_trans (run_line hmode hline.1 hlen) (run_newline hmode)

theorem waiting_inLine : (atLine waiting seen).InLine := fun h => Protocol.noConfusion h.1

theorem dotStuffed_inLine : (atLine ⟨.multiLineDotStuffed, 0⟩ seen).InLine :=
  fun h => Protocol.noConfusion h.1

theorem binary_inLine : (atLine ⟨.multiLineBinary, 0⟩ seen).InLine := fun h => h.2 rfl

theorem run_start {words : List Text} {estimate : Nat} (hline : Line line)
    (h : beginning (replyOf line) waiting = some (s, words, estimate)) :
    (atLine waiting seen).run accepts (withNewline line) =
      some (atLine s (seen ++ [.answered (replyOf line) true,
        .beginProcessData words estimate])) := by
  rw [replyOf] at h
  rw [run_withNewline waiting_inLine hline]
  simp only [lineSeen, waiting, singleLine] at h ⊢
  rw [h]
  rfl

section DotStuffed

theorem dotStuffedLine_data (h : ¬ LoneDot line) :
    dotStuffedLine s line = (s, [.processData (withNewline (unstuffed line))]) := by
  rw [LoneDot] at h
  simp only [dotStuffedLine, unstuffed, withNewline]
  rw [← chomp]
  by_cases hdot : (chomp line).head? = some (byte '.')
  · have hrest : (chomp line).drop 1 ≠ [] := by
      intro hnil
      obtain ⟨rest, hrest⟩ := List.head?_eq_some_iff.1 hdot
      rw [hrest] at h hnil
      exact h (congrArg (List.cons _) hnil)
    rw [if_pos hdot, if_neg hrest, if_pos hdot]
  · rw [if_neg hdot, if_neg hdot]

theorem dotStuffedLine_last (h : LoneDot line) :
    dotStuffedLine s line = ({ s with smapProtocolHandlerFunc := .singleLine }, [.endData]) := by
  rw [LoneDot] at h
  simp only [dotStuffedLine]
  rw [← chomp, h]
  rfl

theorem run_lines (lines : List Text) (h : ∀ line ∈ lines, Line line ∧ ¬ LoneDot line) :
    (atLine ⟨.multiLineDotStuffed, 0⟩ seen).run accepts (lines.flatMap withNewline) =
      some (atLine ⟨.multiLineDotStuffed, 0⟩ (seen ++
        bytewise (lines.map fun line => .processData (withNewline (unstuffed line))))) := by
  induction lines generalizing seen with
  | nil => exact congrArg (fun t => some (atLine _ t)) (List.append_nil seen).symm
  | cons line lines ih =>
      obtain ⟨hline, hdata⟩ := h line List.mem_cons_self
      have hfirst := @run_withNewline accepts _ _ line (@dotStuffed_inLine seen) hline
      rw [lineSeen, dotStuffedLine_data hdata] at hfirst
      rw [List.flatMap_cons, List.map_cons, bytewise_cons,
        ← List.append_assoc]
      exact run_trans hfirst (ih fun l mem => h l (List.mem_cons_of_mem _ mem))

end DotStuffed

section Binary

theorem chunkLine_chunk (h : announced line ≠ 0) :
    chunkLine s line = ({ s with smapBinaryCount := announced line }, []) := by
  rw [announced] at h ⊢
  rw [chunkLine]
  cases hread : (extract (line ++ [NL])).2.1 with
  | false =>
      rw [hread] at h
      exact absurd rfl h
  | true =>
      rw [hread, if_pos rfl] at h
      simp only [Bool.not_true, Bool.false_or, decide_eq_true_eq, if_neg h, if_true]

theorem chunkLine_last (h : announced line = 0) :
    chunkLine s line = ({ s with smapProtocolHandlerFunc := .singleLine }, [.endData]) := by
  rw [announced] at h
  rw [chunkLine]
  cases hread : (extract (line ++ [NL])).2.1 with
  | false => rfl
  | true =>
      rw [hread, if_pos rfl] at h
      simp only [h, Bool.not_true, Bool.false_or, decide_true, if_true]

theorem run_chunks (chunks : List (Text × Text))
    (h : ∀ chunk ∈ chunks,
      Line chunk.1 ∧ announced chunk.1 = chunk.2.length ∧ announced chunk.1 ≠ 0) :
    (atLine ⟨.multiLineBinary, 0⟩ seen).run accepts
        (chunks.flatMap fun chunk => withNewline chunk.1 ++ chunk.2) =
      some (atLine ⟨.multiLineBinary, 0⟩ (seen ++
        bytewise (chunks.map fun chunk => .processData chunk.2))) := by
  induction chunks generalizing seen with
  | nil => exact congrArg (fun t => some (atLine _ t)) (List.append_nil seen).symm
  | cons chunk chunks ih =>
      obtain ⟨hline, hlen, hne⟩ := h chunk List.mem_cons_self
      have hfirst := @run_withNewline accepts _ _ chunk.1 (@binary_inLine seen) hline
      rw [lineSeen, chunkLine_chunk hne] at hfirst
      have hdata := @run_data accepts (announced chunk.1) (seen ++ bytewise []) chunk.2 hlen.ge
      rw [hlen, Nat.sub_self] at hdata
      rw [hlen] at hfirst
      have hchunk := run_trans hfirst hdata
      rw [List.flatMap_cons, List.map_cons, bytewise_cons, ← List.append_assoc]
      rw [show bytewise [] = [] from rfl, List.append_nil] at hchunk
      exact run_trans hchunk (ih fun c mem => h c (List.mem_cons_of_mem _ mem))

end Binary

theorem run_response {x : Response} (h : x.Ok) :
    (atLine waiting seen).run accepts x.sent = some (atLine waiting (x.after accepts seen)) := by
  cases x with
  | single line =>
      obtain ⟨hline, hnone⟩ := h
      rw [Response.sent, run_withNewline waiting_inLine hline]
      rw [replyOf] at hnone
      simp only [lineSeen, waiting, singleLine] at hnone ⊢
      rw [hnone]
      rfl
  | dotStuffed start words estimate lines last =>
      obtain ⟨hstart, hbegin, hlines, hlast, hdot⟩ := h
      have hend := @run_withNewline accepts _ _ last
        (@dotStuffed_inLine ((seen ++ [.answered (replyOf start) true,
          .beginProcessData words estimate]) ++
          bytewise (lines.map fun line => .processData (withNewline (unstuffed line))))) hlast
      rw [lineSeen, dotStuffedLine_last hdot] at hend
      have hall := run_trans (run_trans (run_start hstart hbegin) (run_lines lines hlines)) hend
      rw [Response.sent, hall, Response.after, Response.seen, bytewise_append, bytewise_append,
        List.append_assoc, List.append_assoc, List.append_assoc]
      rfl
  | binary start words estimate first chunks last =>
      obtain ⟨hstart, hbegin, hchunks, hlast, hzero⟩ := h
      have hfirst := @run_data accepts first.length (seen ++ [.answered (replyOf start) true,
        .beginProcessData words estimate]) first (Nat.le_refl _)
      rw [Nat.sub_self] at hfirst
      have hend := @run_withNewline accepts _ _ last
        (@binary_inLine (((seen ++ [.answered (replyOf start) true,
          .beginProcessData words estimate]) ++ bytewise [.processData first]) ++
          bytewise (chunks.map fun chunk => .processData chunk.2))) hlast
      rw [lineSeen, chunkLine_last hzero] at hend
      have hall := run_trans (run_trans (run_trans (run_start hstart hbegin) hfirst)
        (run_chunks chunks hchunks)) hend
      rw [Response.sent, hall, Response.after, Response.seen, bytewise_append, bytewise_append]
      simp only [List.append_assoc]
      rfl

theorem run_responses (responses : List Response) (h : ∀ x ∈ responses, x.Ok) :
    (atLine waiting seen).run accepts (responses.flatMap Response.sent) =
      some (atLine waiting (responses.foldl (Response.after accepts) seen)) := by
  induction responses generalizing seen with
  | nil => rfl
  | cons x responses ih =>
      rw [List.flatMap_cons, List.foldl_cons]
      exact run_trans (run_response (h x List.mem_cons_self))
        (ih fun y mem => h y (List.mem_cons_of_mem _ mem))

end Machines

section LongLines
variable {accepts : List Seen → Reply → Bool} {i : Imap} {a b line buffer : Text}

theorem inLine_of_waiting (h : i.account = waiting) : (machine i).InLine := by
  rw [machine, h]
  exact waiting_inLine

theorem readLoop_nil (fuel : Nat) : readLoop accepts fuel i [] = (i, []) := by
  cases fuel with
  | zero => rfl
  | succ fuel => rw [readLoop, if_pos rfl]

theorem readLoop_beginning (fuel : Nat) (hmode : (machine i).InLine) (hnl : NL ∉ buffer)
    (hlen : buffer.length ≤ 16000) :
    ∃ j, readLoop accepts fuel i buffer = (j, buffer) ∧ j.account = i.account ∧
      j.seen = i.seen := by
  cases fuel with
  | zero => exact ⟨i, rfl, rfl, rfl⟩
  | succ fuel =>
      by_cases hnil : buffer = []
      · exact ⟨i, by rw [readLoop, if_pos hnil], rfl, rfl⟩
      · rw [readLoop, if_neg hnil, socketRead_beginning hmode hnl hlen]
        exact ⟨_, rfl, rfl, rfl⟩

theorem readLoop_long (hmode : (machine i).InLine) (hnl : NL ∉ buffer)
    (hlen : 16000 < buffer.length) :
    ∃ j, readLoop accepts buffer.length i buffer =
        (j, buffer.drop (buffer.length - 16000)) ∧ j.account = i.account ∧ j.seen = i.seen := by
  obtain ⟨fuel, hfuel⟩ := Nat.exists_eq_add_of_lt hlen
  have hne : buffer ≠ [] := List.ne_nil_of_length_pos (Nat.zero_lt_of_lt hlen)
  have hread := @socketRead_waits accepts i buffer hmode hnl
  rw [if_pos hlen] at hread
  obtain ⟨j, hj, haccount, hseen⟩ :=
    @readLoop_beginning accepts ⟨i.account, false, i.seen⟩ (buffer.drop (buffer.length - 16000))
      (16000 + fuel) hmode (fun mem => hnl (List.mem_of_mem_drop mem))
      (by rw [List.length_drop]; omega)
  refine ⟨j, ?_, haccount, hseen⟩
  have hloop : readLoop accepts (16000 + fuel + 1) i buffer =
      readLoop accepts (16000 + fuel) ⟨i.account, false, i.seen⟩
        (buffer.drop (buffer.length - 16000)) := by
    rw [readLoop, if_neg hne, hread]
    exact if_neg (Nat.sub_ne_zero_of_lt hlen)
  exact (congrArg (fun n => readLoop accepts n i buffer) hfuel).trans (hloop.trans hj)

theorem readLoop_line (hmode : (machine i).InLine) (hnl : NL ∉ line) :
    ∃ j, readLoop accepts (line ++ [NL]).length i (line ++ [NL]) = (j, []) ∧
      pieces j.seen =
        pieces i.seen ++ bytewise (lineSeen (accepts (pieces i.seen)) i.account line).2 := by
  have hne : line ++ [NL] ≠ [] := List.append_ne_nil_of_right_ne_nil _ (List.cons_ne_nil _ _)
  have hlen : (line ++ [NL]).length = line.length + 1 := List.length_append
  obtain ⟨j, hread, hj⟩ := @socketRead_line accepts i line [] hmode hnl
  refine ⟨j, ?_, congrArg Machine.taken hj⟩
  rw [hlen, readLoop, if_neg hne, hread]
  simp only [Nat.add_one_ne_zero, if_false]
  rw [← hlen, List.drop_length, readLoop_nil]

/-- A line is used up as a whole, however long it is. -/
theorem session_uncut (hwaiting : i.account = waiting) (hnl : NL ∉ a ++ b)
    (ha : a.length ≤ 16000) :
    pieces (session accepts i [] [a, b ++ [NL]]).1.seen =
      pieces i.seen ++ bytewise (lineSeen (accepts (pieces i.seen)) waiting (a ++ b)).2 := by
  obtain ⟨j, hj, haccount, hseen⟩ := @readLoop_beginning accepts i a a.length
    (inLine_of_waiting hwaiting)
    (fun mem => hnl (List.mem_append_left _ mem)) ha
  obtain ⟨k, hk, hkseen⟩ := @readLoop_line accepts j (a ++ b)
    (inLine_of_waiting (haccount.trans hwaiting)) hnl
  rw [hseen, haccount, hwaiting] at hkseen
  rw [session, List.nil_append, hj]
  simp only
  rw [session, ← List.append_assoc, hk]
  exact hkseen

theorem session_cut (hwaiting : i.account = waiting) (hnl : NL ∉ a ++ b)
    (ha : a.length ≤ 16000) (hlen : 16000 < (a ++ b).length) :
    pieces (session accepts i [] [a, b, [NL]]).1.seen =
      pieces i.seen ++ bytewise (lineSeen (accepts (pieces i.seen)) waiting
        ((a ++ b).drop ((a ++ b).length - 16000))).2 := by
  obtain ⟨j, hj, haccount, hseen⟩ := @readLoop_beginning accepts i a a.length
    (inLine_of_waiting hwaiting)
    (fun mem => hnl (List.mem_append_left _ mem)) ha
  obtain ⟨k, hk, hkaccount, hkseen⟩ :=
    @readLoop_long accepts j (a ++ b) (inLine_of_waiting (haccount.trans hwaiting)) hnl hlen
  obtain ⟨l, hl, hlseen⟩ := @readLoop_line accepts k ((a ++ b).drop ((a ++ b).length - 16000))
    (inLine_of_waiting (hkaccount.trans (haccount.trans hwaiting)))
    (fun mem => hnl (List.mem_of_mem_drop mem))
  rw [hkseen, hseen, hkaccount, haccount, hwaiting] at hlseen
  rw [session, List.nil_append, hj]
  simp only
  rw [session, hk]
  simp only
  rw [session, hl]
  exact hlseen

theorem replyOf_word (n : Nat) :
    replyOf (List.replicate (n + 1) (byte 'x')) = .words [List.replicate (n + 1) (byte 'x')] := by
  have hspace : ∀ c ∈ List.replicate n (byte 'x'), (!ImapSearch.unicode_isspace c) = true := by
    intro c mem
    rw [List.eq_of_mem_replicate mem]
    decide
  have hword : cstr (List.replicate (n + 1) (byte 'x')) = List.replicate (n + 1) (byte 'x') := by
    rw [cstr, List.takeWhile_replicate, if_pos (by decide)]
  have htake : (List.replicate n (byte 'x') ++ [NL]).takeWhile
      (!ImapSearch.unicode_isspace ·) = List.replicate n (byte 'x') := by
    rw [List.takeWhile_append_of_pos hspace]
    exact List.append_nil _
  have hdrop : (List.replicate n (byte 'x') ++ [NL]).dropWhile
      (!ImapSearch.unicode_isspace ·) = [NL] := List.dropWhile_append_of_pos hspace
  rw [List.replicate_succ] at hword ⊢
  rw [replyOf, List.cons_append, parseWords, htake, hdrop, hword,
    if_neg (by decide), if_neg (by decide), if_neg (by decide), if_pos (by decide)]
  show parseWords [_] [] = _
  rw [parseWords]

theorem lineSeen_word (n : Nat) :
    bytewise (lineSeen (fun _ => true) waiting (List.replicate (n + 1) (byte 'x'))).2 =
      [.answered (.words [List.replicate (n + 1) (byte 'x')]) true] := by
  have hreply := replyOf_word n
  have hnone : beginning (.words [List.replicate (n + 1) (byte 'x')]) waiting = none := by
    rw [List.replicate_succ, beginning, if_pos (by decide)]
  rw [replyOf] at hreply
  rw [waiting] at hnone
  simp only [lineSeen, waiting, singleLine, hreply, hnone, takes, Bool.or_true]
  rfl

end LongLines

section Sessions
variable {accepts : List Seen → Reply → Bool} {i : Imap}

/-- However any beginning of the responses is cut into reads, the calls are the same, and so is
the data; all of them are seen for what they are. -/
theorem cut_responses (responses : List Response) (hok : ∀ x ∈ responses, x.Ok)
    (hwaiting : i.account = waiting) (reads others : List Text) (rest : Text)
    (hreads : reads.flatten ++ rest = responses.flatMap Response.sent)
    (hothers : others.flatten = reads.flatten) :
    pieces (session accepts i [] others).1.seen = pieces (session accepts i [] reads).1.seen ∧
      (rest = [] →
        (session accepts i [] reads).1.account = waiting ∧ (session accepts i [] reads).2 = [] ∧
        pieces (session accepts i [] reads).1.seen =
          responses.foldl (Response.after accepts) (pieces i.seen)) := by
  have hrun := @run_responses accepts (pieces i.seen) responses hok
  rw [← hreads, ← hwaiting] at hrun
  obtain ⟨m, hm, hrest⟩ := Option.bind_eq_some_iff.1 ((run_append _ _ _).symm.trans hrun)
  obtain ⟨j, hj, haccount, hseen⟩ := session_eq reads hm
  obtain ⟨k, hk, -, hkseen⟩ := @session_eq accepts i m others (hothers.symm ▸ hm)
  rw [hj, hk]
  refine ⟨hkseen.trans hseen.symm, ?_⟩
  rintro rfl
  obtain rfl := Option.some.inj hrest
  exact ⟨haccount.trans hwaiting, rfl, hseen⟩

/-- An account at its first reply. -/
def fresh : Imap := ⟨waiting, false, []⟩

def sample : List Response :=
  [.single (str "* 1 EXISTS"),
    .dotStuffed (str "\x7b.9\x7d a") [str "a"] 9 [str "x\x0d", str "..y"] (str ".\x0d"),
    .binary (str "\x7b3/5\x7d b") [str "b"] 5 [NL, byte '.', NL] [(str "2", str "zz")] [],
    .single (str "+OK done")]

def sampleText : Text := sample.flatMap Response.sent

theorem cut_responses_sample :
    pieces (session (fun _ _ => true) fresh [] (sampleText.map fun c => [c])).1.seen =
        pieces (session (fun _ _ => true) fresh [] [sampleText]).1.seen ∧
      pieces (session (fun _ _ => true) fresh [] [sampleText]).1.seen =
        sample.foldl (Response.after fun _ _ => true) [] := by
  have h := @cut_responses (fun _ _ => true) fresh sample (by decide +kernel) rfl [sampleText]
    (sampleText.map fun c => [c]) [] (by decide +kernel) (by decide +kernel)
  exact ⟨h.1, (h.2 rfl).2.2⟩

/-- A reply that is refused is offered once or twice, and a long one is whole or not. -/
theorem cuts_differ :
    (session (fun _ reply => reply ≠ .words [str "x"]) fresh [] [str "+OK a\nx\n"]).1.seen.map
        Prod.snd ≠
      (session (fun _ reply => reply ≠ .words [str "x"]) fresh []
        [str "+OK a\nx", str "\n"]).1.seen.map Prod.snd ∧
    pieces (session (fun _ _ => true) fresh [] [List.replicate 8000 (byte 'x'),
        List.replicate 8001 (byte 'x') ++ [NL]]).1.seen ≠
      pieces (session (fun _ _ => true) fresh [] [List.replicate 8000 (byte 'x'),
        List.replicate 8001 (byte 'x'), [NL]]).1.seen := by
  refine ⟨by decide +kernel, ?_⟩
  have hboth : List.replicate 8000 (byte 'x') ++ List.replicate 8001 (byte 'x') =
      List.replicate (16000 + 1) (byte 'x') := List.replicate_append_replicate
  have hnl : NL ∉ List.replicate 8000 (byte 'x') ++ List.replicate 8001 (byte 'x') := by
    rw [hboth]
    exact fun mem => absurd (List.eq_of_mem_replicate mem) (by decide)
  have hlen : (List.replicate 8000 (byte 'x')).length ≤ 16000 := by
    rw [List.length_replicate]
    omega
  rw [session_uncut rfl hnl hlen, session_cut rfl hnl hlen (by
    rw [hboth, List.length_replicate]; omega), hboth, List.length_replicate, List.drop_replicate,
    lineSeen_word, show 16000 + 1 - (16000 + 1 - 16000) = 15999 + 1 from rfl, lineSeen_word]
  intro heq
  have hword := List.append_cancel_left heq
  simp only [List.cons.injEq, Seen.answered.injEq, Reply.words.injEq, and_true] at hword
  have hlength := congrArg List.length hword
  rw [List.length_replicate, List.length_replicate] at hlength
  omega

end Sessions
end Cone.SmapBlocks
