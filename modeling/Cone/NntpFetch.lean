import Mathlib.Data.List.TakeWhile
import Cone.Lib.Leftover
import Cone.MessagePump

/-! # Fetching what was posted

`mail::nntp::socketRead` of nntp.C, and `FetchTaskBase` of nntpfetch.C behind the status line. -/
set_option autoImplicit false
namespace Cone.NntpFetch

open Cone.Ctype Cone.Lib.DotStuffing Cone.Lib.Leftover Cone.MessagePump

/-- The line up to its newline, without one CR. -/
def chomp (line : Text) : Text := if line.getLast? = some CR then line.dropLast else line

/-- The calls of `socketRead` for what is in the buffer: the lines that the first task is given,
and what is left. -/
def socketRead (readbuffer : Text) : List Text × Text :=
  if NL ∈ readbuffer then
    let line := readbuffer.takeWhile (· ≠ NL)
    let later := socketRead (readbuffer.drop (line.length + 1))
    (chomp line :: later.1, later.2)
  else ([], readbuffer)
termination_by readbuffer.length
decreasing_by
  have pos := List.length_pos_of_mem ‹NL ∈ readbuffer›
  rw [List.length_drop]
  omega

/-- `line.c_str()` -/
def cStr (line : Text) : Text := line.takeWhile (· ≠ 0)

structure Fetch where
  byteCount : Nat
  fetchedText : List Text
  success : Bool
  deriving DecidableEq, Repr

def fetch : Fetch := ⟨0, [], false⟩

/-- `processFetchResponse`; the task is gone behind its success. -/
def Fetch.processFetchResponse (f : Fetch) (line : Text) : Fetch :=
  let cmd := cStr line
  if f.success then f
  else if cmd ≠ [DOT] then
    let s := (if cmd.head? = some DOT then cmd.drop 1 else cmd) ++ [NL]
    { f with byteCount := f.byteCount + s.length, fetchedText := f.fetchedText ++ [s] }
  else { f with success := true }

section Reads
variable {line text : Text}

theorem socketRead_rest (h : NL ∉ text) : socketRead text = ([], text) := by
  rw [socketRead, if_neg h]

theorem socketRead_lines (lines : List Text) (h : ∀ line ∈ lines, NL ∉ line) (text : Text) :
    socketRead (lines.flatMap (· ++ [NL]) ++ text) =
      (lines.map chomp ++ (socketRead text).1, (socketRead text).2) := by
  induction lines with
  | nil => rfl
  | cons line lines ih =>
      have hline : ∀ c ∈ line, decide (c ≠ NL) = true := fun c mem =>
        decide_eq_true fun same => h line List.mem_cons_self (same ▸ mem)
      have hshape : (line :: lines).flatMap (· ++ [NL]) ++ text =
          line ++ NL :: (lines.flatMap (· ++ [NL]) ++ text) := by simp
      have hfirst : (line ++ NL :: (lines.flatMap (· ++ [NL]) ++ text)).takeWhile (· ≠ NL) =
          line := by
        rw [List.takeWhile_append_of_pos hline, List.takeWhile_cons_of_neg (by simp),
          List.append_nil]
      have hdrop : (line ++ NL :: (lines.flatMap (· ++ [NL]) ++ text)).drop (line.length + 1) =
          lines.flatMap (· ++ [NL]) ++ text := by simp [List.drop_append]
      rw [hshape, socketRead, if_pos (by simp)]
      simp only [hfirst, hdrop, ih fun l mem => h l (List.mem_cons_of_mem _ mem)]
      rfl

theorem socketRead_resumes : Resumes socketRead := by
  intro a b
  obtain ⟨lines, rest, hlines, hrest, rfl⟩ := lines_and_rest a
  rw [List.append_assoc, socketRead_lines lines hlines, socketRead_lines lines hlines,
    socketRead_rest hrest, List.append_nil]

theorem chomp_append (line : Text) : chomp (line ++ [CR]) = line := by
  rw [chomp, List.getLast?_concat, if_pos rfl, List.dropLast_concat]

theorem processFetchResponse_stuffLine (f : Fetch) (hf : f.success = false) (hnul : 0 ∉ line) :
    f.processFetchResponse (stuffLine line) =
      ⟨f.byteCount + (line ++ [NL]).length, f.fetchedText ++ [line ++ [NL]], false⟩ := by
  have hcstr : cStr (stuffLine line) = stuffLine line :=
    List.takeWhile_eq_self_iff.2 fun c mem => decide_eq_true <| by
      rintro rfl
      exact (mem_stuffLine mem).elim (by decide) hnul
  have hline := unstuffLine_stuffLine line
  rw [unstuffLine] at hline
  simp only [Fetch.processFetchResponse, hcstr, hf, if_pos (stuffLine_ne_dot line), hline]
  rfl

theorem processFetchResponse_lines (lines : List Text) (f : Fetch) (hf : f.success = false)
    (hnul : ∀ line ∈ lines, 0 ∉ line) :
    (lines.map stuffLine).foldl Fetch.processFetchResponse f =
      ⟨f.byteCount + (lines.flatMap (· ++ [NL])).length, f.fetchedText ++ lines.map (· ++ [NL]),
        false⟩ := by
  induction lines generalizing f with
  | nil => simp [← hf]
  | cons line lines ih =>
      rw [List.map_cons, List.foldl_cons,
        processFetchResponse_stuffLine f hf (hnul line List.mem_cons_self),
        ih _ rfl fun l mem => hnul l (List.mem_cons_of_mem line mem)]
      simp [Nat.add_assoc, Nat.add_comm 1]

end Reads

/-- However the reads cut what the server sends, the fetch succeeds and gives the article. -/
def Fetches (out article : Text) : Prop :=
  ∀ reads : List Text, reads.flatten = out →
    ∃ lines, reads.foldl (call socketRead) ([], []) = ([], lines) ∧
      (lines.foldl Fetch.processFetchResponse fetch).success = true ∧
      (lines.foldl Fetch.processFetchResponse fetch).fetchedText.flatten = article ∧
      (lines.foldl Fetch.processFetchResponse fetch).byteCount = article.length

/-- An article that was posted comes back with its last line ended. -/
theorem fetch_posted (message : Text) (hnul : 0 ∉ message) :
    ∃ n, ∀ bufsiz fuel, 0 < bufsiz → n ≤ fuel →
      ∃ out, sent (Pump.fillWriteBuffer bufsiz) fuel (pump message) = some out ∧
        Fetches out (ended message) := by
  refine ⟨message.length + 2, fun bufsiz fuel hsiz hfuel =>
    ⟨stuffed message, sent_pump bufsiz hsiz fuel NL hfuel, fun reads hreads => ?_⟩⟩
  obtain ⟨lines, hlines, hended⟩ := lines_of_ended message
  -- every line with its CR, and the lone dot
  have hshape : stuffed message =
      (lines.map (stuffLine · ++ [CR]) ++ [[DOT, CR]]).flatMap (· ++ [NL]) ++ [] := by
    rw [stuffed_eq, ← hended, stuffFrom_lines lines hlines]
    simp [List.flatMap_map, lastLine]
  have hread : socketRead (stuffed message) = (lines.map stuffLine ++ [[DOT]], []) := by
    rw [hshape, socketRead_lines, socketRead_rest (by simp)]
    · simp [chomp_append, Function.comp_def]
      rfl
    · intro line mem
      simp only [List.mem_append, List.mem_map, List.mem_singleton] at mem
      rcases mem with ⟨l, mem, rfl⟩ | rfl
      · intro hnl
        rcases List.mem_append.1 hnl with hnl | hnl
        · exact (mem_stuffLine hnl).elim (by decide) (hlines l mem)
        · exact absurd hnl (by decide)
      · decide
  have hzero : ∀ line ∈ lines, 0 ∉ line := fun line mem hmem =>
    hnul (mem_of_mem_ended (by decide)
      (hended ▸ List.mem_flatMap.2 ⟨line, mem, List.mem_append_left _ hmem⟩))
  have hcalls := socketRead_resumes.foldl_call reads (d := ([], [])) (socketRead_rest (by simp))
  simp only [List.nil_append, hreads, hread] at hcalls
  refine ⟨_, hcalls, ?_⟩
  rw [List.foldl_append, processFetchResponse_lines lines fetch rfl hzero, hended]
  refine ⟨rfl, ?_, (Nat.zero_add _)⟩
  rw [← hended]
  exact List.flatMap_def.symm

theorem fetch_posted_dots :
    ∃ n, ∀ bufsiz fuel, 0 < bufsiz → n ≤ fuel →
      ∃ out, sent (Pump.fillWriteBuffer bufsiz) fuel (pump (str ".a\n.")) = some out ∧
        Fetches out (ended (str ".a\n.")) :=
  fetch_posted (str ".a\n.") (by decide)

end Cone.NntpFetch
