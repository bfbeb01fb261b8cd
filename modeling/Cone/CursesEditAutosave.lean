import Cone.CursesEdit
import Cone.EditMessage
import Cone.EncodeLines

/-! # Drafts that are saved automatically

`CursesEdit::save` without attachments, as `CursesEdit::autosave_int` calls it, and
`libmail_encode_autodetect` of encodeautodetect.c. -/
set_option autoImplicit false
namespace Cone.CursesEdit

open Cone.Ctype Cone.Lib.Istream Cone.Lib.ReturnCode Cone.Encode
open Cone.EditMessage (CursesFlowedLine Chset Plain GT)
open Cone.TransferRoundTrip (encodeCalls flushOut_collect)

section Autodetect

structure Counts where
  l : Nat
  longline : Bool
  charcnt : Nat
  bit8cnt : Nat

def noCounts : Counts := ⟨0, false, 0, 0⟩

def Counts.next (k : Counts) (ch : UInt8) : Counts :=
  let bit8 := (ch < 0x20 || ch ≥ 0x80) && ch ≠ 0x09 && ch ≠ 0x0D && ch ≠ NL
  let l := if bit8 then k.l + 3 else k.l + 1
  { l := if ch = NL then 0 else l
    longline := k.longline || (ch ≠ NL && l > 990)
    charcnt := k.charcnt + 1
    bit8cnt := if bit8 then k.bit8cnt + 1 else k.bit8cnt }

def encodeAutodetect (use7bit : Bool) : Text → Counts → Text
  | [], k =>
    if use7bit || k.longline then
      if k.bit8cnt > k.charcnt / 10 then name "base64" else name "quoted-printable"
    else if k.bit8cnt ≠ 0 then name "8bit" else name "7bit"
  | ch :: text, k =>
    if ch = NUL then name "base64" else encodeAutodetect use7bit text (k.next ch)

def longline (text : Text) : Bool := (text.foldl Counts.next noCounts).longline

end Autodetect

section Save

def encodeText (encoding : Text) (bufs : List Text) : Int × Text :=
  let r := andThen (encodeCalls bufs (libmailEncodeStart encoding collect [])) libmailEncodeEnd
  (r.1, r.2.callbackArg)

def messageText (cs : Chset) (lines : List CursesFlowedLine) : Text :=
  EditMessage.save cs lines true

def contentType (charset : Text) (single : NL ∉ charset) : Header :=
  .oneLine (name "Content-Type")
    (name " text/plain; format=flowed; delsp=yes; charset=\"" ++ charset ++ name "\"") (by decide)
    (List.not_mem_append (List.not_mem_append (by decide) single) (by decide))

def contentDisposition : Header :=
  .oneLine (name "Content-Disposition") (name " inline") (by decide) (by decide)

def contentTransferEncoding (encoding : Text) (single : NL ∉ encoding) : Header :=
  .oneLine (name "Content-Transfer-Encoding") (name " " ++ encoding) (by decide)
    (List.not_mem_append (by decide) single)

theorem encodeAutodetect_cases (use7bit : Bool) (text : Text) (k : Counts) :
    encodeAutodetect use7bit text k ∈
      [name "base64", name "quoted-printable", name "8bit", name "7bit"] := by
  induction text generalizing k with
  | nil =>
      rw [encodeAutodetect]
      split <;> split <;> simp
  | cons ch text ih =>
      rw [encodeAutodetect]
      split
      · simp
      · exact ih _

theorem encodeAutodetect_line (use7bit : Bool) (text : Text) (k : Counts) :
    NL ∉ encodeAutodetect use7bit text k := by
  have all : ∀ encoding ∈ [name "base64", name "quoted-printable", name "8bit", name "7bit"],
      NL ∉ encoding := by decide +kernel
  exact all _ (encodeAutodetect_cases use7bit text k)

variable (cs : Chset) (before : List Header) (charset : Text) (single : NL ∉ charset)
  (lines : List CursesFlowedLine)

def autosaved (bufs : List Text) : Text :=
  let encoding := encodeAutodetect false (messageText cs lines) noCounts
  draft (before ++ [contentType charset single, contentDisposition,
    contentTransferEncoding encoding (encodeAutodetect_line _ _ _)])
    (.body (encodeText encoding bufs).2)

/-- The lines come back from the file, up to trailing spaces of those that do not flow. -/
def KeepsLines (customHeaders : List Text) (bufs : List Text) : Prop :=
  ∃ fuel i fields,
    headerLoop customHeaders fuel (opened (autosaved cs before charset single lines bufs)) [] []
      [] = some (i, fields) ∧
    EditMessage.load cs i.rest true true = lines.map EditMessage.trimmed

end Save

section Keeps

theorem encodeAutodetect_short {text : Text} (plain : NUL ∉ text) (k : Counts)
    (short : (text.foldl Counts.next k).longline = false) :
    encodeAutodetect false text k = name "8bit" ∨ encodeAutodetect false text k = name "7bit" := by
  induction text generalizing k with
  | nil =>
      have short : k.longline = false := short
      rw [encodeAutodetect, short, if_neg (by decide)]
      split
      · exact Or.inl rfl
      · exact Or.inr rfl
  | cons ch text ih =>
      obtain ⟨other, plain⟩ := not_or.mp (mt List.mem_cons.mpr plain)
      rw [encodeAutodetect, if_neg (Ne.symm other)]
      exact ih plain (k.next ch) short

theorem encodeCalls_eflush (bufs : List Text) (info : Info) (hc : info.callbackFunc = collect)
    (plain : info.encodingFunc = .eflush) :
    ∃ info', encodeCalls bufs info = (0, info') ∧ info'.callbackFunc = collect ∧
      info'.encodingFunc = .eflush ∧ written info' = written info ++ bufs.flatten := by
  induction bufs generalizing info with
  | nil => exact ⟨info, rfl, hc, plain, by rw [List.flatten_nil, List.append_nil]⟩
  | cons buf bufs ih =>
      obtain ⟨info₁, run₁, h₁⟩ := eflush_wrote buf info hc
      obtain ⟨info', run, hc', plain', text⟩ := ih info₁ h₁.callback (h₁.encodingFunc.trans plain)
      refine ⟨info', ?_, hc', plain', ?_⟩
      · rw [encodeCalls, libmailEncode, plain]
        simp only [run₁, andThen_ok, run]
      · rw [text, h₁.written, List.flatten_cons, List.append_assoc]

theorem encodeText_plain {encoding : Text} (plain : encodingFuncOf encoding = .eflush)
    (bufs : List Text) : encodeText encoding bufs = (0, bufs.flatten) := by
  obtain ⟨info, run, hc, plain', text⟩ :=
    encodeCalls_eflush bufs (libmailEncodeStart encoding collect []) rfl plain
  obtain ⟨info', flush, out⟩ := flushOut_collect info hc
  have fin : libmailEncodeEnd info = (0, info') := by
    rw [libmailEncodeEnd, encodingFuncEnd, plain', andThen_ok]
    exact flush
  simp only [encodeText, run, andThen_ok, fin, out, text]
  rfl

theorem encodeText_qp (bufs : List Text) :
    (encodeText Cone.TransferRoundTrip.TransferEncoding.quotedPrintable.name bufs).2 =
      Cone.Lib.QuotedPrintable.render
        (Cone.EncodeLines.allTokens Cone.EncodeLines.start bufs.flatten) :=
  congrArg Prod.snd (Cone.EncodeLines.encode_qp bufs)

theorem headerLoop_body (customHeaders : List Text) (hs : List Header) (body : Text)
    (last : ¬ ∃ h ∈ hs.getLast?, isTaken h.name = true) : ∃ n fields,
    headerLoop customHeaders n (opened (draft hs (.body body))) [] [] [] =
      some (opened body, fields) := by
  obtain ⟨n, line, fields, -, run⟩ :=
    @run_headers customHeaders 1 hs (NL :: body)
  rw [loop_blank, if_neg fun h => last (lastHdr_taken.mp h)] at run
  exact ⟨_, _, run⟩

variable {cs : Chset} {lines : List CursesFlowedLine}

theorem nul_messageText (plain : ∀ line ∈ lines, Plain cs line.text) :
    NUL ∉ messageText cs lines := by
  intro mem
  rw [messageText, EditMessage.save, unlines, List.mem_flatMap] at mem
  obtain ⟨text, htext, mem⟩ := mem
  obtain ⟨line, hline, rfl⟩ := List.mem_map.mp htext
  rcases List.mem_append.mp mem with mem | mem
  · exact (cs.one_line _ ((plain line hline).getUTF8Text true)).2 mem
  · exact absurd (List.mem_singleton.mp mem) (by decide)

theorem keepsLines_load (customHeaders : List Text) (before : List Header) (charset : Text)
    (single : NL ∉ charset) (bufs : List Text) :
    KeepsLines cs before charset single lines customHeaders bufs ↔
      EditMessage.load cs
          (encodeText (encodeAutodetect false (messageText cs lines) noCounts) bufs).2 true true =
        lines.map EditMessage.trimmed := by
  obtain ⟨n, fields, run⟩ := headerLoop_body customHeaders (before ++ [contentType charset single,
    contentDisposition, contentTransferEncoding _ (encodeAutodetect_line false
      (messageText cs lines) noCounts)])
    (encodeText (encodeAutodetect false (messageText cs lines) noCounts) bufs).2 (by
        rw [List.getLast?_append]
        rintro ⟨h, same, is⟩
        obtain rfl := Option.some.inj same
        have no : ¬ isTaken (name "Content-Transfer-Encoding") = true := by decide +kernel
        exact no is)
  constructor
  · rintro ⟨fuel, i, fields', run', loaded⟩
    have long := headerLoop_mono customHeaders run fuel
    rw [Nat.add_comm] at long
    have both := (headerLoop_mono customHeaders run' n).symm.trans long
    rw [(Prod.mk.inj (Option.some.inj both)).1] at loaded
    exact loaded
  · intro loaded
    exact ⟨n, _, fields, run, loaded⟩

theorem keepsLines_iff (customHeaders : List Text) (before : List Header) (charset : Text)
    (single : NL ∉ charset) (nonempty : lines ≠ []) (plain : ∀ line ∈ lines, Plain cs line.text)
    (bufs : List Text) (whole : bufs.flatten = messageText cs lines)
    (short : longline (messageText cs lines) = false) :
    KeepsLines cs before charset single lines customHeaders bufs ↔
      ∀ line ∈ lines, line.flowed = true → ∃ c ∈ line.text, c ≠ GT := by
  have encoding : encodingFuncOf (encodeAutodetect false (messageText cs lines) noCounts) =
      .eflush := by
    rcases encodeAutodetect_short (nul_messageText plain) noCounts short with eq | eq
    · rw [eq]
      decide
    · rw [eq]
      decide
  have text : (encodeText (encodeAutodetect false (messageText cs lines) noCounts) bufs).2 =
      messageText cs lines := by
    rw [encodeText_plain encoding bufs, whole]
  rw [keepsLines_load, text]
  exact EditMessage.load_save_iff cs lines nonempty plain

/-- A draft is read as it stands if and only if it ends well and no custom header is in another's
way. Without a long line, the lines of a draft that was saved automatically come back if and only if
each line that flows has a character that is no quoting. -/
theorem drafts_iff (customHeaders : List Text) :
    (∀ (hs : List Header) (ending : Ending),
      hs.Pairwise (fun h h' => strcasecmp h.name h'.name = false) →
      (ReadsDraft customHeaders hs ending ↔
        EndsWell hs ending ∧ CustomApart customHeaders hs)) ∧
    ∀ (cs : Chset) (before : List Header) (charset : Text) (single : NL ∉ charset)
      (lines : List CursesFlowedLine) (bufs : List Text), lines ≠ [] →
      (∀ line ∈ lines, Plain cs line.text) → bufs.flatten = messageText cs lines →
      longline (messageText cs lines) = false →
      (KeepsLines cs before charset single lines customHeaders bufs ↔
        ∀ line ∈ lines, line.flowed = true → ∃ c ∈ line.text, c ≠ GT) :=
  ⟨fun _ ending distinct => readsDraft_iff distinct ending,
    fun _ before charset single _ bufs nonempty plain whole short =>
      keepsLines_iff customHeaders before charset single nonempty plain bufs whole short⟩

/-- `Subject: a` -/
def subject : Header := .oneLine (name "Subject") (name " a") (by decide) (by decide)

theorem drafts_iff_sample :
    (ReadsDraft [] [subject] .closed ↔ EndsWell [subject] .closed ∧ CustomApart [] [subject]) ∧
    (KeepsLines EditMessage.ascii [subject] (name "utf-8") (by decide) [⟨[GT, 0x61], true⟩] []
        [messageText EditMessage.ascii [⟨[GT, 0x61], true⟩]] ↔
      ∀ line ∈ [(⟨[GT, 0x61], true⟩ : CursesFlowedLine)], line.flowed = true →
        ∃ c ∈ line.text, c ≠ GT) := by
  refine ⟨(drafts_iff []).1 [subject] .closed (List.pairwise_singleton _ _),
    (drafts_iff []).2 _ [subject] _ _ _ _ (by decide) ?_ (List.append_nil _) (by decide +kernel)⟩
  simp only [Plain, List.forall_mem_cons, List.not_mem_nil, false_imp_iff, implies_true, and_true]
  decide +kernel

def longLine : List CursesFlowedLine := [⟨List.replicate 991 0x61, false⟩]

/-- Where the subject comes last, the text is lost as far as it is read as headers; where a draft
ends inside it, the loop never ends; and a long line comes back encoded. -/
theorem subject_last :
    ¬ ReadsDraft [] [subject] (.body (name "hello\n")) ∧ ¬ ReadsDraft [] [subject] .cut ∧
      ¬ KeepsLines EditMessage.ascii [] [] List.not_mem_nil longLine []
        [messageText EditMessage.ascii longLine] := by
  have distinct : [subject].Pairwise fun h h' => strcasecmp h.name h'.name = false :=
    List.pairwise_singleton _ _
  refine ⟨?_, ?_, ?_⟩
  · intro reads
    have empty := ((readsDraft_iff distinct _).mp reads).1 ⟨subject, rfl, by decide +kernel⟩
    exact absurd empty (by decide)
  · intro reads
    exact absurd ((readsDraft_iff distinct _).mp reads).1 (List.cons_ne_nil _ _)
  · have encoding : encodeAutodetect false (messageText EditMessage.ascii longLine) noCounts =
        Cone.TransferRoundTrip.TransferEncoding.quotedPrintable.name := by
      decide +kernel
    have text : (encodeText Cone.TransferRoundTrip.TransferEncoding.quotedPrintable.name
        [messageText EditMessage.ascii longLine]).2 =
        Cone.Lib.QuotedPrintable.render (Cone.EncodeLines.allTokens Cone.EncodeLines.start
          [messageText EditMessage.ascii longLine].flatten) := by
      rw [encodeText_qp]
    intro kept
    have loaded := (keepsLines_load _ _ _ _ _).mp kept
    rw [encoding, text] at loaded
    revert loaded
    decide +kernel

end Keeps
end Cone.CursesEdit
