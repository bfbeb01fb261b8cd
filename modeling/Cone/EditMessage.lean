import Cone.Lib.Istream
import Cone.Lib.Trim
import Mathlib.Data.List.Infix

/-! # The message editor's lines in a file

`CursesEditMessage::save` and `CursesEditMessage::load` of curseseditmessage.C. A line's UTF-8 text
stands as its code points. -/
set_option autoImplicit false
namespace Cone.EditMessage

open Cone.Lib.Trim Cone.Lib.Istream

abbrev UText := List UInt32

def SP : UInt32 := 0x20
def TAB : UInt32 := 0x09
def GT : UInt32 := 0x3E

section Lines

structure CursesFlowedLine where
  text : UText
  flowed : Bool
  deriving DecidableEq, Repr

def control (c : UInt32) : Bool := c < SP && c ≠ TAB

/-- The locale's character set, as `mail::iconvert` converts from and to it. -/
structure Chset where
  encode : UText → List UInt8
  decode : List UInt8 → UText
  has : UInt32 → Bool
  has_space : has SP = true
  decode_encode : ∀ text, (∀ c ∈ text, has c = true ∧ control c = false) →
    decode (encode text) = text
  one_line : ∀ text, (∀ c ∈ text, has c = true ∧ control c = false) →
    Cone.Ctype.NL ∉ encode text ∧ Cone.Ctype.NUL ∉ encode text

def getUTF8Text (line : CursesFlowedLine) (useflowedformat : Bool) : UText :=
  if useflowedformat then
    if line.flowed then line.text ++ [SP] else trim SP line.text
  else line.text

def save (cs : Chset) (lines : List CursesFlowedLine) (isflowed : Bool) : List UInt8 :=
  unlines (lines.map fun line => cs.encode (getUTF8Text line isflowed))

def behindQuote (uline : UText) : UText :=
  match uline.dropWhile (· = GT) with
  | [] => []
  | c :: b => if c = SP then b else c :: b

def nextline (isflowed delsp : Bool) (uline : UText) : CursesFlowedLine :=
  let flowedflag := isflowed && (behindQuote uline).getLast? = some SP
  let uline := if flowedflag && delsp then uline.dropLast else uline
  ⟨uline.filter fun c => !control c, flowedflag⟩

def readLines (cs : Chset) (file : List UInt8) (isflowed delsp : Bool) : List CursesFlowedLine :=
  match getlines file with
  | [] => []
  | first :: rest =>
    if Cone.Ctype.NUL ∈ first then []
    else (first :: rest).map fun linetxt => nextline isflowed delsp (cs.decode linetxt)

def load (cs : Chset) (file : List UInt8) (isflowed delsp : Bool) : List CursesFlowedLine :=
  let lines := readLines cs file isflowed delsp
  if lines = [] then [⟨[], false⟩] else lines

end Lines

section RoundTrip
variable {cs : Chset} {line : CursesFlowedLine} {text : UText}

def Plain (cs : Chset) (text : UText) : Prop := ∀ c ∈ text, cs.has c = true ∧ control c = false

def trimmed (line : CursesFlowedLine) : CursesFlowedLine :=
  if line.flowed then line else { line with text := trim SP line.text }

theorem Plain.trim (hplain : Plain cs text) : Plain cs (trim SP text) := by
  have hkept : Cone.Lib.Trim.trim SP text <+: text := List.rdropWhile_prefix _ _
  exact fun c hc => hplain c (hkept.subset hc)

theorem Plain.space (hplain : Plain cs text) : Plain cs (text ++ [SP]) := by
  intro c hc
  rcases List.mem_append.1 hc with hc | hc
  · exact hplain c hc
  · rw [List.mem_singleton.1 hc]
    exact ⟨cs.has_space, by decide⟩

theorem Plain.filter (hplain : Plain cs text) : text.filter (fun c => !control c) = text :=
  List.filter_eq_self.2 fun c hc => by rw [(hplain c hc).2, Bool.not_false]

theorem Plain.getUTF8Text (hplain : Plain cs line.text) (useflowedformat : Bool) :
    Plain cs (getUTF8Text line useflowedformat) := by
  rw [EditMessage.getUTF8Text]
  split
  · split
    · exact hplain.space
    · exact hplain.trim
  · exact hplain

theorem behindQuote_suffix (uline : UText) : behindQuote uline <:+ uline := by
  have hdrop := List.dropWhile_suffix (l := uline) (· = GT)
  rw [behindQuote]
  split
  · exact List.nil_suffix
  · rename_i c b heq
    rw [heq] at hdrop
    split
    · exact (List.suffix_cons c b).trans hdrop
    · exact hdrop

theorem behindQuote_space (text : UText) :
    behindQuote (text ++ [SP]) =
      if ∃ c ∈ text, c ≠ GT then behindQuote text ++ [SP] else [] := by
  have hsp : [SP].dropWhile (· = GT) = [SP] := rfl
  rw [behindQuote, List.dropWhile_append, hsp]
  by_cases hquote : ∃ c ∈ text, c ≠ GT
  · have hne : text.dropWhile (· = GT) ≠ [] := by
      intro hnil
      obtain ⟨c, hc, hother⟩ := hquote
      exact hother (by simpa using List.dropWhile_eq_nil_iff.1 hnil c hc)
    rw [if_pos hquote, behindQuote]
    cases hdrop : text.dropWhile (· = GT) with
    | nil => exact absurd hdrop hne
    | cons c b =>
        simp only [List.isEmpty_cons, Bool.false_eq_true, if_false, List.cons_append]
        split <;> rfl
  · have hnil : text.dropWhile (· = GT) = [] := by
      rw [List.dropWhile_eq_nil_iff]
      intro c hc
      exact decide_eq_true (not_not.1 fun hother => hquote ⟨c, hc, hother⟩)
    rw [if_neg hquote, hnil]
    rfl

theorem nextline_saved (hplain : Plain cs line.text) :
    nextline true true (getUTF8Text line true) = trimmed line ↔
      (line.flowed = true → ∃ c ∈ line.text, c ≠ GT) := by
  obtain ⟨text, flowed⟩ := line
  cases flowed with
  | false =>
      have hlast : (behindQuote (trim SP text)).getLast? ≠ some SP := by
        intro hlast
        refine getLast?_trim_ne SP text ?_
        obtain ⟨front, hfront⟩ := behindQuote_suffix (trim SP text)
        rw [← hfront, List.getLast?_append, hlast]
        rfl
      have hsaved : getUTF8Text ⟨text, false⟩ true = trim SP text := rfl
      have htrimmed : trimmed ⟨text, false⟩ = ⟨trim SP text, false⟩ := rfl
      rw [hsaved, htrimmed, nextline, decide_eq_false hlast]
      simp only [Bool.and_false, Bool.false_and, Bool.false_eq_true, if_false, hplain.trim.filter,
        false_imp_iff]
  | true =>
      have hsaved : getUTF8Text ⟨text, true⟩ true = text ++ [SP] := rfl
      have htrimmed : trimmed ⟨text, true⟩ = ⟨text, true⟩ := rfl
      rw [hsaved, htrimmed, nextline, behindQuote_space]
      by_cases hquote : ∃ c ∈ text, c ≠ GT
      · have hlast : (behindQuote text ++ [SP]).getLast? = some SP := List.getLast?_concat
        rw [if_pos hquote, decide_eq_true hlast]
        simp only [Bool.and_true, if_true, List.dropLast_concat, hplain.filter, hquote,
          implies_true]
      · have hnone : ¬ ([] : UText).getLast? = some SP := by decide
        rw [if_neg hquote, decide_eq_false hnone]
        simp only [Bool.and_false, Bool.false_and, CursesFlowedLine.mk.injEq, Bool.false_eq_true,
          and_false, hquote, imp_false, not_true_eq_false]

/-- The lines that come back: all of them, unless a flowed line is empty or only quoting. -/
theorem load_save_iff (cs : Chset) (lines : List CursesFlowedLine) (hlines : lines ≠ [])
    (hplain : ∀ line ∈ lines, Plain cs line.text) :
    load cs (save cs lines true) true true = lines.map trimmed ↔
      ∀ line ∈ lines, line.flowed = true → ∃ c ∈ line.text, c ≠ GT := by
  have hsaved : getlines (save cs lines true) =
      lines.map fun line => cs.encode (getUTF8Text line true) := by
    refine getlines_unlines _ fun linetxt hmem => ?_
    obtain ⟨line, hline, rfl⟩ := List.mem_map.1 hmem
    exact (cs.one_line _ ((hplain line hline).getUTF8Text true)).1
  have hload : load cs (save cs lines true) true true =
      lines.map fun line => nextline true true (getUTF8Text line true) := by
    obtain ⟨line, rest, rfl⟩ := List.exists_cons_of_ne_nil hlines
    have hfirst := (cs.one_line _ ((hplain line List.mem_cons_self).getUTF8Text true)).2
    have hread : readLines cs (save cs (line :: rest) true) true true =
        (line :: rest).map fun line => nextline true true (getUTF8Text line true) := by
      rw [readLines, hsaved, List.map_cons]
      dsimp only
      rw [if_neg hfirst]
      show ((line :: rest).map fun line => cs.encode (getUTF8Text line true)).map _ = _
      rw [List.map_map]
      refine List.map_congr_left fun line hline => ?_
      rw [Function.comp_apply, cs.decode_encode _ ((hplain line hline).getUTF8Text true)]
    rw [load, hread, if_neg (by simp)]
  rw [hload, List.map_inj_left]
  exact forall₂_congr fun line hline => nextline_saved (hplain line hline)

theorem toNat_ascii {c : UInt32} (hc : decide (c < 128) = true) :
    (UInt8.ofNat c.toNat).toNat = c.toNat := by
  have hlt : c.toNat < 128 := of_decide_eq_true hc
  rw [UInt8.toNat_ofNat']
  omega

def ascii : Chset where
  encode text := text.map fun c => UInt8.ofNat c.toNat
  decode linetxt := linetxt.map fun b => UInt32.ofNat b.toNat
  has c := c < 128
  has_space := by decide
  decode_encode text hplain := by
    rw [List.map_map]
    refine (List.map_congr_left fun c hc => ?_).trans (List.map_id' text)
    rw [Function.comp_apply, toNat_ascii (hplain c hc).1, UInt32.ofNat_toNat]
  one_line text hplain := by
    have hother {b : UInt8} (hb : b.toNat ≤ 10 ∧ b.toNat ≠ 9) :
        b ∉ text.map fun c => UInt8.ofNat c.toNat := by
      intro hmem
      obtain ⟨c, hc, rfl⟩ := List.mem_map.1 hmem
      obtain ⟨hascii, hcontrol⟩ := hplain c hc
      rw [toNat_ascii hascii] at hb
      refine absurd hcontrol ?_
      have hlt : c < SP := by
        rw [UInt32.lt_iff_toNat_lt]
        exact Nat.lt_of_le_of_lt hb.1 (by decide)
      have hne : c ≠ TAB := fun htab => hb.2 (congrArg UInt32.toNat htab)
      rw [control, decide_eq_true hlt, decide_eq_true hne]
      decide
    exact ⟨hother (by decide), hother (by decide)⟩

def emptied : List CursesFlowedLine := [⟨[], true⟩, ⟨[0x61, SP], false⟩]

theorem load_save_sample :
    load ascii (save ascii [⟨[GT, 0x61], true⟩, ⟨[0x62, SP], false⟩] true) true true =
      [⟨[GT, 0x61], true⟩, ⟨[0x62], false⟩] := by
  refine (load_save_iff ascii _ (by decide) ?_).2 ?_
  · simp only [Plain, List.forall_mem_cons, List.not_mem_nil, false_imp_iff, implies_true, and_true]
    decide +kernel
  · simp only [List.forall_mem_cons, List.not_mem_nil, false_imp_iff, implies_true, and_true]
    exact ⟨fun _ => ⟨0x61, by decide, by decide⟩, nofun⟩

theorem emptied_not_flowed :
    load ascii (save ascii emptied true) true true = [⟨[SP], false⟩, ⟨[0x61], false⟩] ∧
      load ascii (save ascii emptied true) true true ≠ emptied.map trimmed := by
  decide +kernel

end RoundTrip
end Cone.EditMessage
