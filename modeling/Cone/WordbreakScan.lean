import Cone.WordbreakRules

/-! # Word breaking and the first word of a text -/
set_option autoImplicit false
namespace Cone.WordbreakScan
open Cone.Lib.ReturnCode
open Cone.Lib.HeldBack
open Cone.UnicodeTablookup
open Cone.Wordbreak
open Cone.WordbreakRules

/-- The classes `unicode_wb_next` looks up. -/
def classes (tab : Tables WbClass) (text : List UInt32) : List WbClass :=
  text.map fun ch => unicodeTabLookup ch tab .other

def firstWord : List Int → Nat
  | [] => 0
  | _ :: flags => 1 + flags.findIdx fun flag => flag ≠ 0

def wbscan (tab : Tables WbClass) : Bool × Info Scan → List UInt32 → Bool × Info Scan
  | r, [] => r
  | r, ch :: chars =>
    let next := wbscanNext tab r.2 ch
    wbscan tab (r.1 || next.1, next.2) chars

/-! ## The callback -/

section Callback

theorem wbscanCallback_ok (flag : Int) (i : Scan) : (wbscanCallback flag i).1 = 0 := rfl

theorem scan_found (flags : List Int) {i : Scan} (found : i.found = true) :
    flags.foldl (put wbscanCallback) i = i := by
  induction flags with
  | nil => rfl
  | cons flag flags ih =>
      have stays : put wbscanCallback i flag = i := by
        cases i
        subst found
        simp [put, wbscanCallback]
      rw [List.foldl_cons, stays, ih]

theorem scan_cnt (flags : List Int) (n : Nat) :
    (flags.foldl (put wbscanCallback) { found := false, cnt := n + 1 }).cnt =
      n + 1 + flags.findIdx (fun flag => flag ≠ 0) := by
  induction flags generalizing n with
  | nil => rfl
  | cons flag flags ih =>
      rw [List.foldl_cons, List.findIdx_cons]
      by_cases boundary : flag = 0
      · subst boundary
        have next : put wbscanCallback { found := false, cnt := n + 1 } 0 =
            { found := false, cnt := n + 1 + 1 } := by
          simp [put, wbscanCallback]
        rw [next, ih]
        simp
        omega
      · have next : put wbscanCallback { found := false, cnt := n + 1 } flag =
            { found := true, cnt := n + 1 } := by
          simp [put, wbscanCallback, boundary]
        rw [next, scan_found flags rfl]
        simp [boundary]

theorem scan_firstWord (flags : List Int) :
    (flags.foldl (put wbscanCallback) { found := false, cnt := 0 }).cnt = firstWord flags := by
  cases flags with
  | nil => rfl
  | cons flag flags =>
      have next : put wbscanCallback { found := false, cnt := 0 } flag =
          { found := false, cnt := 0 + 1 } := by
        simp [put, wbscanCallback]
      rw [List.foldl_cons, next, scan_cnt, firstWord]

end Callback

/-! ## The scan -/

section Run
variable (tab : Tables WbClass)

theorem wbscan_found {i : Info Scan} (found : i.cbArg.found = true) (chars : List UInt32) :
    wbscan tab (true, i) chars = (true, i) := by
  induction chars with
  | nil => rfl
  | cons ch chars ih => simp only [wbscan, wbscanNext, found, if_true, Bool.or_true, ih]

/-- Every state of the scan: either nothing is found and the handle reads the text, or its sink
holds what the values of any text that goes on this way put there. -/
theorem wbscan_run {before : List WbClass} {i : Info Scan} (reads : Reads before i)
    (open_ : i.cbArg.found = false) (fed : List UInt32) :
    let r := wbscan tab (false, i) fed
    r.2.cbArg.found = r.1 ∧ (∃ before', Reads before' r.2) ∧
      (r.1 = false → feed (wbNext wbscanCallback tab) i fed = (0, r.2)) ∧
      (r.1 = true → ∀ rest, r.2.cbArg =
        (held i (classes tab fed ++ rest) ++ batch value before (classes tab fed ++ rest)).foldl
          (put wbscanCallback) i.cbArg) := by
  induction fed generalizing before i with
  | nil => exact ⟨open_, ⟨before, reads⟩, fun _ => rfl, fun h => by cases h⟩
  | cons ch fed ih =>
      obtain ⟨ok, reads', out, emits, owes⟩ :=
        machine_sound wbscanCallback_ok before i (unicodeTabLookup ch tab .other) reads
      obtain ⟨i', step⟩ : ∃ i', wbNext wbscanCallback tab i ch = (0, i') :=
        ⟨_, Prod.ext ok rfl⟩
      have after : (machine wbscanCallback).next i (unicodeTabLookup ch tab .other) = (0, i') := step
      rw [after] at reads' emits owes
      have values : ∀ rest,
          (held i (classes tab (ch :: fed) ++ rest) ++
            batch value before (classes tab (ch :: fed) ++ rest)).foldl (put wbscanCallback) i.cbArg =
          (held i' (classes tab fed ++ rest) ++ batch value
            (unicodeTabLookup ch tab .other :: before) (classes tab fed ++ rest)).foldl
              (put wbscanCallback) i'.cbArg := by
        intro rest
        have here := owes (classes tab fed ++ rest)
        rw [show i'.cbArg = out.foldl (put wbscanCallback) i.cbArg from emits, ← List.foldl_append,
          ← List.append_assoc, show out ++ held i' _ = _ from here, List.append_assoc]
        rfl
      have scanned : wbscan tab (false, i) (ch :: fed) = wbscan tab (i'.cbArg.found, i') fed := by
        simp only [wbscan, wbscanNext, open_, step, Bool.false_or, Bool.false_eq_true, if_false]
      simp only [scanned, values]
      cases found : i'.cbArg.found with
      | true =>
          rw [wbscan_found tab found]
          refine ⟨found, ⟨_, reads'⟩, fun h => (by cases h), fun _ rest => ?_⟩
          rw [scan_found _ found]
      | false =>
          obtain ⟨same, some_, fine, hit⟩ := ih reads' found
          refine ⟨same, some_, fun h => ?_, hit⟩
          rw [feed_cons, step, andThen_ok, fine h]

theorem reads_init {A : Type} (a : A) : Reads [] (wbInit a) := Reads.sot rfl rfl rfl

theorem wbNextCnt_classes {A : Type} (cb : Int → A → Int × A) (i : Info A) (text : List UInt32) :
    wbNextCnt cb tab i text = feed (nextHandler cb) i (classes tab text) :=
  feed_map (nextHandler cb) (fun ch => unicodeTabLookup ch tab .other) i text

theorem held_init {A : Type} (a : A) (rest : List WbClass) : held (wbInit a) rest = [] := rfl

theorem wbNextCnt_wbEnd {A : Type} {cb : Int → A → Int × A} (ok : ∀ flag a, (cb flag a).1 = 0)
    (text : List UInt32) (a : A) :
    let fed := wbNextCnt cb tab (wbInit a) text
    let ended := wbEnd cb fed.2
    fed.1 = 0 ∧ ended.1 = 0 ∧
      ended.2.cbArg = (wordBreaks (classes tab text)).foldl (put cb) a := by
  obtain ⟨i, out, run, reads, emits, owes⟩ :=
    (machine_sound ok).feed (classes tab text) (reads_init a)
  have fed : wbNextCnt cb tab (wbInit a) text = (0, i) := by
    rw [wbNextCnt_classes]
    exact run
  obtain ⟨zero, last⟩ := wbEnd_emits ok reads
  have all := emits.trans last
  have values : out ++ held i [] = wordBreaks (classes tab text) := by
    have := owes []
    simpa [machine, held_init, wordBreaks] using this
  rw [values] at all
  simp only [fed]
  exact ⟨trivial, zero, all⟩

theorem wbscanEnd_firstWord (fed rest : List UInt32)
    (stop : (wbscan tab (false, wbscanInit) fed).1 = true ∨ rest = []) :
    wbscanEnd (wbscan tab (false, wbscanInit) fed).2 =
      firstWord (wordBreaks (classes tab (fed ++ rest))) := by
  obtain ⟨same, ⟨_, reads⟩, fine, hit⟩ :=
    wbscan_run tab (reads_init { found := false, cnt := 0 }) rfl fed
  have init : wbInit { found := false, cnt := 0 } = wbscanInit := rfl
  rw [init] at same reads fine hit
  rw [← scan_firstWord, wbscanEnd]
  cases seen : (wbscan tab (false, wbscanInit) fed).1 with
  | true =>
      -- what is put out after the boundary changes nothing
      have last := (wbEnd_emits wbscanCallback_ok reads).2
      have stays : (wbEnd wbscanCallback (wbscan tab (false, wbscanInit) fed).2).2.cbArg =
          (wbscan tab (false, wbscanInit) fed).2.cbArg :=
        Eq.trans last (scan_found _ (same.trans seen))
      have shape : classes tab (fed ++ rest) = classes tab fed ++ classes tab rest := by
        simp [classes]
      rw [stays, hit seen (classes tab rest), ← shape]
      rfl
  | false =>
      have none : rest = [] := by simpa [seen] using stop
      have whole := (wbNextCnt_wbEnd tab wbscanCallback_ok fed { found := false, cnt := 0 }).2.2
      rw [init, show wbNextCnt wbscanCallback tab wbscanInit fed = _ from fine seen] at whole
      rw [whole, none, List.append_nil]

/-- Once for each code point, in order, with the values of the rules; and the scan finds the
first word wherever it stops in time. -/
theorem wordbreak_agrees {A : Type} (cb : Int → A → Int × A) (ok : ∀ flag a, (cb flag a).1 = 0)
    (text : List UInt32) (a : A) :
    let values := wordBreaks (classes tab text)
    let fed := wbNextCnt cb tab (wbInit a) text
    let ended := wbEnd cb fed.2
    values.length = text.length ∧ fed.1 = 0 ∧ ended.1 = 0 ∧
      ended.2.cbArg = values.foldl (fun a flag => (cb flag a).2) a ∧
      ∀ fed rest, text = fed ++ rest →
        (wbscan tab (false, wbscanInit) fed).1 = true ∨ rest = [] →
        wbscanEnd (wbscan tab (false, wbscanInit) fed).2 = firstWord values := by
  obtain ⟨zero, zero', sink⟩ := wbNextCnt_wbEnd tab ok text a
  refine ⟨by simp [wordBreaks, classes], zero, zero', sink, ?_⟩
  rintro fed rest rfl stop
  exact wbscanEnd_firstWord tab fed rest stop

end Run

def asciiTables : Tables WbClass where
  indextab := #[0, 4]
  rangetab := #[(0x2e, 0x2e), (0x30, 0x39), (0x41, 0x5a), (0x61, 0x7a)]
  classtab := #[.midNumLet, .numeric, .aLetter, .aLetter]

theorem classes_ascii :
    classes asciiTables [0x61, 0x2e, 0x62, 0x2e] = [.aLetter, .midNumLet, .aLetter, .midNumLet] := by
  decide +kernel

/-- "a.b." -/
theorem wordbreak_agrees_sample :
    (wbEnd (fun flag (got : List Int) => (0, got ++ [flag]))
        (wbNextCnt (fun flag (got : List Int) => (0, got ++ [flag])) asciiTables (wbInit [])
          [0x61, 0x2e, 0x62, 0x2e]).2).2.cbArg = [1, 0, 0, 1] ∧
      wbscanEnd (wbscan asciiTables (false, wbscanInit) [0x61, 0x2e, 0x62, 0x2e]).2 = 3 := by
  obtain ⟨-, -, -, sink, scan⟩ := wordbreak_agrees asciiTables
    (fun flag (got : List Int) => (0, got ++ [flag])) (fun _ _ => rfl) [0x61, 0x2e, 0x62, 0x2e] []
  have values : wordBreaks (classes asciiTables [0x61, 0x2e, 0x62, 0x2e]) = [1, 0, 0, 1] := by
    rw [classes_ascii]
    decide
  rw [values] at sink scan
  exact ⟨sink, scan _ [] rfl (.inr rfl)⟩

end Cone.WordbreakScan
