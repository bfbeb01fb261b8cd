import Cone.ImapSearch
import Cone.Lib.Istream

/-! # Searches as text

The conversions of `mail::searchParams` (libmail/search.C). -/
set_option autoImplicit false
namespace Cone.SearchParams

open Cone.Ctype Cone.Lib.Decimal
open Cone.ImapBodystructure (Text)
open Cone.SearchMessages (Criteria Scope)
open Cone.ImapSearch (SearchParams c_str)

/-! ## The table and the hexadecimal digits -/

def searchCriteriaTable : List (Criteria × Text) :=
  [(.replied, str "replied"), (.deleted, str "deleted"), (.draft, str "draft"),
    (.unread, str "unread"), (.from, str "from"), (.to, str "to"), (.cc, str "cc"),
    (.bcc, str "bcc"), (.subject, str "subject"), (.header, str "header"), (.body, str "body"),
    (.text, str "text"), (.before, str "before"), (.on, str "on"), (.since, str "since"),
    (.sentbefore, str "sentbefore"), (.senton, str "senton"), (.sentsince, str "sentsince"),
    (.larger, str "larger"), (.smaller, str "smaller")]

def hexdigits : Text := str "0123456789abcdef"

/-- `hex << setw(2) << setfill('0')` -/
def hexpair (c : UInt8) : Text :=
  [hexdigits.getD (c.toNat / 16) 0, hexdigits.getD (c.toNat % 16) 0]

def hexvalue (c : UInt8) : Option Nat :=
  strchr hexdigits (if byte 'A' ≤ c ∧ c ≤ byte 'F' then c + 32 else c)

def isxdigit (c : UInt8) : Bool := (hexvalue c).isSome

def hexNumber (p : Text) : Option Nat :=
  let ds := p.takeWhile isxdigit
  if ds = [] then none else some (ds.foldl (fun n c => 16 * n + (hexvalue c).getD 0) 0)

/-- `istringstream(hx) >> hex` into an `unsigned`; two characters make no number too large. -/
def readHex (hx : Text) : Option Nat :=
  match (c_str hx).dropWhile isspace with
  | [] => none
  | c :: p =>
    if c = byte '-' then (hexNumber p).map fun n => (2 ^ 32 - n) % 2 ^ 32
    else if c = byte '+' then hexNumber p
    else if c = byte '0' ∧ p.head?.any (fun x => x = byte 'x' || x = byte 'X') then
      hexNumber (p.drop 1)
    else hexNumber (c :: p)

/-! ## Writing -/

def encodeChar (b : UInt8) : Text :=
  if b ≤ SP ∨ 127 ≤ b ∨ b = byte '%' then byte '%' :: hexpair b else [b]

def encode (s : Text) : Text := s.flatMap encodeChar

def criteriaName (criteria : Criteria) : Text :=
  ((searchCriteriaTable.find? fun entry => decide (entry.1 = criteria)).map Prod.snd).getD []

def scopeText (p : SearchParams) : Text :=
  match p.scope with
  | .search_all => str "A "
  | .search_marked => str "M "
  | .search_unmarked => str "U "
  | .search_range => decimal p.rangeLo ++ byte '-' :: decimal p.rangeHi ++ [SP]

/-- What is written behind the scope. -/
def command (p : SearchParams) : Text :=
  (if p.searchNot then [byte '!'] else []) ++ (criteriaName p.criteria ++
    SP :: (encode p.param1 ++ SP :: (encode p.param2 ++ SP :: encode p.charset)))

/-- `mail::searchParams::operator std::string` -/
def toText (p : SearchParams) : Text := scopeText p ++ command p

/-! ## Reading -/

/-- A string, and what is left behind the space that ends it. -/
def decode : Text → Text × Text
  | [] => ([], [])
  | c :: b =>
    if c = SP then ([], b)
    else if c ≠ byte '%' then
      let r := decode b
      (c :: r.1, r.2)
    else
      match b with
      | h0 :: h1 :: b =>
        let r := decode b
        match readHex [h0, h1] with
        | none => r
        | some n => (UInt8.ofNat n :: r.1, r.2)
      | _ => ([], [])

/-- `i >> rangeLo >> dummy >> rangeHi`, and whether that is a range. -/
def readRange (s : Text) : Nat × Nat × Bool :=
  match Lib.Istream.readSize s with
  | none => (Lib.Istream.failedSize s, 0, false)
  | some (lo, p) =>
    match p.dropWhile isspace with
    | [] => (lo, 0, false)
    | dummy :: q =>
      match Lib.Istream.readSize q with
      | none => (lo, Lib.Istream.failedSize q, false)
      | some (hi, _) => (lo, hi, dummy = byte '-')

/-- The switch on the first character; `U` goes on into the default branch. -/
def readScope (s : Text) : Scope × Nat × Nat :=
  match s with
  | [] => (.search_all, 0, 0)
  | c :: _ =>
    if c = byte 'A' then (.search_all, 0, 0)
    else if c = byte 'M' then (.search_marked, 0, 0)
    else
      let r := readRange s
      (if r.2.2 then .search_range
        else if c = byte 'U' then .search_unmarked
        else .search_all, r.1, r.2.1)

def readCriteria (scope : Scope × Nat × Nat) (searchNot : Bool) (b : Text) : SearchParams :=
  let n := b.takeWhile (· ≠ SP)
  let param1 := decode ((b.dropWhile (· ≠ SP)).drop 1)
  let param2 := decode param1.2
  { searchNot := searchNot
    criteria :=
      ((searchCriteriaTable.find? fun entry => decide (entry.2 = n)).map Prod.fst).getD .replied
    scope := scope.1
    rangeLo := scope.2.1
    rangeHi := scope.2.2
    param1 := param1.1
    param2 := param2.1
    charset := (decode param2.2).1 }

def readCommand (scope : Scope × Nat × Nat) (b : Text) : SearchParams :=
  if b.head?.any fun c => c = byte '!' then readCriteria scope true (b.drop 1)
  else readCriteria scope false b

def searchParams (s : Text) : SearchParams :=
  readCommand (readScope s) ((s.dropWhile (· ≠ SP)).dropWhile (· = SP))

/-! ## Round trip -/

section Strings

theorem readHex_hexpair (b : UInt8) : readHex (hexpair b) = some b.toNat := by
  revert b
  exact forall_byte (by decide +kernel)

theorem decode_space (b : Text) : decode (SP :: b) = ([], b) := by
  rw [decode.eq_def]
  exact if_pos rfl

theorem decode_plain {c : UInt8} (space : c ≠ SP) (percent : c ≠ byte '%') (b : Text) :
    decode (c :: b) = (c :: (decode b).1, (decode b).2) := by
  rw [decode.eq_def]
  simp only [if_neg space, if_pos percent]

theorem decode_percent {h0 h1 : UInt8} {n : Nat} (value : readHex [h0, h1] = some n) (b : Text) :
    decode (byte '%' :: h0 :: h1 :: b) = (UInt8.ofNat n :: (decode b).1, (decode b).2) := by
  rw [decode.eq_def]
  have space : byte '%' ≠ SP := by decide
  simp only [if_neg space, value]
  exact if_neg (not_not.mpr rfl)

theorem decode_encodeChar (b : UInt8) (rest : Text) :
    decode (encodeChar b ++ rest) = (b :: (decode rest).1, (decode rest).2) := by
  rw [encodeChar]
  by_cases quoted : b ≤ SP ∨ 127 ≤ b ∨ b = byte '%'
  · have pair : hexpair b =
        [hexdigits.getD (b.toNat / 16) 0, hexdigits.getD (b.toNat % 16) 0] := rfl
    have value := readHex_hexpair b
    rw [if_pos quoted, pair]
    rw [pair] at value
    simp only [List.cons_append, List.nil_append]
    rw [decode_percent value, UInt8.ofNat_toNat]
  · obtain ⟨low, -, percent⟩ := not_or.mp quoted |>.imp id not_or.mp
    have space : b ≠ SP := by
      rintro rfl
      exact low (by decide)
    rw [if_neg quoted, List.singleton_append, decode_plain space percent]

theorem decode_encode (s rest : Text) :
    decode (encode s ++ SP :: rest) = (s, rest) ∧ decode (encode s) = (s, []) := by
  induction s with
  | nil =>
      exact ⟨decode_space rest, rfl⟩
  | cons b s ih =>
      rw [encode, List.flatMap_cons, List.append_assoc, decode_encodeChar, decode_encodeChar]
      rw [encode] at ih
      rw [ih.1, ih.2]
      exact ⟨rfl, rfl⟩

end Strings

section Words
variable {w rest : Text}

theorem takeWhile_word (w : Text) (single : SP ∉ w) (rest : Text) :
    (w ++ SP :: rest).takeWhile (· ≠ SP) = w ∧
      (w ++ SP :: rest).dropWhile (· ≠ SP) = SP :: rest := by
  have all : ∀ c ∈ w, decide (c ≠ SP) = true := fun c mem =>
    decide_eq_true fun same => single (same ▸ mem)
  constructor
  · rw [List.takeWhile_append_of_pos all, List.takeWhile_cons_of_neg (by simp), List.append_nil]
  · rw [List.dropWhile_append_of_pos all, List.dropWhile_cons_of_neg (by simp)]

theorem decimal_plain (n : Nat) {c : UInt8} (other : isdigit c = false) :
    c ∉ decimal n := fun mem =>
  absurd (isdigit_of_mem_decimal mem) (by simp [other])

theorem readScope_scopeText (p : SearchParams) (lo : p.rangeLo < 2 ^ 64) (hi : p.rangeHi < 2 ^ 64)
    (rest : Text) :
    ∃ w, scopeText p = w ++ [SP] ∧ SP ∉ w ∧ (readScope (scopeText p ++ rest)).1 = p.scope ∧
      (p.scope = .search_range → (readScope (scopeText p ++ rest)).2 = (p.rangeLo, p.rangeHi)) := by
  obtain ⟨⟨searchNot, criteria, scope, rangeLo, rangeHi⟩, param1, param2, charset⟩ := p
  cases scope with
  | search_all => exact ⟨str "A", rfl, by decide, rfl, nofun⟩
  | search_marked => exact ⟨str "M", rfl, by decide, rfl, nofun⟩
  | search_unmarked => exact ⟨str "U", rfl, by decide, rfl, nofun⟩
  | search_range =>
      have low := @Lib.Istream.readSize_decimal rangeLo lo
        (byte '-' :: (decimal rangeHi ++ SP :: rest)) (by simp [isdigit, byte])
      have high := @Lib.Istream.readSize_decimal rangeHi hi (SP :: rest) (by
        intro c mem
        rw [← Option.some.inj mem]
        decide)
      have whole : scopeText ⟨⟨searchNot, criteria, .search_range, rangeLo, rangeHi⟩, param1,
          param2, charset⟩ ++ rest =
            decimal rangeLo ++ byte '-' :: (decimal rangeHi ++ SP :: rest) := by
        simp [scopeText]
      have dash : (byte '-' :: (decimal rangeHi ++ SP :: rest)).dropWhile isspace =
          byte '-' :: (decimal rangeHi ++ SP :: rest) :=
        List.dropWhile_cons_of_neg (by decide)
      have range : readRange (decimal rangeLo ++ byte '-' :: (decimal rangeHi ++ SP :: rest)) =
          (rangeLo, rangeHi, true) := by
        rw [readRange, low]
        simp only [dash, high]
        rfl
      refine ⟨decimal rangeLo ++ byte '-' :: decimal rangeHi, ?_, ?_, ?_⟩
      · simp [scopeText]
      · simp only [List.mem_append, List.mem_cons, not_or]
        exact ⟨decimal_plain _ (by decide), by decide, decimal_plain _ (by decide)⟩
      · rw [whole]
        cases first : decimal rangeLo with
        | nil => exact absurd first (decimal_ne_nil rangeLo)
        | cons c ds =>
            have digit : isdigit c = true := isdigit_of_mem_decimal (by rw [first]; simp)
            have other : c ≠ byte 'A' ∧ c ≠ byte 'M' := by
              constructor
              · rintro rfl
                exact absurd digit (by decide)
              · rintro rfl
                exact absurd digit (by decide)
            rw [first, List.cons_append] at range
            rw [List.cons_append, readScope, if_neg other.1, if_neg other.2, range]
            exact ⟨rfl, fun _ => rfl⟩

theorem criteriaName_plain (criteria : Criteria) :
    SP ∉ criteriaName criteria ∧ (criteriaName criteria).head? ≠ some (byte '!') ∧
      criteriaName criteria ≠ [] ∧
      ((searchCriteriaTable.find? fun entry => decide (entry.2 = criteriaName criteria)).map
        Prod.fst).getD .replied = criteria := by
  cases criteria <;> decide

end Words

section RoundTrip

theorem readCriteria_criteriaName (p : SearchParams) (scope : Scope × Nat × Nat)
    (searchNot : Bool) :
    readCriteria scope searchNot (criteriaName p.criteria ++
        SP :: (encode p.param1 ++ SP :: (encode p.param2 ++ SP :: encode p.charset))) =
      ⟨⟨searchNot, p.criteria, scope.1, scope.2.1, scope.2.2⟩, p.param1, p.param2, p.charset⟩ := by
  obtain ⟨plain, -, -, found⟩ := criteriaName_plain p.criteria
  obtain ⟨word, behind⟩ := takeWhile_word _ plain
    (encode p.param1 ++ SP :: (encode p.param2 ++ SP :: encode p.charset))
  rw [readCriteria, word, behind, List.drop_one, List.tail_cons, found]
  simp only [(decode_encode _ _).1, (decode_encode p.charset []).2]

theorem readCommand_command (p : SearchParams) (scope : Scope × Nat × Nat) :
    readCommand scope (command p) =
      ⟨⟨p.searchNot, p.criteria, scope.1, scope.2.1, scope.2.2⟩, p.param1, p.param2,
        p.charset⟩ := by
  have read := readCriteria_criteriaName p scope p.searchNot
  obtain ⟨-, noMark, some', -⟩ := criteriaName_plain p.criteria
  rw [readCommand, command]
  cases negated : p.searchNot with
  | true =>
      rw [negated] at read
      exact read
  | false =>
      rw [negated] at read
      cases name : criteriaName p.criteria with
      | nil => exact absurd name some'
      | cons c w =>
          rw [name] at noMark read
          have other : c ≠ byte '!' := fun same => noMark (by rw [same]; rfl)
          refine (if_neg ?_).trans read
          simpa using other

theorem skip_scope (p : SearchParams) {w : Text} (single : SP ∉ w) :
    ((w ++ SP :: command p).dropWhile (· ≠ SP)).dropWhile (· = SP) = command p := by
  obtain ⟨plain, -, some', -⟩ := criteriaName_plain p.criteria
  rw [(takeWhile_word w single _).2, List.dropWhile_cons_of_pos (by simp), command]
  cases name : criteriaName p.criteria with
  | nil => exact absurd name some'
  | cons c v =>
      have other : c ≠ SP := fun same => plain (by rw [name, same]; exact List.mem_cons_self)
      cases p.searchNot with
      | true => exact List.dropWhile_cons_of_neg (by decide)
      | false => exact List.dropWhile_cons_of_neg (by simpa using other)

/-- A search that is written is read as it was. -/
theorem searchParams_toText (p : SearchParams) (lo : p.rangeLo < 2 ^ 64)
    (hi : p.rangeHi < 2 ^ 64) :
    (searchParams (toText p)).criteria = p.criteria ∧
      (searchParams (toText p)).searchNot = p.searchNot ∧
      (searchParams (toText p)).scope = p.scope ∧
      (p.scope = .search_range → (searchParams (toText p)).rangeLo = p.rangeLo ∧
        (searchParams (toText p)).rangeHi = p.rangeHi) ∧
      (searchParams (toText p)).param1 = p.param1 ∧ (searchParams (toText p)).param2 = p.param2 ∧
      (searchParams (toText p)).charset = p.charset := by
  obtain ⟨w, text, single, scope, range⟩ := readScope_scopeText p lo hi (command p)
  have whole : toText p = scopeText p ++ command p := rfl
  have read : searchParams (toText p) = readCommand (readScope (scopeText p ++ command p))
      (command p) := by
    rw [searchParams, whole, text, List.append_assoc, List.singleton_append, skip_scope p single]
  rw [read, readCommand_command]
  refine ⟨rfl, rfl, scope, fun isRange => ?_, rfl, rfl, rfl⟩
  rw [range isRange]
  exact ⟨rfl, rfl⟩

theorem searchParams_toText_sample :
    (searchParams
      (toText ⟨⟨true, .header, .search_range, 2, 10⟩, str "X-Y", str " %", []⟩)).param2 =
        str " %" :=
  (searchParams_toText ⟨⟨true, .header, .search_range, 2, 10⟩, str "X-Y", str " %", []⟩
    (by decide) (by decide)).2.2.2.2.2.1

end RoundTrip

end Cone.SearchParams
