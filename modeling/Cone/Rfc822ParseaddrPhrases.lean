import Cone.Rfc822Parseaddr

/-! # Phrases that are fused

The tokens of a text stand in it one after the other, but for the empty atom of a null address,
which always comes between a `<` and a `>`.  What the parser leaves for its next round never
begins with that atom, and a phrase has no `<` in it. -/
set_option autoImplicit false
namespace Cone.Rfc822ParseaddrPhrases

open Cone.Ctype Cone.Rfc822Tokenize Cone.Rfc822Parseaddr

structure Placed (addr : List UInt8) (t : Token) (a : Nat) : Prop where
  offset : t.ptr.offset = some a
  chars : t.ptr.chars = addr.drop a
  inside : a + t.len ≤ addr.length

inductive Laid (addr : List UInt8) : Nat → List Token → Prop
  | nil (i : Nat) : Laid addr i []
  | token (i a : Nat) (t : Token) (ts : List Token) (le : i ≤ a) (placed : Placed addr t a)
      (rest : Laid addr (a + t.len) ts) : Laid addr i (t :: ts)
  | nullAddress (i a : Nat) (t n g : Token) (ts : List Token) (le : i ≤ a) (placed : Placed addr t a)
      (less : t.token = byte '<') (greater : g.token = byte '>') (null : n.token = 0)
      (rest : Laid addr (a + t.len) (g :: ts)) : Laid addr i (t :: n :: g :: ts)

theorem Laid.mono {addr : List UInt8} {i j : Nat} {ts : List Token} (h : Laid addr j ts)
    (le : i ≤ j) : Laid addr i ts := by
  cases h with
  | nil => exact Laid.nil i
  | token _ a t ts le' placed rest => exact Laid.token i a t ts (Nat.le_trans le le') placed rest
  | nullAddress _ a t n g ts le' placed less greater null rest =>
      exact Laid.nullAddress i a t n g ts (Nat.le_trans le le') placed less greater null rest

/-! ## The tokens of a text -/

theorem mem_map_add_le {o : Option Nat} {k m : Nat} (h : ∀ n ∈ o, n ≤ m) :
    ∀ n ∈ o.map (· + k), n ≤ m + k := by
  intro n hn
  obtain ⟨j, hj, rfl⟩ := Option.map_eq_some_iff.mp hn
  exact Nat.add_le_add_right (h j hj) k

theorem commentLen_le (level : Nat) (p : List UInt8) :
    ∀ n ∈ commentLen level p, n ≤ p.length := by
  induction level, p using commentLen.induct with
  | case1 level => simp [commentLen]
  | case2 level p ih =>
      rw [commentLen.eq_def]
      exact mem_map_add_le ih
  | case3 p other =>
      rw [commentLen.eq_def]
      simp [other]
  | case4 level p inner other ih =>
      rw [commentLen.eq_def]
      simp only [if_neg other, if_true, if_neg inner]
      exact mem_map_add_le ih
  | case5 level other other' =>
      rw [commentLen.eq_def]
      simp [other, other']
  | case6 level c p other other' ih =>
      rw [commentLen.eq_def]
      simp only [if_neg other, if_neg other', if_true]
      exact mem_map_add_le ih
  | case7 level c p other other' other'' ih =>
      rw [commentLen.eq_def]
      simp only [if_neg other, if_neg other', if_neg other'']
      exact mem_map_add_le ih

theorem commentLen_pos (q : List UInt8) : ∀ n ∈ commentLen 0 (byte '(' :: q), 0 < n := by
  intro n hn
  rw [commentLen.eq_def] at hn
  obtain ⟨j, -, rfl⟩ := Option.map_eq_some_iff.mp hn
  exact Nat.succ_pos j

theorem quotedLen_lt (p : List UInt8) : ∀ n ∈ quotedLen p, n + 1 ≤ p.length := by
  induction p using quotedLen.induct with
  | case1 => simp [quotedLen]
  | case2 p =>
      rw [quotedLen.eq_def]
      simp
  | case3 other =>
      rw [quotedLen.eq_def]
      simp [other]
  | case4 c p other ih =>
      rw [quotedLen.eq_def]
      simp only [if_neg other, if_true]
      intro n hn
      obtain ⟨j, hj, rfl⟩ := Option.map_eq_some_iff.mp hn
      have := ih j hj
      simp only [List.length_cons]
      omega
  | case5 c p other other' ih =>
      rw [quotedLen.eq_def]
      simp only [if_neg other, if_neg other']
      intro n hn
      obtain ⟨j, hj, rfl⟩ := Option.map_eq_some_iff.mp hn
      have := ih j hj
      simp only [List.length_cons]
      omega

theorem encodedWordLen_le (p : List UInt8) : ∀ n ∈ encodedWordLen p, n ≤ p.length := by
  induction p using encodedWordLen.induct with
  | case1 => simp [encodedWordLen]
  | case2 c p ends =>
      rw [encodedWordLen, if_pos ends]
      intro n hn
      obtain rfl : 2 = n := by simpa using hn
      cases p with
      | nil => simp at ends
      | cons d p => simp
  | case3 c p more skip ih =>
      rw [encodedWordLen, if_neg more, if_pos skip]
      exact mem_map_add_le ih
  | case4 c p more skip special =>
      rw [encodedWordLen, if_neg more, if_neg skip, if_pos special]
      simp
  | case5 c p more skip special ih =>
      rw [encodedWordLen, if_neg more, if_neg skip, if_neg special]
      exact mem_map_add_le ih

theorem encodedWordAt_le (p : List UInt8) : ∀ n ∈ encodedWordAt p, n ≤ p.length := by
  match p with
  | [] => simp [encodedWordAt]
  | [_] => simp [encodedWordAt]
  | c :: d :: p =>
      rw [encodedWordAt]
      by_cases question : d = byte '?'
      · rw [if_pos question]
        exact mem_map_add_le (encodedWordLen_le p)
      · rw [if_neg question]
        simp

theorem encodedWordAt_pos (p : List UInt8) : ∀ n ∈ encodedWordAt p, 0 < n := by
  intro n hn
  match p, hn with
  | c :: d :: p, hn =>
      rw [encodedWordAt] at hn
      by_cases question : d = byte '?'
      · rw [if_pos question] at hn
        obtain ⟨j, -, rfl⟩ := Option.map_eq_some_iff.mp hn
        exact Nat.succ_pos _
      · rw [if_neg question] at hn
        cases hn

section Tokenizer
variable {addr : List UInt8} {fuel i : Nat} {inbracket : Bool} {p : List UInt8}

theorem drop_drop_eq (here : addr.drop i = p) (n : Nat) : addr.drop (i + n) = p.drop n := by
  rw [← here, List.drop_drop]

theorem laid_token {t : Token} {ts : List Token} (k n : Nat) (here : addr.drop i = p)
    (some' : p ≠ []) (ptr : t.ptr = ⟨some (i + k), p.drop k⟩) (len : t.len = n)
    (fits : k + n ≤ p.length) (rest : Laid addr (i + k + n) ts) : Laid addr i (t :: ts) := by
  have length := congrArg List.length here
  rw [List.length_drop] at length
  have positive := List.length_pos_iff.mpr some'
  refine Laid.token i (i + k) t ts (Nat.le_add_right i k) ⟨by rw [ptr], ?_, by omega⟩ ?_
  · rw [ptr, drop_drop_eq here]
  · rw [len]
    exact rest

theorem tokenizeAt_greater (fuel i : Nat) (q : List UInt8) :
    (tokenizeAt (fuel + 1) true i (byte '>' :: q)).tokens =
      ⟨byte '>', ⟨some i, byte '>' :: q⟩, 1⟩ :: (tokenizeAt fuel false (i + 1) q).tokens := by
  rw [tokenizeAt_single (by decide) fuel i (fun h => absurd h (by decide)), if_neg (by decide),
    nullAddress_of_ne (by decide)]
  rfl

theorem laid_special {c : UInt8} {q : List UInt8}
    (ih : ∀ {inbracket : Bool} {i : Nat} {p : List UInt8}, p.length ≤ fuel → addr.drop i = p →
      Laid addr i (tokenizeAt fuel inbracket i p).tokens)
    (length : q.length ≤ fuel) (next : addr.drop (i + 1) = q) (here : addr.drop i = c :: q)
    (passed : Laid addr i (tokenizeAt fuel inbracket (i + 1) q).tokens)
    (ahead : ∀ n, 0 < n → Laid addr (i + n)
      (tokenizeAt fuel inbracket (i + n) ((c :: q).drop n)).tokens) :
    Laid addr i
      (match if c = byte '=' then encodedWordAt (c :: q) else none with
        | some n =>
          (tokenizeAt fuel inbracket (i + n) ((c :: q).drop n)).token ⟨0, ⟨some i, c :: q⟩, n⟩
        | none =>
          if unpaired inbracket c then (tokenizeAt fuel inbracket (i + 1) q).error i
          else
            ((tokenizeAt fuel (bracketAfter inbracket c) (i + 1) q).append (nullAddress c q)).token
              ⟨c, ⟨some i, c :: q⟩, 1⟩).tokens := by
  cases word : (if c = byte '=' then encodedWordAt (c :: q) else none) with
  | some n =>
      have found : encodedWordAt (c :: q) = some n := by
        by_cases equals : c = byte '='
        · rwa [if_pos equals] at word
        · rw [if_neg equals] at word
          cases word
      have fits := encodedWordAt_le (c :: q) n found
      exact laid_token 0 n here (by simp) rfl rfl (by omega) (ahead n (encodedWordAt_pos _ n found))
  | none =>
      by_cases single : unpaired inbracket c = true
      · simp only [if_pos single]
        exact passed
      · simp only [if_neg single]
        have later : Laid addr (i + 1)
            (tokenizeAt fuel (bracketAfter inbracket c) (i + 1) q).tokens := ih length next
        by_cases null : c = byte '<' ∧ q.head? = some (byte '>')
        · obtain ⟨rfl, greater⟩ := null
          cases q with
          | nil => cases greater
          | cons d q =>
              obtain rfl : d = byte '>' := by simpa using greater
              cases fuel with
              | zero => simp at length
              | succ fuel =>
                  have after : bracketAfter inbracket (byte '<') = true := rfl
                  have atom : nullAddress (byte '<') (byte '>' :: q) = [⟨0, ⟨none, []⟩, 0⟩] := rfl
                  rw [after, tokenizeAt_greater] at later
                  rw [after, Scan.tokens_token, Scan.tokens_append, atom, tokenizeAt_greater]
                  have size := congrArg List.length here
                  rw [List.length_drop, List.length_cons] at size
                  exact Laid.nullAddress i i _ _ _ _ (Nat.le_refl i)
                    ⟨rfl, here.symm, by simp only; omega⟩ rfl rfl rfl later
        · have none' : nullAddress c q = [] := if_neg null
          rw [none']
          exact laid_token 0 1 here (by simp) rfl rfl (by simp) later

theorem laid_tokenizeAt (enough : p.length ≤ fuel) (here : addr.drop i = p) :
    Laid addr i (tokenizeAt fuel inbracket i p).tokens := by
  induction fuel generalizing inbracket i p with
  | zero => exact Laid.nil i
  | succ fuel ih =>
      cases p with
      | nil => exact Laid.nil i
      | cons c q =>
          have next : addr.drop (i + 1) = q := drop_drop_eq here 1
          have length : q.length ≤ fuel := by simpa using enough
          have ahead : ∀ n, 0 < n → Laid addr (i + n)
              (tokenizeAt fuel inbracket (i + n) ((c :: q).drop n)).tokens := by
            intro n positive
            refine ih ?_ (drop_drop_eq here n)
            rw [List.length_drop, List.length_cons]
            omega
          have passed : Laid addr i (tokenizeAt fuel inbracket (i + 1) q).tokens :=
            (ahead 1 (by decide)).mono (Nat.le_add_right i 1)
          rw [tokenizeAt]
          dsimp only
          by_cases space : isspace c = true
          · rw [if_pos space]
            exact passed
          · rw [if_neg space]
            by_cases paren : c = byte '('
            · rw [if_pos paren]
              cases closed : commentLen 0 (c :: q) with
              | none => exact laid_token 0 _ here (by simp) rfl rfl (by simp) (Laid.nil _)
              | some n =>
                  have fits := commentLen_le 0 (c :: q) n closed
                  have positive : 0 < n := commentLen_pos q n (paren ▸ closed)
                  exact laid_token 0 n here (by simp) rfl rfl (by omega) (ahead n positive)
            · rw [if_neg paren]
              by_cases quote : c = byte '"'
              · rw [if_pos quote]
                cases closed : quotedLen q with
                | none =>
                    refine laid_token 1 q.length here (by simp) rfl rfl ?_ (Laid.nil _)
                    rw [List.length_cons]
                    omega
                | some n =>
                    have fits := quotedLen_lt q n closed
                    refine laid_token 1 n here (by simp) rfl rfl ?_ ?_
                    · rw [List.length_cons]
                      omega
                    · exact (ahead (n + 2) (by omega)).mono (by omega)
              · rw [if_neg quote]
                by_cases stray : c = byte '\\' ∨ c = byte ')'
                · rw [if_pos stray]
                  exact passed
                · rw [if_neg stray]
                  by_cases special : c ∈ specials
                  · rw [if_pos special]
                    exact laid_special ih length next here passed ahead
                  · rw [if_neg special]
                    have atom : atomChar c = true := by simp [atomChar, space, special]
                    refine laid_token 0 _ here (by simp) rfl rfl ?_ (ahead _ ?_)
                    · rw [Nat.zero_add]
                      exact (List.takeWhile_sublist _).length_le
                    · rw [List.takeWhile_cons_of_pos atom]
                      exact Nat.succ_pos _

end Tokenizer

/-! ## What the parser leaves for its next round -/

section Rounds
variable {addr : List UInt8} {i : Nat} {ts : List Token}

def NoLess (ts : List Token) : Prop := ∀ t ∈ ts, t.token ≠ byte '<'

theorem Laid.first {t : Token} (h : Laid addr i (t :: ts)) (other : t.token ≠ byte '<') :
    ∃ a, i ≤ a ∧ Placed addr t a ∧ Laid addr (a + t.len) ts := by
  cases h with
  | token _ a _ _ le placed rest => exact ⟨a, le, placed, rest⟩
  | nullAddress _ a _ n g ts le placed less greater null rest => exact absurd less other

theorem Laid.past {front rest : List Token} (h : Laid addr i (front ++ rest))
    (other : NoLess front) : ∃ j, Laid addr j rest := by
  induction front generalizing i with
  | nil => exact ⟨i, h⟩
  | cons t front ih =>
      obtain ⟨a, -, -, rest'⟩ := h.first (other t (List.mem_cons_self ..))
      exact ih rest' fun u hu => other u (List.mem_cons_of_mem _ hu)

theorem Laid.past_take (h : Laid addr i ts) (n : Nat) (other : NoLess (ts.take n)) :
    ∃ j, Laid addr j (ts.drop n) := by
  rw [← List.take_append_drop n ts] at h
  exact h.past other

theorem Laid.greater (h : Laid addr i ts) :
    ∃ j, Laid addr j (ts.dropWhile fun t => t.token ≠ byte '>') := by
  induction h with
  | nil i => exact ⟨i, Laid.nil i⟩
  | token i a t ts le placed rest ih =>
      by_cases greater : t.token = byte '>'
      · refine ⟨i, ?_⟩
        rw [List.dropWhile_cons_of_neg (by simpa using greater)]
        exact Laid.token i a t ts le placed rest
      · rw [List.dropWhile_cons_of_pos (by simpa using greater)]
        exact ih
  | nullAddress i a t n g ts le placed less greater null rest ih =>
      have ne : byte '<' ≠ byte '>' := by decide
      have ne' : (0 : UInt8) ≠ byte '>' := by decide
      rw [List.dropWhile_cons_of_pos (by simpa [less] using ne),
        List.dropWhile_cons_of_pos (by simpa [null] using ne')]
      exact ih

theorem drop_takeWhile (p : Token → Bool) (ts : List Token) :
    ts.drop (ts.takeWhile p).length = ts.dropWhile p := by
  have whole : ts.takeWhile p ++ ts.dropWhile p = ts := List.takeWhile_append_dropWhile
  exact (List.append_cancel_left (whole.trans
    (((List.take_append_drop _ ts).symm.trans
      (congrArg (· ++ _) (List.prefix_iff_eq_take.mp (List.takeWhile_prefix p)).symm))))).symm

theorem noLess_takeWhile {p : Token → Bool} (other : ∀ t, p t = true → t.token ≠ byte '<') :
    NoLess (ts.take (ts.takeWhile p).length) := by
  intro t ht
  rw [← List.prefix_iff_eq_take.mp (List.takeWhile_prefix p)] at ht
  exact other t (List.all_eq_true.mp List.all_takeWhile t ht)

theorem noLess_words : NoLess (ts.take (ts.takeWhile isWord).length) := by
  refine noLess_takeWhile fun t word less => ?_
  rw [isWord, less] at word
  exact absurd word (by decide)

theorem noLess_routeStart : NoLess (ts.take (routeStart ts)) := by
  refine noLess_takeWhile fun t plain less => ?_
  rw [less] at plain
  simp at plain

theorem Laid.past_next {n : Nat} (h : Laid addr i ts) (other : NoLess (ts.take n))
    (next : ∀ t ∈ (ts.drop n).head?, t.token ≠ byte '<') : ∃ j, Laid addr j (ts.drop (n + 1)) := by
  obtain ⟨j, rest⟩ := h.past_take n other
  rw [← List.drop_drop]
  cases front : ts.drop n with
  | nil => exact ⟨j, Laid.nil j⟩
  | cons t ts' =>
      rw [front] at rest next
      obtain ⟨a, -, -, rest'⟩ := rest.first (next t rfl)
      exact ⟨_, rest'⟩

theorem next_ne {c : Char} (other : byte c ≠ byte '<') (h : nextIs c ts = true) :
    ∀ t ∈ ts.head?, t.token ≠ byte '<' := by
  intro t ht less
  rw [nextIs, ht] at h
  exact other ((show byte '<' = byte c by simpa [less] using h).symm)

theorem first_ne (none' : nextIs '<' (ts.drop (routeStart ts)) ≠ true) :
    ∀ t ∈ ts.head?, t.token ≠ byte '<' := by
  cases ts with
  | nil =>
      intro t ht
      cases ht
  | cons t ts =>
      intro u hu less
      obtain rfl : t = u := by simpa using hu
      refine none' ?_
      have zero : routeStart (t :: ts) = 0 := by simp [routeStart, less]
      rw [zero]
      simp [nextIs, less]

theorem oldStyleEnd_routeStart (flag : Bool)
    (none' : nextIs '<' (ts.drop (routeStart ts)) ≠ true) : oldStyleEnd flag ts ≤ routeStart ts := by
  induction ts generalizing flag with
  | nil => exact Nat.le_refl 0
  | cons t ts ih =>
      have plain := first_ne none' t rfl
      rw [oldStyleEnd]
      by_cases separator : isSeparator t = true
      · rw [if_pos separator]
        exact Nat.zero_le _
      · rw [if_neg separator]
        have step : routeStart (t :: ts) = routeStart ts + 1 := by
          simp [routeStart, separator, plain]
        rw [step] at none' ⊢
        rw [List.drop_succ_cons] at none'
        have h := ih flag none'
        have h' := ih true none'
        have h'' := ih false none'
        split
        · omega
        · split
          · split <;> omega
          · omega

theorem NoLess.take_of_le {m n : Nat} (h : NoLess (ts.take n)) (le : m ≤ n) :
    NoLess (ts.take m) := by
  intro t ht
  exact h t ((List.take_prefix_take_left le).subset ht)

theorem Laid.past_route (h : Laid addr i ts) (less : nextIs '<' (ts.drop (routeStart ts)) = true)
    {j : Nat} (stop : ((ts.drop (routeStart ts + 1)).takeWhile fun t => t.token ≠ byte '>').length = j) :
    ∃ k, Laid addr k (ts.drop ((Part.route (routeStart ts) j).taken ts)) := by
  obtain ⟨a, rest⟩ := h.past_take _ noLess_routeStart
  obtain ⟨b, rest⟩ := rest.greater
  have end' : (ts.drop (routeStart ts)).dropWhile (fun t => t.token ≠ byte '>') =
      ts.drop (routeStart ts + 1 + j) := by
    rw [← List.drop_drop, ← stop, drop_takeWhile, ← List.drop_drop]
    cases front : ts.drop (routeStart ts) with
    | nil => rfl
    | cons t ts' =>
        rw [front] at less
        have token : t.token = byte '<' := by simpa [nextIs] using less
        rw [List.dropWhile_cons_of_pos (by rw [token]; decide)]
        rfl
  rw [Part.taken]
  cases last : ts.drop (routeStart ts + 1 + j) with
  | nil =>
      rw [List.isEmpty_nil, if_pos rfl, last]
      exact ⟨0, Laid.nil 0⟩
  | cons t ts' =>
      rw [List.isEmpty_cons, if_neg (by decide), ← List.drop_drop, last]
      rw [end', last] at rest
      have token : t.token ≠ byte '<' := by
        intro less'
        have greater := List.head?_dropWhile_not (fun t : Token => decide (t.token ≠ byte '>'))
          (ts.drop (routeStart ts))
        rw [end', last] at greater
        simp [less'] at greater
        exact absurd greater (by decide)
      obtain ⟨c, -, -, rest'⟩ := rest.first token
      exact ⟨_, rest'⟩

theorem Laid.taken (h : Laid addr i ts) : ∃ j, Laid addr j (ts.drop ((classify ts).taken ts)) := by
  rw [classify]
  dsimp only
  by_cases group : nextIs ':' (ts.drop (ts.takeWhile isWord).length) = true
  · rw [if_pos group]
    exact h.past_next noLess_words (next_ne (by decide) group)
  · rw [if_neg group]
    by_cases comma : nextIs ',' ts = true
    · rw [if_pos comma]
      exact h.past_next (by simp [NoLess]) (next_ne (by decide) comma)
    · rw [if_neg comma]
      by_cases semicolon : nextIs ';' ts = true
      · rw [if_pos semicolon]
        exact h.past_next (by simp [NoLess]) (next_ne (by decide) semicolon)
      · rw [if_neg semicolon]
        by_cases less : nextIs '<' (ts.drop (routeStart ts)) = true
        · rw [if_pos less]
          exact h.past_route less rfl
        · rw [if_neg less, Part.taken]
          by_cases zero : oldStyleEnd false ts = 0
          · rw [if_pos zero]
            exact h.past_next (by simp [NoLess]) (first_ne less)
          · rw [if_neg zero]
            exact h.past_take _ (noLess_routeStart.take_of_le (oldStyleEnd_routeStart false less))

/-! ## The ends of a phrase -/

theorem Laid.ends {phrase rest : List Token} (h : Laid addr i (phrase ++ rest))
    (other : NoLess phrase) {first last : Token} (head : phrase.head? = some first)
    (last' : phrase.getLast? = some last) :
    ∃ a b, i ≤ a ∧ a ≤ b ∧ Placed addr first a ∧ Placed addr last b := by
  induction phrase generalizing i first with
  | nil => cases head
  | cons t phrase ih =>
      obtain rfl : t = first := by simpa using head
      obtain ⟨a, le, placed, rest'⟩ := h.first (other t (List.mem_cons_self ..))
      cases phrase with
      | nil =>
          obtain rfl : t = last := by simpa using last'
          exact ⟨a, a, le, Nat.le_refl a, placed, placed⟩
      | cons u phrase =>
          rw [List.getLast?_cons_cons] at last'
          obtain ⟨a', b, le', le'', -, placed'⟩ :=
            ih rest' (fun v hv => other v (List.mem_cons_of_mem _ hv)) rfl last'
          exact ⟨a, b, le, by omega, placed, placed'⟩

def Ordered (addr : List UInt8) (ends : Token × Token) : Prop :=
  ∃ a b, Placed addr ends.1 a ∧ Placed addr ends.2 b ∧ a ≤ b + ends.2.len

theorem ordered_fusedEnds (h : Laid addr i ts) {n : Nat} (other : NoLess (ts.take n)) :
    ∀ ends ∈ fusedEnds ts n, Ordered addr ends := by
  intro ends fused
  rw [fusedEnds] at fused
  split at fused
  · cases fused
  · cases head : (ts.take n).head? with
    | none => simp [head] at fused
    | some first =>
        cases last' : (ts.take n).getLast? with
        | none => simp [last'] at fused
        | some last =>
            obtain rfl : (first, last) = ends := by simpa [head, last'] using fused
            rw [← List.take_append_drop n ts] at h
            obtain ⟨a, b, -, le, placed, placed'⟩ := h.ends other head last'
            exact ⟨a, b, placed, placed', by simp only; omega⟩

theorem ordered_fuses (h : Laid addr i ts) :
    ∀ ends ∈ (classify ts).fuses ts, Ordered addr ends := by
  intro ends fused
  rw [classify] at fused
  dsimp only at fused
  split at fused
  · cases fused
  · split at fused
    · cases fused
    · split at fused
      · cases fused
      · split at fused
        · exact ordered_fusedEnds h noLess_routeStart ends fused
        · cases fused

theorem ordered_parseLoop (fuel pos : Nat) (array : List Token)
    (h : ∃ i, Laid addr i (array.drop pos)) :
    ∀ ends ∈ (parseLoop true fuel pos array).fused, Ordered addr ends := by
  induction fuel generalizing pos array with
  | zero =>
      intro ends fused
      cases fused
  | succ fuel ih =>
      intro ends fused
      rw [parseLoop] at fused
      by_cases done : (array.drop pos).isEmpty = true
      · rw [if_pos done] at fused
        cases fused
      · have inside : pos ≤ array.length := by
          by_contra beyond
          exact done (by simp [List.drop_eq_nil_of_le (show array.length ≤ pos by omega)])
        obtain ⟨i, laid⟩ := h
        have next := rewritten_drop array pos _ (classify_fits _) inside
        simp only [if_neg done, if_true, List.mem_append, Option.mem_toList] at fused
        rcases fused with now | later
        · exact ordered_fuses laid ends now
        · refine ih _ _ ?_ ends later
          rw [next, ← List.drop_drop]
          exact laid.taken

end Rounds

/-- The second pass fills in as many entries as the first one counts, and what it computes a
length from always stands in the text, the first token not after the last. -/
theorem passes_agree :
    (∀ tokens, (parseaddr true tokens).addrs.length = (parseaddr false tokens).naddrs ∧
      (parseaddr true tokens).naddrs = (parseaddr false tokens).naddrs) ∧
    ∀ addr, ∀ ends ∈ (parseaddr true (tokenize addr).tokens).fused,
      Ordered addr ends ∧ 0 ≤ fusedLen ends.1 ends.2 := by
  refine ⟨fun tokens => ?_, fun addr ends fused => ?_⟩
  · obtain ⟨count, entries⟩ := parseLoop_agrees tokens.length 0 tokens tokens rfl
    exact ⟨entries.trans count, count⟩
  · have laid : Laid addr 0 (tokenize addr).tokens := laid_tokenizeAt (Nat.le_refl _) rfl
    have ordered := ordered_parseLoop (tokenize addr).tokens.length 0 _ ⟨0, laid⟩ ends fused
    refine ⟨ordered, ?_⟩
    obtain ⟨a, b, first, last, le⟩ := ordered
    rw [fusedLen, first.offset, last.offset]
    simp only [Option.getD_some]
    omega

end Cone.Rfc822ParseaddrPhrases
