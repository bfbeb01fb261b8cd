import Cone.Tlspasswordcache

/-! # The strings of a decrypted stream

Where the handlers stand after a stream does not depend on the pieces in which it came. -/
set_option autoImplicit false
namespace Cone.Tlspasswordcache

/-! ## Strings in their order -/

section Place

def place (ts : List TempString) (b : Buffer) : List TempString :=
  match ts with
  | [] => [{ url := b, pw := none }]
  | last :: before =>
    match last.pw with
    | none => { last with pw := some b } :: before
    | some _ => { url := b, pw := none } :: last :: before

def placed (bs : List Buffer) : List TempString := bs.foldl place []

/-- The strings two by two. -/
def pairs : List Buffer → List (Buffer × Option Buffer)
  | [] => []
  | [url] => [(url, none)]
  | url :: pw :: bs => (url, some pw) :: pairs bs

variable {b : Buffer} {bs : List Buffer} {ts : List TempString} {k : Nat} {p : List UInt8}

theorem storeLast_place : storeLast k p (place ts b) = place ts (Buffer.store b k p) := by
  rcases ts with _ | ⟨⟨url, pw⟩, before⟩
  · rfl
  · cases pw with
    | none => rfl
    | some pw => rfl

theorem placed_append (bs : List Buffer) (b : Buffer) : placed (bs ++ [b]) = place (placed bs) b := by
  unfold placed
  rw [List.foldl_concat]

/-- New strings do not touch those before, once these are two by two. -/
theorem foldl_place_append (full : ∀ t ∈ ts.head?, t.pw.isSome = true) (us : List TempString)
    (bs : List Buffer) :
    bs.foldl place (us ++ ts) = bs.foldl place us ++ ts := by
  induction bs generalizing us with
  | nil => rfl
  | cons b bs ih =>
      have one : place (us ++ ts) b = place us b ++ ts := by
        rcases us with _ | ⟨⟨url, pw⟩, us⟩
        · rcases ts with _ | ⟨⟨url, pw⟩, ts⟩
          · rfl
          · obtain ⟨pw, rfl⟩ := Option.isSome_iff_exists.mp (full _ rfl)
            rfl
        · cases pw with
          | none => rfl
          | some pw => rfl
      rw [List.foldl_cons, List.foldl_cons, one, ih]

theorem placed_pairs (bs : List Buffer) :
    (placed bs).reverse.map (fun t => (t.url, t.pw)) = pairs bs := by
  induction bs using pairs.induct with
  | case1 => rfl
  | case2 url => rfl
  | case3 url pw bs ih =>
      have split : placed (url :: pw :: bs) = placed bs ++ [{ url := url, pw := some pw }] :=
        foldl_place_append (by simp) [] bs
      rw [split, List.reverse_append, List.map_append, ih]
      rfl

/-- Only a single string is found to have no other. -/
theorem getLast_placed (bs : List Buffer) :
    (∃ url, (placed bs).getLast? = some { url := url, pw := none }) ↔ bs.length = 1 := by
  rcases bs with _ | ⟨url, _ | ⟨pw, bs⟩⟩
  · simp [placed]
  · simp [placed, place]
  · have split : placed (url :: pw :: bs) = placed bs ++ [{ url := url, pw := some pw }] :=
      foldl_place_append (by simp) [] bs
    rw [split, List.getLast?_concat]
    simp

end Place

/-! ## Positions in a stream -/

section Position

/-- The memory of a string of `n` bytes, of which `y` have been read. -/
def partly (n : Nat) (y : List UInt8) : Buffer := y.map some ++ malloc (n - y.length + 1)

/-- The memory of a string, terminated. -/
def whole (y : List UInt8) : Buffer := y.map some ++ [some 0]

inductive Position where
  | between (bs : List Buffer)
  | length (bs : List Buffer) (hi : UInt8)
  | inside (bs : List Buffer) (n : Nat) (y : List UInt8)

/-- One more byte; an empty string is over when the next one begins. -/
def advance : Position → UInt8 → Position
  | .between bs, c => .length bs c
  | .length bs hi, c => .inside bs (hi.toNat * 256 + c.toNat) []
  | .inside bs n y, c =>
    if n = 0 then .length (bs ++ [whole []]) c
    else if y.length + 1 = n then .between (bs ++ [whole (y ++ [c])])
    else .inside bs n (y ++ [c])

def Position.buffers : Position → List Buffer
  | .between bs => bs
  | .length bs _ => bs
  | .inside bs n y => bs ++ [partly n y]

def Stands (info : ReadInfo) : Position → Prop
  | .between bs => info.readhandler = .stringhi ∧ info.tempstrings = placed bs
  | .length bs hi => info.readhandler = .stringlo ∧ info.stringhi = hi.toNat * 256 ∧
      info.tempstrings = placed bs
  | .inside bs n y => info.readhandler = .string ∧ info.stringptr = y.length ∧
      info.stringleft = n - y.length ∧ (n = 0 ∧ y = [] ∨ y.length < n) ∧
      info.tempstrings = placed (bs ++ [partly n y])

variable {info : ReadInfo} {bs : List Buffer} {n : Nat} {y p : List UInt8}

theorem Stands.tempstrings {pos : Position} (h : Stands info pos) :
    info.tempstrings = placed pos.buffers := by
  cases pos with
  | between bs => exact h.2
  | length bs hi => exact h.2.2
  | inside bs n y => exact h.2.2.2.2

theorem readStringlo_tempstrings (info : ReadInfo) (c : UInt8) :
    (readStringlo info c).tempstrings =
      place info.tempstrings (malloc (info.stringhi + c.toNat + 1)) := by
  unfold readStringlo place
  rcases info.tempstrings with _ | ⟨⟨url, pw⟩, before⟩
  · rfl
  · cases pw with
    | none => rfl
    | some pw => rfl

theorem readStringlo_rest (info : ReadInfo) (c : UInt8) :
    (readStringlo info c).readhandler = .string ∧ (readStringlo info c).stringptr = 0 ∧
      (readStringlo info c).stringleft = info.stringhi + c.toNat := by
  unfold readStringlo
  rcases info.tempstrings with _ | ⟨⟨url, pw⟩, before⟩
  · exact ⟨rfl, rfl, rfl⟩
  · cases pw with
    | none => exact ⟨rfl, rfl, rfl⟩
    | some pw => exact ⟨rfl, rfl, rfl⟩

theorem store_partly (le : y.length + p.length ≤ n) :
    Buffer.store (partly n y) y.length p = partly n (y ++ p) := by
  have left : (partly n y).take y.length = y.map some := by
    unfold partly
    rw [List.take_left']
    exact List.length_map _
  have right : (partly n y).drop (y.length + p.length) = malloc (n - (y ++ p).length + 1) := by
    unfold partly malloc
    rw [← List.drop_drop, List.drop_left' (List.length_map _), List.drop_replicate, List.length_append]
    congr 1
    omega
  unfold Buffer.store
  rw [left, right]
  unfold partly
  rw [List.map_append]

theorem store_end (y : List UInt8) : Buffer.store (partly y.length y) y.length [0] = whole y := by
  unfold Buffer.store partly malloc whole
  rw [List.take_left' (List.length_map _), ← List.drop_drop, List.drop_left' (List.length_map _)]
  simp

theorem readString_stands (h : Stands info (.inside bs n y)) :
    Stands (readString info p).2 (if (y ++ p.take (n - y.length)).length = n
      then .between (bs ++ [whole (y ++ p.take (n - y.length))])
      else .inside bs n (y ++ p.take (n - y.length))) := by
  obtain ⟨handler, ptr, left, room, strings⟩ := h
  have le : y.length ≤ n := by
    rcases room with ⟨zero, empty⟩ | lt
    · simp [empty]
    · omega
  have taken : (p.take (n - y.length)).length = min p.length (n - y.length) := by
    rw [List.length_take, Nat.min_comm]
  have same : p.take (min p.length (n - y.length)) = p.take (n - y.length) := by
    rw [Nat.min_comm, ← List.take_eq_take_min]
  have stored : storeLast info.stringptr (p.take (min p.length info.stringleft)) info.tempstrings =
      placed (bs ++ [partly n (y ++ p.take (n - y.length))]) := by
    rw [ptr, left, same, strings, placed_append, storeLast_place, store_partly (by omega),
      placed_append]
  unfold readString
  by_cases full : (y ++ p.take (n - y.length)).length = n
  · have none : info.stringleft - min p.length info.stringleft = 0 := by
      rw [List.length_append] at full
      omega
    simp only [if_pos full, if_pos none]
    refine ⟨rfl, ?_⟩
    have ptr' : info.stringptr + min p.length info.stringleft =
        (y ++ p.take (n - y.length)).length := by
      rw [List.length_append, ptr, left, taken]
    simp only [stored, ptr']
    rw [placed_append, storeLast_place, placed_append, ← store_end]
    congr 3
    exact full.symm
  · have some : ¬ info.stringleft - min p.length info.stringleft = 0 := by
      rw [List.length_append] at full
      omega
    simp only [if_neg full, if_neg some]
    refine ⟨handler, ?_, ?_, ?_, stored⟩
    · rw [List.length_append, ptr, left, taken]
    · show info.stringleft - min p.length info.stringleft = _
      rw [List.length_append, left, taken]
      omega
    · right
      rw [List.length_append] at full ⊢
      omega

theorem foldl_advance_inside (bs : List Buffer) (lt : y.length < n) (le : y.length + p.length ≤ n) (some : p ≠ []) :
    p.foldl advance (.inside bs n y) = if (y ++ p).length = n
      then .between (bs ++ [whole (y ++ p)]) else .inside bs n (y ++ p) := by
  induction p generalizing y with
  | nil => exact absurd rfl some
  | cons c p ih =>
      rw [List.length_cons] at le
      have zero : n ≠ 0 := by omega
      have step : advance (.inside bs n y) c = if y.length + 1 = n
          then .between (bs ++ [whole (y ++ [c])]) else .inside bs n (y ++ [c]) := if_neg zero
      rw [List.foldl_cons, step]
      cases p with
      | nil => simp
      | cons d p =>
          rw [List.length_cons] at le
          have more : ¬ y.length + 1 = n := by omega
          rw [if_neg more, ih (by simp; omega) (by simp; omega) (by simp), List.append_assoc]
          rfl

theorem feed_cons_string {info : ReadInfo} (handler : info.readhandler = .string) (c : UInt8)
    (q : List UInt8) :
    feed info (c :: q) =
      feed (readString info (c :: q)).2 ((c :: q).drop (min (c :: q).length info.stringleft)) := by
  rw [feed]
  split
  · rename_i other
    rw [handler] at other
    exact absurd other (by simp)
  · rename_i other
    rw [handler] at other
    exact absurd other (by simp)
  · rfl

theorem feed_stands {info : ReadInfo} {pos : Position} (h : Stands info pos) (p : List UInt8) :
    Stands (feed info p) (p.foldl advance pos) := by
  induction info, p using feed.induct generalizing pos with
  | case1 info =>
      rw [feed]
      exact h
  | case2 info c q handler ih =>
      rw [feed]
      split
      · refine ih ?_
        cases pos with
        | between bs => exact ⟨rfl, rfl, h.2⟩
        | length bs hi => exact absurd (handler.symm.trans h.1) (by simp)
        | inside bs n y => exact absurd (handler.symm.trans h.1) (by simp)
      · rename_i other
        exact absurd (handler.symm.trans other) (by simp)
      · rename_i other
        exact absurd (handler.symm.trans other) (by simp)
  | case3 info c q handler ih =>
      rw [feed]
      split
      · rename_i other
        exact absurd (handler.symm.trans other) (by simp)
      · refine ih ?_
        cases pos with
        | between bs => exact absurd (handler.symm.trans h.1) (by simp)
        | length bs hi =>
            obtain ⟨string, ptr, left⟩ := readStringlo_rest info c
            refine ⟨string, ptr, ?_, ?_, ?_⟩
            · rw [left, h.2.1]
              rfl
            · simp only [List.length_nil, and_true]
              omega
            · rw [readStringlo_tempstrings, h.2.1, h.2.2, placed_append]
              rfl
        | inside bs n y => exact absurd (handler.symm.trans h.1) (by simp)
      · rename_i other
        exact absurd (handler.symm.trans other) (by simp)
  | case4 info c q handler ih =>
      rw [feed_cons_string handler]
      rw [readString_fst] at ih
      cases pos with
      | between bs => exact absurd (handler.symm.trans h.1) (by simp)
      | length bs hi => exact absurd (handler.symm.trans h.1) (by simp)
      | inside bs n y =>
          have next := ih (readString_stands h)
          have left := h.2.2.1
          rcases h.2.2.2.1 with ⟨rfl, rfl⟩ | lt
          · -- the string was empty: it ends, and the byte is looked at again
            rw [left] at next ⊢
            simpa [advance] using next
          · obtain ⟨k, hk⟩ : ∃ k, k = min (c :: q).length (n - y.length) := ⟨_, rfl⟩
            have taken : (c :: q).take (n - y.length) = (c :: q).take k := by
              rw [hk, Nat.min_comm, ← List.take_eq_take_min]
            have len : ((c :: q).take k).length = k := by
              rw [List.length_take, hk]
              omega
            have pos : 0 < k := by
              rw [hk, List.length_cons]
              omega
            have le : k ≤ n - y.length := by
              rw [hk]
              exact Nat.min_le_right _ _
            have some : (c :: q).take k ≠ [] := by
              intro nil
              rw [nil, List.length_nil] at len
              omega
            have whole := foldl_advance_inside bs lt (by omega) some
            have cut : (c :: q).foldl advance (.inside bs n y) =
                ((c :: q).drop k).foldl advance (((c :: q).take k).foldl advance (.inside bs n y)) := by
              rw [← List.foldl_append, List.take_append_drop]
            rw [left, ← hk] at next ⊢
            rw [cut, whole, ← taken]
            exact next

theorem feed_pieces_stands {info : ReadInfo} {pos : Position} (h : Stands info pos)
    (pieces : List (List UInt8)) :
    Stands (pieces.foldl feed info) (pieces.flatten.foldl advance pos) := by
  induction pieces generalizing info pos with
  | nil => exact h
  | cons p pieces ih =>
      rw [List.foldl_cons, List.flatten_cons, List.foldl_append]
      exact ih (feed_stands h p)

theorem readInit_stands : Stands readInit (.between []) := ⟨rfl, rfl⟩

theorem deliver_pieces (pieces : List (List UInt8)) :
    deliver (pieces.foldl feed readInit) =
      if (pieces.flatten.foldl advance (.between [])).buffers.length = 1 then none
      else some (pairs (pieces.flatten.foldl advance (.between [])).buffers) := by
  have strings := (feed_pieces_stands readInit_stands pieces).tempstrings
  unfold deliver
  rw [strings, placed_pairs]
  by_cases one : (pieces.flatten.foldl advance (.between [])).buffers.length = 1
  · obtain ⟨url, last⟩ := (getLast_placed _).mpr one
    rw [if_pos one, last]
  · rw [if_neg one]
    split
    · rename_i url last
      exact absurd ((getLast_placed _).mp ⟨url, last⟩) one
    · rfl

end Position

/-! ## Streams of whole strings -/

section Whole

def stringBytes (s : List UInt8) : List UInt8 := lengthBytes s.length ++ s

/-- Behind the strings `bs`, the last of which may be empty. -/
def Ready (pos : Position) (bs : List Buffer) : Prop :=
  pos = .between bs ∨ ∃ bs', bs = bs' ++ [whole []] ∧ pos = .inside bs' 0 []

/-- Behind one more string: nothing has ended it yet when it is empty. -/
def behind (bs : List Buffer) (s : List UInt8) : Position :=
  if s = [] then .inside bs 0 [] else .between (bs ++ [whole s])

variable {pos : Position} {bs : List Buffer} {s : List UInt8}

theorem behind_ready (bs : List Buffer) (s : List UInt8) : Ready (behind bs s) (bs ++ [whole s]) := by
  unfold behind
  by_cases empty : s = []
  · rw [if_pos empty, empty]
    exact Or.inr ⟨bs, rfl, rfl⟩
  · rw [if_neg empty]
    exact Or.inl rfl

theorem Ready.advance (h : Ready pos bs) (c : UInt8) : advance pos c = .length bs c := by
  rcases h with rfl | ⟨bs', rfl, rfl⟩
  · rfl
  · rfl

theorem lengthBytes_value {n : Nat} (small : n < 65536) :
    (UInt8.ofNat (n / 256)).toNat * 256 + (UInt8.ofNat (n % 256)).toNat = n := by
  rw [UInt8.toNat_ofNat', UInt8.toNat_ofNat']
  omega

theorem Ready.string (h : Ready pos bs) (small : s.length < 65536) :
    (stringBytes s).foldl Tlspasswordcache.advance pos = behind bs s := by
  have start : (lengthBytes s.length).foldl Tlspasswordcache.advance pos = .inside bs s.length [] := by
    unfold lengthBytes
    rw [List.foldl_cons, List.foldl_cons, List.foldl_nil, h.advance]
    show Position.inside bs _ [] = _
    rw [lengthBytes_value small]
  unfold stringBytes behind
  rw [List.foldl_append, start]
  by_cases empty : s = []
  · rw [if_pos empty, empty]
    rfl
  · have some : 0 < s.length := List.length_pos_iff.mpr empty
    rw [if_neg empty, foldl_advance_inside bs (by simpa using some) (by simp) empty]
    simp

theorem Ready.strings {ss : List (List UInt8)} (h : Ready pos bs)
    (small : ∀ s ∈ ss, s.length < 65536) :
    Ready ((ss.flatMap stringBytes).foldl Tlspasswordcache.advance pos) (bs ++ ss.map whole) := by
  induction ss generalizing pos bs with
  | nil => simpa using h
  | cons s ss ih =>
      rw [List.flatMap_cons, List.foldl_append, h.string (small s List.mem_cons_self), List.map_cons,
        List.append_cons]
      exact ih (behind_ready bs s) fun t mem => small t (List.mem_cons_of_mem _ mem)

end Whole

/-! ## Streams that end early -/

section Short

def streamStrings : List UInt8 → Option (List (List UInt8))
  | [] => some []
  | [_] => none
  | hi :: lo :: rest =>
    if rest.length < hi.toNat * 256 + lo.toNat then none
    else (streamStrings (rest.drop (hi.toNat * 256 + lo.toNat))).map
      (rest.take (hi.toNat * 256 + lo.toNat) :: ·)
  termination_by x => x.length
  decreasing_by
    simp only [List.length_drop, List.length_cons]
    omega

def begun : List UInt8 → Nat
  | [] => 0
  | [_] => 0
  | hi :: lo :: rest => 1 + begun (rest.drop (hi.toNat * 256 + lo.toNat))
  termination_by x => x.length
  decreasing_by
    simp only [List.length_drop, List.length_cons]
    omega

theorem buffers_length (bs : List Buffer) (x : List UInt8) :
    (x.foldl advance (.between bs)).buffers.length = bs.length + begun x := by
  induction x using begun.induct generalizing bs with
  | case1 =>
      rw [begun]
      rfl
  | case2 c =>
      rw [begun]
      rfl
  | case3 hi lo rest ih =>
      obtain ⟨n, hn⟩ : ∃ n, n = hi.toNat * 256 + lo.toNat := ⟨_, rfl⟩
      have start : (hi :: lo :: rest).foldl advance (.between bs) =
          rest.foldl advance (.inside bs n []) := by rw [hn]; rfl
      rw [begun, start, ← hn]
      rw [← hn] at ih
      by_cases zero : n = 0
      · subst zero
        rw [List.drop_zero] at ih ⊢
        cases rest with
        | nil => simp [Position.buffers, begun]
        | cons c rest =>
            have next := ih (bs ++ [whole []])
            rw [List.length_append, List.length_singleton] at next
            rw [← Nat.add_assoc, ← next]
            rfl
      · by_cases short : rest.length < n
        · have ended : rest.drop n = [] := List.drop_eq_nil_of_le (Nat.le_of_lt short)
          have stays : rest.foldl advance (.inside bs n []) = .inside bs n rest := by
            rcases rest with _ | ⟨c, rest⟩
            · rfl
            · rw [foldl_advance_inside bs (by simp; omega) (by simpa using Nat.le_of_lt short) (by simp),
                if_neg (by simpa using Nat.ne_of_lt short)]
              rfl
          rw [stays, ended, begun]
          simp [Position.buffers]
        · have len : (rest.take n).length = n := List.length_take_of_le (by omega)
          have some : rest.take n ≠ [] := by
            intro nil
            rw [nil] at len
            exact zero len.symm
          have past := foldl_advance_inside bs (show [].length < n by simp; omega) (by simp [len]) some
          rw [List.nil_append, if_pos len] at past
          have next := ih (bs ++ [whole (rest.take n)])
          rw [List.length_append, List.length_singleton] at next
          rw [← Nat.add_assoc, ← next, ← past, ← List.foldl_append, List.take_append_drop]

def Incomplete (stream : List UInt8) : Prop :=
  streamStrings stream = none ∨ ∃ ss, streamStrings stream = some ss ∧ ss.length % 2 = 1

/-- A stream is rejected when it has got to the bytes of one string, and not to those of a second. -/
theorem deliver_eq_none_iff (pieces : List (List UInt8)) :
    deliver (pieces.foldl feed readInit) = none ↔ begun pieces.flatten = 1 := by
  have len := buffers_length [] pieces.flatten
  rw [List.length_nil, Nat.zero_add] at len
  rw [deliver_pieces, len]
  by_cases one : begun pieces.flatten = 1
  · rw [if_pos one]
    exact iff_of_true rfl one
  · rw [if_neg one]
    exact iff_of_false (by simp) one

end Short

end Cone.Tlspasswordcache
