import Cone.TlscacheAdd

/-! # Walking the ring

A walk visits the values from the newest to the oldest, and its function may change them. -/
set_option autoImplicit false
namespace Cone.TlscacheRing

open Cone.Lib.ByteFile Cone.Tlscache

section Values
variable {A : Type} (walk_func : Walker A)

def walked : List Bytes → A → Int × List Bytes × A
  | [], arg => (0, [], arg)
  | v :: vs, arg =>
    let u := walk_func.visit v arg
    let w := if u.doupdate ∧ u.rc ≥ 0 then u.record else v
    if u.rc ≠ 0 then (if u.rc < 0 then 1 else u.rc, w :: vs, u.arg)
    else
      let rest := walked vs u.arg
      (rest.1, w :: rest.2.1, rest.2.2)

theorem walked_cons_stop {v : Bytes} (vs : List Bytes) {arg : A}
    (h : (walk_func.visit v arg).rc ≠ 0) :
    walked walk_func (v :: vs) arg =
      (if (walk_func.visit v arg).rc < 0 then 1 else (walk_func.visit v arg).rc,
        (if (walk_func.visit v arg).doupdate ∧ (walk_func.visit v arg).rc ≥ 0 then
          (walk_func.visit v arg).record else v) :: vs, (walk_func.visit v arg).arg) := by
  rw [walked, if_pos h]

theorem walked_cons_go {v : Bytes} (vs : List Bytes) {arg : A}
    (h : ¬ (walk_func.visit v arg).rc ≠ 0) :
    walked walk_func (v :: vs) arg =
      ((walked walk_func vs (walk_func.visit v arg).arg).1,
        (if (walk_func.visit v arg).doupdate ∧ (walk_func.visit v arg).rc ≥ 0 then
          (walk_func.visit v arg).record else v) ::
            (walked walk_func vs (walk_func.visit v arg).arg).2.1,
        (walked walk_func vs (walk_func.visit v arg).arg).2.2) := by
  rw [walked, if_neg h]

theorem length_visited (v : Bytes) (arg : A) :
    (if (walk_func.visit v arg).doupdate ∧ (walk_func.visit v arg).rc ≥ 0 then
      (walk_func.visit v arg).record else v).length = v.length := by
  split
  · exact walk_func.in_place v arg
  · rfl

theorem size_visited (v : Bytes) (arg : A) :
    size (if (walk_func.visit v arg).doupdate ∧ (walk_func.visit v arg).rc ≥ 0 then
      (walk_func.visit v arg).record else v) = size v := by
  rw [size_eq, size_eq, length_visited]

theorem walked_sizes (vs : List Bytes) (arg : A) :
    (walked walk_func vs arg).2.1.map size = vs.map size := by
  induction vs generalizing arg with
  | nil => rfl
  | cons v vs ih =>
      by_cases h : (walk_func.visit v arg).rc ≠ 0
      · rw [walked_cons_stop walk_func vs h, List.map_cons, List.map_cons, size_visited]
      · rw [walked_cons_go walk_func vs h, List.map_cons, List.map_cons, size_visited, ih]

theorem result_ne_zero {n : Int} (h : n ≠ 0) : (if n < 0 then 1 else n) ≠ 0 := by
  split
  · exact Int.one_ne_zero
  · exact h

theorem walked_append (vs ws : List Bytes) (arg : A) :
    walked walk_func (vs ++ ws) arg =
      if (walked walk_func vs arg).1 ≠ 0 then
        ((walked walk_func vs arg).1, (walked walk_func vs arg).2.1 ++ ws,
          (walked walk_func vs arg).2.2)
      else
        ((walked walk_func ws (walked walk_func vs arg).2.2).1,
          (walked walk_func vs arg).2.1 ++ (walked walk_func ws (walked walk_func vs arg).2.2).2.1,
          (walked walk_func ws (walked walk_func vs arg).2.2).2.2) := by
  induction vs generalizing arg with
  | nil => rfl
  | cons v vs ih =>
      by_cases h : (walk_func.visit v arg).rc ≠ 0
      · rw [List.cons_append, walked_cons_stop walk_func _ h, walked_cons_stop walk_func _ h,
          if_pos (result_ne_zero h)]
        rfl
      · rw [List.cons_append, walked_cons_go walk_func _ h, walked_cons_go walk_func _ h, ih]
        split <;> rfl

end Values

section Sizes

structure Alike (r s : Ring) : Prop where
  filesize : s.filesize = r.filesize
  head : s.head = r.head
  first : s.first = r.first
  newer : s.newer.map size = r.newer.map size
  older : s.older.map size = r.older.map size

variable {r s : Ring} {vs ws : List Bytes}

theorem total_alike (h : ws.map size = vs.map size) : total ws = total vs := congrArg List.sum h

theorem lastSize_alike (h : ws.map size = vs.map size) (prev : Nat) :
    lastSize prev ws = lastSize prev vs := by
  have hfold (l : List Bytes) : lastSize prev l = (l.map size).foldl (fun _ n => n) prev := by
    rw [lastSize, List.foldl_map]
  rw [hfold, hfold, h]

theorem nil_alike (h : ws.map size = vs.map size) : ws = [] ↔ vs = [] := by
  rw [← List.map_eq_nil_iff (f := size), h, List.map_eq_nil_iff]

theorem dropLast_alike (h : ws.map size = vs.map size) :
    ws.dropLast.map size = vs.dropLast.map size := by
  rw [List.map_dropLast, List.map_dropLast, h]

theorem Alike.ok (h : Alike r s) (ok : r.Ok) : s.Ok where
  filesize := h.filesize ▸ ok.filesize
  empty hnil := by
    obtain ⟨hold, hhead⟩ := ok.empty ((nil_alike h.newer).1 hnil)
    exact ⟨(nil_alike h.older).2 hold, h.head.trans hhead⟩
  head hne := h.head ▸ ok.head (mt (nil_alike h.newer).2 hne)
  unwrapped hnil := by
    obtain ⟨hfirst, hend⟩ := ok.unwrapped ((nil_alike h.older).1 hnil)
    rw [h.first, h.head, h.filesize, total_alike h.newer]
    exact ⟨hfirst, hend⟩
  wrapped hold := by
    obtain ⟨hne, hrest⟩ := ok.wrapped (mt (nil_alike h.older).2 hold)
    rw [h.first, h.head, h.filesize, total_alike h.newer, total_alike h.older,
      lastSize_alike h.newer]
    exact ⟨mt (nil_alike h.newer).1 hne, hrest⟩

theorem Alike.tail (h : Alike r s) : s.tail = r.tail := by
  simp only [Ring.tail, nil_alike h.newer, nil_alike h.older, h.head, h.first,
    total_alike (dropLast_alike h.newer), total_alike (dropLast_alike h.older)]

theorem Alike.hdr (h : Alike r s) : s.hdr = r.hdr := by
  rw [Ring.hdr, Ring.hdr, h.tail, h.filesize, h.head, h.first]

end Sizes

section Loop
variable {A : Type} {file : Bytes} {pos prev : Nat}

theorem Objects.same {after : Bytes} {p q : Nat} {vs : List Bytes} (h : Objects file pos prev vs)
    (same : SameOutside file after p q) (apart : pos + total vs ≤ p ∨ q ≤ pos) :
    Objects after pos prev vs :=
  h.congr same.length fun i hi hi' => same.bytes i (by omega)

theorem Objects.readrec {v : Bytes} {vs : List Bytes} (h : Objects file pos prev (v :: vs))
    {hdr : Hdr} (hend : pos + size v ≤ hdr.filesize) (hword : hdr.filesize < 2 ^ 64) :
    readrec file hdr pos = some (size v, v) := by
  obtain ⟨hobj, hval, _⟩ := h
  have hsize := size_eq v
  have hobj' : OBJ = 16 := rfl
  have hmy : (Obj.ofBytes (word prev ++ word (size v))).my_size = size v := by
    rw [Obj.ofBytes]
    show unword ((word prev ++ word (size v)).drop 8) = size v
    rw [List.drop_left' (length_word prev), unword_word (by omega)]
  rw [Tlscache.readrec, if_neg (by omega), hobj, Option.bind_some]
  simp only [hmy]
  rw [if_neg (by omega), show size v - OBJ = v.length from Nat.add_sub_cancel_left _ _, hval]
  rfl

theorem update_same {u : Visit A} {v : Bytes} (hlen : u.record.length = v.length)
    (hfits : pos + size v ≤ file.length) :
    SameOutside file (update file pos u) pos (pos + size v) := by
  rw [update]
  split
  · have hobj : OBJ = 16 := rfl
    have hsize := size_eq v
    exact (sameOutside_writeAt (by omega)).mono (by omega) (by omega)
  · exact SameOutside.refl

theorem Objects.update {u : Visit A} {v : Bytes} {vs : List Bytes}
    (h : Objects file pos prev (v :: vs)) (hlen : u.record.length = v.length) :
    Objects (update file pos u) pos prev
      ((if u.doupdate ∧ u.rc ≥ 0 then u.record else v) :: vs) := by
  have hend := h.length_le (List.cons_ne_nil v vs)
  rw [total_cons] at hend
  obtain ⟨hobj, hval, hrest⟩ := h
  have hobj' : OBJ = 16 := rfl
  have hsize := size_eq v
  rw [Tlscache.update]
  split
  · have hsize' : size u.record = size v := by rw [size_eq, size_eq, hlen]
    have hfits : pos + OBJ + u.record.length ≤ file.length := by omega
    refine ⟨?_, readAt_writeAt hfits, ?_⟩
    · rw [hsize', readAt_writeAt_of_disjoint hfits (Or.inl (Nat.le_refl _))]
      exact hobj
    · rw [hsize']
      exact hrest.frame hfits (Or.inr (by omega))
  · exact ⟨hobj, hval, hrest⟩

theorem walkLoop_record (walk_func : Walker A) {hdr : Hdr} {record : Bytes} {n : Nat}
    (h : readrec file hdr pos = some (n, record)) (counter : Nat) (arg : A) :
    walkLoop walk_func hdr (counter + 1) file pos arg =
      let u := walk_func.visit record arg
      if u.rc ≠ 0 then (some (if u.rc < 0 then 1 else u.rc), update file pos u, u.arg)
      else if pos = hdr.tail then (some 0, update file pos u, u.arg)
      else
        match next hdr pos n with
        | none => (none, update file pos u, u.arg)
        | some pos' => walkLoop walk_func hdr counter (update file pos u) pos' u.arg := by
  cases hnext : next hdr pos n with
  | none => simp only [walkLoop, h, hnext]
  | some pos' => simp only [walkLoop, h, hnext]

theorem walk_objects (walk_func : Walker A) {hdr : Hdr} (hword : hdr.filesize < 2 ^ 64)
    (counter : Nat) {vs : List Bytes} (h : Objects file pos prev vs) (hne : vs ≠ [])
    (hend : pos + total vs ≤ hdr.filesize)
    (hlast : hdr.tail = pos + total vs.dropLast ∨
      hdr.tail < pos ∧ pos + total vs = hdr.filesize ∧ HDR ≤ hdr.first) (arg : A) :
    ∃ after, Objects after pos prev (walked walk_func vs arg).2.1 ∧
      SameOutside file after pos (pos + total vs) ∧
      walkLoop walk_func hdr (counter + vs.length) file pos arg =
        if (walked walk_func vs arg).1 ≠ 0 ∨ hdr.tail = pos + total vs.dropLast then
          (some (walked walk_func vs arg).1, after, (walked walk_func vs arg).2.2)
        else
          walkLoop walk_func hdr counter after hdr.first (walked walk_func vs arg).2.2 := by
  induction vs generalizing file pos prev arg with
  | nil => exact absurd rfl hne
  | cons v vs ih =>
      have hlen := walk_func.in_place v arg
      have hfile := h.length_le hne
      have hsize := size_eq v
      rw [total_cons] at hend hlast hfile ⊢
      have hsame := @update_same A file pos (walk_func.visit v arg) v hlen (by omega)
      have hupdate := h.update hlen
      rw [List.length_cons, ← Nat.add_assoc counter,
        walkLoop_record walk_func (h.readrec (by omega) hword)]
      simp only
      by_cases hrc : (walk_func.visit v arg).rc ≠ 0
      · rw [if_pos hrc, walked_cons_stop walk_func vs hrc]
        simp only
        exact ⟨_, hupdate, hsame.mono (Nat.le_refl _) (by omega),
          (if_pos (Or.inl (result_ne_zero hrc))).symm⟩
      · rw [if_neg hrc, walked_cons_go walk_func vs hrc]
        simp only
        by_cases hvs : vs = []
        · subst hvs
          simp only [List.dropLast_singleton, total_nil, Nat.add_zero, walked] at hlast ⊢
          by_cases htail : pos = hdr.tail
          · rw [if_pos htail]
            exact ⟨_, hupdate, hsame.mono (Nat.le_refl _) (by omega),
              (if_pos (Or.inr htail.symm)).symm⟩
          · have hat : ¬ (0 ≠ (0 : Int) ∨ hdr.tail = pos) :=
              fun hor => hor.elim (fun hz => hz rfl) fun heq => htail heq.symm
            obtain ⟨_, hfull, hfirst⟩ := hlast.resolve_left fun heq => htail heq.symm
            have hnext : next hdr pos (size v) = some hdr.first := by
              rw [next, if_neg (by omega), if_neg (by omega)]
            rw [if_neg htail, hnext]
            exact ⟨_, hupdate, hsame.mono (Nat.le_refl _) (by omega), (if_neg hat).symm⟩
        · have hsome := total_pos hvs
          rw [List.dropLast_cons_of_ne_nil hvs, total_cons, ← Nat.add_assoc] at hlast
          have htail : pos ≠ hdr.tail := by omega
          have hnext : next hdr pos (size v) = some (pos + size v) := by
            rw [next, if_pos (by omega), if_neg (by omega)]
          have hbehind := hupdate.2.2
          rw [size_visited] at hbehind
          obtain ⟨after, hafter, hsame', hloop⟩ := ih hbehind hvs (by omega) (by omega)
            (walk_func.visit v arg).arg
          rw [if_neg htail, hnext]
          simp only
          rw [hloop, List.dropLast_cons_of_ne_nil hvs, total_cons,
            ← Nat.add_assoc pos (size v) (total vs.dropLast)]
          refine ⟨after, ?_, (hsame.mono (Nat.le_refl _) (by omega)).trans
            (hsame'.mono (by omega) (by omega)), rfl⟩
          have hone := ((objects_append [_] vs).1 hupdate).1
          refine (objects_append [_] _).2 ⟨hone.same hsame' (Or.inl ?_), ?_⟩
          · rw [total_cons, total_nil, size_visited, Nat.add_zero]
          · rw [total_cons, total_nil, size_visited, Nat.add_zero]
            show Objects after (pos + size v) (size _) _
            rw [size_visited]
            exact hafter

def Ring.walk {A : Type} (r : Ring) (walk_func : Walker A) (arg : A) : Ring :=
  { r with
    newer := (walked walk_func r.newer arg).2.1
    older :=
      if (walked walk_func r.newer arg).1 ≠ 0 then r.older
      else (walked walk_func r.older (walked walk_func r.newer arg).2.2).2.1 }

variable {r : Ring}

theorem walk_values (r : Ring) (walk_func : Walker A) (arg : A) :
    (r.walk walk_func arg).values = (walked walk_func r.values arg).2.1 := by
  rw [Ring.values, Ring.values, walked_append, Ring.walk]
  by_cases h : (walked walk_func r.newer arg).1 ≠ 0
  · simp only [if_pos h]
  · simp only [if_neg h]

theorem walk_alike (r : Ring) (walk_func : Walker A) (arg : A) :
    Alike r (r.walk walk_func arg) where
  filesize := rfl
  head := rfl
  first := rfl
  newer := walked_sizes walk_func _ _
  older := by
    rw [Ring.walk]
    simp only
    split
    · rfl
    · exact walked_sizes walk_func _ _

theorem Good.dowalk (h : Good file r) (walk_func : Walker A) (arg : A) :
    ∃ after, dowalk walk_func file arg =
      (some (walked walk_func r.values arg).1, after, (walked walk_func r.values arg).2.2) ∧
        Good after (r.walk walk_func arg) := by
  rw [Tlscache.dowalk, h.readhdr]
  simp only
  have halike := walk_alike r walk_func arg
  have ok' := halike.ok h.ok
  have hhdr : HDR = 32 := rfl
  have hobj : OBJ = 16 := rfl
  by_cases hne : r.newer = []
  · have hempty := h.ok.empty hne
    have htail : r.tail = 0 := by rw [Ring.tail, if_pos hne]
    have hvalues : r.values = [] := by rw [Ring.values, hne, hempty.1]; rfl
    rw [if_pos (show r.hdr.head = 0 ∧ r.hdr.tail = 0 from ⟨hempty.2, htail⟩), hvalues]
    refine ⟨file, rfl, ok', ⟨h.holds.length, ?_, ?_⟩, halike.hdr ▸ h.hdr⟩
    · rw [(nil_alike halike.newer).2 hne]
      exact trivial
    · rw [(nil_alike halike.older).2 hempty.1]
      exact trivial
  · have hb := h.ok.bounds hne
    have hhead := hb.head
    have htotal := hb.total
    have hcount := length_le_total r.values
    have hfile := h.holds.length
    have hsize := h.ok.filesize.2
    have hword : r.hdr.filesize < 2 ^ 64 := by
      show r.filesize < 2 ^ 64
      omega
    have hlength : r.values.length = r.newer.length + r.older.length := List.length_append
    have hvalues : total r.values = total r.newer + total r.older := total_append _ _
    have hcounter : r.hdr.filesize / OBJ =
        (r.filesize / 16 - r.values.length) + r.older.length + r.newer.length := by
      show r.filesize / 16 = _
      omega
    rw [if_neg (show ¬ (r.hdr.head = 0 ∧ r.hdr.tail = 0) from fun hz => by
      have hzero : r.head = 0 := hz.1
      omega), hcounter]
    by_cases hold : r.older = []
    · have htail : r.hdr.tail = r.head + total r.newer.dropLast := by
        show r.tail = r.head + total r.newer.dropLast
        rw [Ring.tail, if_neg hne, if_pos hold]
      obtain ⟨after, hafter, hsame, hloop⟩ := walk_objects walk_func hword
        (r.filesize / 16 - r.values.length + r.older.length) h.holds.newer
        hne (h.ok.unwrapped hold).2 (Or.inl htail) arg
      have hnewer : r.values = r.newer := by rw [Ring.values, hold, List.append_nil]
      rw [if_pos (Or.inr htail)] at hloop
      rw [hnewer]
      rw [hnewer] at hloop
      refine ⟨after, hloop, ok', ⟨hsame.length.trans hfile, hafter, ?_⟩, ?_⟩
      · rw [(nil_alike halike.older).2 hold]
        exact trivial
      · rw [halike.hdr, hsame.readAt (Or.inl (by omega))]
        exact h.hdr
    · obtain ⟨_, hend, hfirst, hgap, _⟩ := h.ok.wrapped hold
      have hlast := @total_dropLast_add (lastSize 0 r.newer) r.older hold
      have hsome := @le_lastSize (lastSize 0 r.newer) r.older hold
      have htail : r.hdr.tail = r.first + total r.older.dropLast := by
        show r.tail = r.first + total r.older.dropLast
        rw [Ring.tail, if_neg hne, if_neg hold]
      have htail' : r.hdr.tail < r.head := by
        rw [htail]
        show r.first + total r.older.dropLast < r.head
        omega
      obtain ⟨after, hafter, hsame, hloop⟩ := walk_objects walk_func hword
        (r.filesize / 16 - r.values.length + r.older.length) h.holds.newer
        hne (Nat.le_of_eq hend) (Or.inr ⟨htail', hend, hfirst⟩) arg
      have hlast' : lastSize 0 (walked walk_func r.newer arg).2.1 = lastSize 0 r.newer :=
        lastSize_alike (walked_sizes walk_func _ _) 0
      have holder := h.holds.older.same hsame (Or.inl hgap)
      have hhdr' : readAt after 0 HDR = some r.hdr.bytes := by
        rw [hsame.readAt (Or.inl (by omega))]
        exact h.hdr
      rw [show r.hdr.head = r.head from rfl, hloop]
      have hvs : walked walk_func r.values arg = walked walk_func (r.newer ++ r.older) arg := rfl
      rw [hvs, walked_append]
      by_cases hrc : (walked walk_func r.newer arg).1 ≠ 0
      · rw [if_pos (Or.inl hrc), if_pos hrc]
        refine ⟨after, rfl, ok', ⟨hsame.length.trans hfile, hafter, ?_⟩, ?_⟩
        · show Objects after r.first (lastSize 0 (walked walk_func r.newer arg).2.1)
            (if _ then _ else _)
          rw [if_pos hrc, hlast']
          exact holder
        · rw [halike.hdr]
          exact hhdr'
      · rw [if_neg (fun hor => hor.elim hrc (by omega)), if_neg hrc]
        obtain ⟨final, hfinal, hsame', hloop'⟩ := walk_objects walk_func hword
          (r.filesize / 16 - r.values.length) holder hold
          (show r.first + total r.older ≤ r.filesize by omega) (Or.inl htail)
          (walked walk_func r.newer arg).2.2
        rw [if_pos (Or.inr htail)] at hloop'
        refine ⟨final, hloop', ok', ⟨hsame'.length.trans (hsame.length.trans hfile), ?_, ?_⟩, ?_⟩
        · have htotal' := total_alike (walked_sizes walk_func r.newer arg)
          exact hafter.same hsame' (Or.inr (by omega))
        · show Objects final r.first (lastSize 0 (walked walk_func r.newer arg).2.1)
            (if _ then _ else _)
          rw [if_neg hrc, hlast']
          exact hfinal
        · rw [halike.hdr, hsame'.readAt (Or.inl hfirst)]
          exact hhdr'

end Loop
end Cone.TlscacheRing
