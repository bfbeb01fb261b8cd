import Cone.TlscacheRing

/-! # Adding to the ring

How an object finds its place in the ring: the oldest ones go until there is room in front of the
head, or behind the tail. -/
set_option autoImplicit false
namespace Cone.TlscacheRing

open Cone.Lib.ByteFile Cone.Tlscache

section Rooms
variable {r : Ring} {v : Bytes} {file : Bytes}

def Ring.Room (r : Ring) (v : Bytes) : Prop :=
  if r.older = [] then
    HDR + size v ≤ r.head ∨
      2 ≤ r.newer.length ∧ r.head + total r.newer + size v ≤ r.filesize
  else r.first + total r.older + size v ≤ r.head

instance (r : Ring) (v : Bytes) : Decidable (r.Room v) :=
  inferInstanceAs (Decidable (if r.older = [] then HDR + size v ≤ r.head ∨
    2 ≤ r.newer.length ∧ r.head + total r.newer + size v ≤ r.filesize
    else r.first + total r.older + size v ≤ r.head))

theorem room_unwrapped (h : r.older = []) : r.Room v ↔ HDR + size v ≤ r.head ∨
    2 ≤ r.newer.length ∧ r.head + total r.newer + size v ≤ r.filesize := by
  unfold Ring.Room
  rw [if_pos h]

theorem room_wrapped (h : r.older ≠ []) : r.Room v ↔ r.first + total r.older + size v ≤ r.head := by
  unfold Ring.Room
  rw [if_neg h]

def Ring.place (r : Ring) (v : Bytes) : Ring :=
  if r.older = [] ∧ r.head < HDR + size v then
    { r with head := r.filesize - size v, first := r.head, newer := [v], older := r.newer }
  else { r with head := r.head - size v, newer := v :: r.newer }

def Ring.evict (r : Ring) : Ring :=
  match r.older with
  | [] => { r with newer := r.newer.dropLast }
  | [_] => { r with older := [], first := 0 }
  | v :: w :: vs => { r with older := (v :: w :: vs).dropLast }

def Ring.start (r : Ring) (v : Bytes) : Ring :=
  { r with head := r.filesize - size v, newer := [v] }

theorem place_values (r : Ring) (v : Bytes) : (r.place v).values = v :: r.values := by
  rw [Ring.place]
  split
  · next h =>
      rw [Ring.values, Ring.values, h.1, List.append_nil]
      rfl
  · rfl

theorem evict_unwrapped (h : r.older = []) : r.evict = { r with newer := r.newer.dropLast } := by
  rw [Ring.evict, h]

theorem evict_one {x : Bytes} (h : r.older = [x]) :
    r.evict = { r with older := [], first := 0 } := by
  rw [Ring.evict, h]

theorem evict_older {x w : Bytes} {vs : List Bytes} (h : r.older = x :: w :: vs) :
    r.evict = { r with older := (x :: w :: vs).dropLast } := by
  rw [Ring.evict, h]

theorem evict_values (r : Ring) : r.evict.values = r.values.dropLast := by
  rcases hold : r.older with _ | ⟨x, _ | ⟨w, vs⟩⟩
  · rw [evict_unwrapped hold, Ring.values, Ring.values, hold, List.append_nil, List.append_nil]
  · rw [evict_one hold, Ring.values, Ring.values, hold, List.append_nil, List.dropLast_concat]
  · rw [evict_older hold, Ring.values, Ring.values, hold,
      List.dropLast_append_of_ne_nil (List.cons_ne_nil _ _)]

theorem ne_nil_of_two {α : Type} {l : List α} (h : 2 ≤ l.length) : l.dropLast ≠ [] := fun hnil => by
  have hlen := congrArg List.length hnil
  rw [List.length_dropLast, List.length_nil] at hlen
  omega

theorem total_dropLast_le (vs : List Bytes) : total vs.dropLast ≤ total vs := by
  by_cases h : vs = []
  · rw [h]
    exact Nat.le_refl _
  · have hadd := @total_dropLast_add 0 vs h
    omega

theorem evict_newer (ok : r.Ok) (htwo : 2 ≤ r.values.length) : r.evict.newer ≠ [] := by
  rcases hold : r.older with _ | ⟨x, _ | ⟨w, vs⟩⟩
  · rw [Ring.values, hold, List.append_nil] at htwo
    rw [evict_unwrapped hold]
    exact ne_nil_of_two htwo
  · rw [evict_one hold]
    exact (ok.wrapped (by rw [hold]; exact List.cons_ne_nil _ _)).1
  · rw [evict_older hold]
    exact (ok.wrapped (by rw [hold]; exact List.cons_ne_nil _ _)).1

theorem evict_ok (ok : r.Ok) (htwo : 2 ≤ r.values.length) : r.evict.Ok := by
  have hne := evict_newer ok htwo
  rcases hold : r.older with _ | ⟨x, _ | ⟨w, vs⟩⟩
  · rw [evict_unwrapped hold] at hne ⊢
    have hdrop := total_dropLast_le r.newer
    have hend := (ok.unwrapped hold).2
    exact {
      filesize := ok.filesize
      empty := fun hnil => absurd hnil hne
      head := fun _ => ok.head fun hnil => hne (by
        show r.newer.dropLast = []
        rw [hnil, List.dropLast_nil])
      unwrapped := fun _ => ⟨(ok.unwrapped hold).1, by
        show r.head + total r.newer.dropLast ≤ r.filesize
        omega⟩
      wrapped := fun hnot => absurd hold hnot }
  · obtain ⟨_, hend, _⟩ := ok.wrapped (by rw [hold]; exact List.cons_ne_nil _ _)
    rw [evict_one hold] at hne ⊢
    exact {
      filesize := ok.filesize
      empty := fun hnil => absurd hnil hne
      head := ok.head
      unwrapped := fun _ => ⟨rfl, Nat.le_of_eq hend⟩
      wrapped := fun hnot => absurd rfl hnot }
  · obtain ⟨_, hend, hfirst, hgap, hsmall⟩ := ok.wrapped (by rw [hold]; exact List.cons_ne_nil _ _)
    have hdrop := total_dropLast_le (x :: w :: vs)
    rw [evict_older hold] at hne ⊢
    rw [hold] at hgap
    exact {
      filesize := ok.filesize
      empty := fun hnil => absurd hnil hne
      head := ok.head
      unwrapped := fun hnil => absurd hnil (List.cons_ne_nil _ _)
      wrapped := fun _ => ⟨hne, hend, hfirst, by
        show r.first + total (x :: w :: vs).dropLast ≤ r.head
        omega, hsmall⟩ }

theorem Objects.dropLast {pos prev : Nat} {vs : List Bytes} (h : Objects file pos prev vs) :
    Objects file pos prev vs.dropLast := by
  by_cases hne : vs = []
  · rw [hne]
    exact trivial
  · obtain ⟨ws, v, rfl⟩ := (List.eq_nil_or_concat' vs).resolve_left hne
    rw [List.dropLast_concat]
    exact ((objects_append _ _).1 h).1

theorem Holds.evict (h : Holds file r) : Holds file r.evict := by
  rcases hold : r.older with _ | ⟨x, _ | ⟨w, vs⟩⟩
  · rw [evict_unwrapped hold]
    refine ⟨h.length, h.newer.dropLast, ?_⟩
    show Objects file r.first (lastSize 0 r.newer.dropLast) r.older
    rw [hold]
    exact trivial
  · rw [evict_one hold]
    exact ⟨h.length, h.newer, trivial⟩
  · rw [evict_older hold]
    exact ⟨h.length, h.newer, hold ▸ h.older.dropLast⟩

/-- An object pops off the tail when there is one in front of it. -/
theorem pop_eq (h : Holds file r) (ok : r.Ok) (htwo : 2 ≤ r.values.length) :
    pop file r.hdr = some r.evict.hdr := by
  have hhdr : HDR = 32 := rfl
  have hobj : OBJ = 16 := rfl
  have hne : r.newer ≠ [] := fun hnil => by
    rw [Ring.values, hnil, (ok.empty hnil).1] at htwo
    exact absurd htwo (by decide)
  have hhead := ok.head hne
  rw [pop, show r.hdr.tail = r.tail from rfl, h.readobj_tail ok hne rfl, if_pos htwo,
    Option.bind_some]
  rcases hold : r.older with _ | ⟨x, _ | ⟨w, vs⟩⟩
  · have hvalues : r.values = r.newer := by rw [Ring.values, hold, List.append_nil]
    rw [hvalues] at htwo ⊢
    have hadd := @total_dropLast_add 0 r.newer.dropLast (ne_nil_of_two htwo)
    have htail : r.tail = r.head + total r.newer.dropLast := by
      rw [Ring.tail, if_neg hne, if_pos hold]
    have hle : HDR + lastSize 0 r.newer.dropLast ≤ r.tail := by omega
    simp only [if_pos hle]
    rw [evict_unwrapped hold]
    simp only [Ring.hdr, Ring.tail, if_neg hne, if_pos hold, if_neg (ne_nil_of_two htwo)]
    congr 2
    omega
  · obtain ⟨_, hend, hfirst, hgap, hsmall⟩ :=
      ok.wrapped (by rw [hold]; exact List.cons_ne_nil _ _)
    have hadd := @total_dropLast_add 0 r.newer hne
    have hvalues : r.values.dropLast = r.newer := by
      rw [Ring.values, hold, List.dropLast_concat]
    have htail : r.tail = r.first := by
      rw [Ring.tail, if_neg hne, hold, if_neg (List.cons_ne_nil _ _)]
      rfl
    have hnot : ¬ HDR + lastSize 0 r.newer ≤ r.tail := by omega
    have hfirst' : ¬ r.tail ≠ r.hdr.first := fun hne' => hne' htail
    simp only [hvalues, if_neg hnot, if_neg hfirst', Nat.not_lt_zero, if_false]
    rw [evict_one hold]
    simp only [Ring.hdr, Ring.tail, if_neg hne, if_true]
    congr 2
    omega
  · obtain ⟨_, hend, hfirst, hgap, hsmall⟩ :=
      ok.wrapped (by rw [hold]; exact List.cons_ne_nil _ _)
    have hdrop : (x :: w :: vs).dropLast ≠ [] := List.cons_ne_nil _ _
    have hadd := @total_dropLast_add (lastSize 0 r.newer) (x :: w :: vs).dropLast hdrop
    have hvalues : lastSize 0 r.values.dropLast =
        lastSize (lastSize 0 r.newer) (x :: w :: vs).dropLast := by
      rw [Ring.values, hold, List.dropLast_append_of_ne_nil (List.cons_ne_nil _ _),
        lastSize_append]
    have htail : r.tail = r.first + total (x :: w :: vs).dropLast := by
      rw [Ring.tail, if_neg hne, hold, if_neg (List.cons_ne_nil _ _)]
    have hle : HDR + lastSize (lastSize 0 r.newer) (x :: w :: vs).dropLast ≤ r.tail := by omega
    simp only [hvalues, if_pos hle]
    rw [evict_older hold]
    simp only [Ring.hdr, Ring.tail, if_neg hne, hold, if_neg hdrop,
      if_neg (List.cons_ne_nil x (w :: vs))]
    congr 2
    omega

end Rooms

section Placing
variable {r : Ring} {v : Bytes} {file : Bytes}

theorem Room.of_wrap (h : r.Room v) (hwrap : r.older = [] ∧ r.head < HDR + size v) :
    2 ≤ r.newer.length ∧ r.head + total r.newer + size v ≤ r.filesize := by
  exact ((room_unwrapped hwrap.1).1 h).resolve_left (by omega)

theorem place_ok (ok : r.Ok) (hne : r.newer ≠ []) (hroom : r.Room v) : (r.place v).Ok := by
  have hhdr : HDR = 32 := rfl
  have hhead := ok.head hne
  by_cases hwrap : r.older = [] ∧ r.head < HDR + size v
  · have hroom' := Room.of_wrap hroom hwrap
    rw [Ring.place, if_pos hwrap]
    exact {
      filesize := ok.filesize
      empty := fun hnil => absurd hnil (List.cons_ne_nil _ _)
      head := fun _ => by
        show HDR ≤ r.filesize - size v
        omega
      unwrapped := fun hnil => absurd hnil hne
      wrapped := fun _ => by
        refine ⟨List.cons_ne_nil _ _, ?_, hhead, ?_, hwrap.2⟩
        · show r.filesize - size v + total [v] = r.filesize
          rw [total_cons, total_nil]
          omega
        · show r.head + total r.newer ≤ r.filesize - size v
          omega }
  · rw [Ring.place, if_neg hwrap]
    exact {
      filesize := ok.filesize
      empty := fun hnil => absurd hnil (List.cons_ne_nil _ _)
      head := fun _ => by
        show HDR ≤ r.head - size v
        by_cases hold : r.older = []
        · have hfront : ¬ r.head < HDR + size v := fun hlt => hwrap ⟨hold, hlt⟩
          omega
        · obtain ⟨_, _, hfirst, _⟩ := ok.wrapped hold
          have hgap := (room_wrapped hold).1 hroom
          omega
      unwrapped := fun hold => by
        have hend := ok.unwrapped hold
        have hfront : ¬ r.head < HDR + size v := fun hlt => hwrap ⟨hold, hlt⟩
        refine ⟨hend.1, ?_⟩
        show r.head - size v + total (v :: r.newer) ≤ r.filesize
        rw [total_cons]
        omega
      wrapped := fun hold => by
        obtain ⟨_, hend, hfirst, hgap, hsmall⟩ := ok.wrapped hold
        have hgap' := (@room_wrapped r v hold).1 hroom
        refine ⟨List.cons_ne_nil _ _, ?_, hfirst, ?_, ?_⟩
        · show r.head - size v + total (v :: r.newer) = r.filesize
          rw [total_cons]
          omega
        · show r.first + total r.older ≤ r.head - size v
          omega
        · show r.first < HDR + lastSize 0 (v :: r.newer)
          rw [show v :: r.newer = [v] ++ r.newer from rfl, lastSize_append, lastSize_of_ne hne]
          exact hsmall }

theorem findRoom_eq (h : Holds file r) (ok : r.Ok) (hne : r.newer ≠ []) :
    findRoom file r.hdr v.length =
      if r.Room v then some (.place (r.place v).hdr false)
      else if 2 ≤ r.values.length then none else some .corrupt := by
  have hhdr : HDR = 32 := rfl
  have hobj : OBJ = 16 := rfl
  have hsize := size_eq v
  have hb := ok.bounds hne
  have hhead := hb.head
  have hnot : ¬ (r.hdr.head = 0 ∧ r.hdr.tail = 0) := fun hz => by
    have hzero : r.head = 0 := hz.1
    omega
  have htail : r.hdr.tail = r.tail := rfl
  rw [findRoom, if_neg hnot, htail, h.readobj_tail ok hne rfl]
  by_cases hold : r.older = []
  · have hlast := @total_dropLast_add 0 r.newer hne
    have hend := (ok.unwrapped hold).2
    have hvalues : r.values = r.newer := by rw [Ring.values, hold, List.append_nil]
    have htail' : r.tail = r.head + total r.newer.dropLast := by
      rw [Ring.tail, if_neg hne, if_pos hold]
    rw [if_pos (show r.hdr.head ≤ r.tail from htail' ▸ Nat.le_add_right _ _)]
    by_cases hfront : HDR + size v ≤ r.head
    · rw [if_pos (show r.hdr.head ≥ HDR + OBJ + v.length by
        show HDR + OBJ + v.length ≤ r.head
        omega), if_pos ((room_unwrapped hold).2 (Or.inl hfront)), Ring.place,
        if_neg (fun hlt => absurd hlt.2 (by omega))]
      simp only [Ring.hdr, Ring.tail, if_neg hne, if_pos hold, if_neg (List.cons_ne_nil v r.newer),
        List.dropLast_cons_of_ne_nil hne, total_cons]
      congr 3
      omega
    · rw [if_neg (show ¬ r.hdr.head ≥ HDR + OBJ + v.length by
        show ¬ HDR + OBJ + v.length ≤ r.head
        omega), hvalues]
      by_cases htwo : 2 ≤ r.newer.length
      · rw [if_pos htwo]
        by_cases hback : r.head + total r.newer + size v ≤ r.filesize
        · rw [if_pos ((room_unwrapped hold).2 (Or.inr ⟨htwo, hback⟩)), Ring.place,
            if_pos (show r.older = [] ∧ r.head < HDR + size v from ⟨hold, by omega⟩)]
          refine (if_pos (show r.filesize - r.tail - lastSize 0 r.newer ≥ OBJ + v.length by
            omega)).trans ?_
          simp only [Ring.hdr, Ring.tail, if_neg hne, if_pos hold,
            if_neg (List.cons_ne_nil v [])]
          congr 3
          omega
        · rw [if_neg (mt (room_unwrapped hold).1 (by omega)), if_pos htwo]
          exact if_neg (show ¬ r.filesize - r.tail - lastSize 0 r.newer ≥ OBJ + v.length by omega)
      · rw [if_neg htwo, if_neg (mt (room_unwrapped hold).1 (by omega)), if_neg htwo]
  · obtain ⟨_, hend, hfirst, hgap, _⟩ := ok.wrapped hold
    have hlast := @total_dropLast_add (lastSize 0 r.newer) r.older hold
    have hlast' : lastSize 0 r.values = lastSize (lastSize 0 r.newer) r.older :=
      lastSize_append _ _ _
    have htwo : 2 ≤ r.values.length := by
      have h1 := List.length_pos_of_ne_nil hne
      have h2 := List.length_pos_of_ne_nil hold
      rw [Ring.values, List.length_append]
      omega
    have htail' : r.tail = r.first + total r.older.dropLast := by
      rw [Ring.tail, if_neg hne, if_neg hold]
    have hsome := @le_lastSize (lastSize 0 r.newer) r.older hold
    rw [if_neg (show ¬ r.hdr.head ≤ r.tail by show ¬ r.head ≤ r.tail; omega), if_pos htwo,
      if_pos htwo]
    by_cases hroom : r.first + total r.older + size v ≤ r.head
    · rw [if_pos ((room_wrapped hold).2 hroom), Ring.place, if_neg (fun hnil => absurd hnil.1 hold)]
      refine (if_pos (show r.head ≥ r.tail + lastSize 0 r.values + OBJ + v.length by
        omega)).trans ?_
      simp only [Ring.hdr, Ring.tail, if_neg hne, if_neg hold,
        if_neg (List.cons_ne_nil v r.newer)]
      congr 3
    · rw [if_neg (mt (room_wrapped hold).1 hroom)]
      exact if_neg (show ¬ r.head ≥ r.tail + lastSize 0 r.values + OBJ + v.length by omega)

end Placing

section Storing
variable {r : Ring} {v : Bytes} {file : Bytes} {pos : Nat}

theorem length_object (v : Bytes) : (word 0 ++ (word (size v) ++ v)).length = size v := by
  rw [List.length_append, List.length_append, length_word, length_word, size_eq]
  omega

theorem objects_writeAt (fits : pos + size v ≤ file.length) :
    Objects (writeAt file pos (word 0 ++ (word (size v) ++ v))) pos 0 [v] := by
  have hlen := length_object v
  have hread := @readAt_writeAt file (word 0 ++ (word (size v) ++ v)) pos (hlen ▸ fits)
  have hparts : (word 0 ++ (word (size v) ++ v)).length = OBJ + v.length := hlen
  rw [hparts, ← List.append_assoc] at hread
  obtain ⟨hobj, hval⟩ := (readAt_append (by rfl) rfl).1 hread
  rw [List.append_assoc] at hobj hval
  exact ⟨hobj, hval, trivial⟩

theorem place_apart (ok : r.Ok) (hne : r.newer ≠ []) (hroom : r.Room v) :
    HDR ≤ (r.place v).head ∧ (r.place v).head + size v ≤ r.filesize ∧
      (r.head + total r.newer ≤ (r.place v).head ∨ (r.place v).head + size v = r.head) := by
  have hhead := (place_ok ok hne hroom).head
  have hb := (ok.bounds hne).head
  have hhdr : HDR = 32 := rfl
  by_cases hwrap : r.older = [] ∧ r.head < HDR + size v
  · have hroom' := Room.of_wrap hroom hwrap
    rw [Ring.place, if_pos hwrap] at hhead ⊢
    have hle : HDR ≤ r.filesize - size v := hhead (List.cons_ne_nil _ _)
    refine ⟨hle, ?_, Or.inl ?_⟩
    · show r.filesize - size v + size v ≤ r.filesize
      omega
    · show r.head + total r.newer ≤ r.filesize - size v
      omega
  · rw [Ring.place, if_neg hwrap] at hhead ⊢
    have hle : HDR ≤ r.head - size v := hhead (List.cons_ne_nil _ _)
    have hback : r.head - size v + size v = r.head := by omega
    refine ⟨hle, ?_, Or.inr hback⟩
    show r.head - size v + size v ≤ r.filesize
    omega

theorem store_eq (h : Holds file r) (ok : r.Ok) (hne : r.newer ≠ []) (hroom : r.Room v) :
    store file (r.place v).hdr false v =
      writeAt (writeAt file (r.place v).head (word 0 ++ (word (size v) ++ v))) r.head
        (word (size v)) := by
  obtain ⟨_, hfits, hapart⟩ := place_apart ok hne hroom
  have hsize : v.length + OBJ = size v := Nat.add_comm _ _
  have hb := (ok.bounds hne).head
  have hfile := h.length
  have hsome := total_pos hne
  have hlen := length_object v
  have hobj : OBJ = 16 := rfl
  have hsize' := size_eq v
  rw [store, hsize]
  by_cases hwrap : r.older = [] ∧ r.head < HDR + size v
  · have hroom' := Room.of_wrap hroom hwrap
    have hhead : (r.place v).hdr.head = r.filesize - size v := by
      rw [Ring.place, if_pos hwrap]
      rfl
    have hfirst : (r.place v).hdr.first = r.head := by
      rw [Ring.place, if_pos hwrap]
      rfl
    have hsame : (r.place v).hdr.filesize = r.filesize := by
      rw [Ring.place, if_pos hwrap]
      rfl
    rw [if_neg (by rw [hhead, hsame]; omega), if_neg (by decide), hfirst]
    rfl
  · have hhead : (r.place v).hdr.head = r.head - size v := by
      rw [Ring.place, if_neg hwrap]
      rfl
    have hsame : (r.place v).hdr.filesize = r.filesize := by
      rw [Ring.place, if_neg hwrap]
      rfl
    have hplace : (r.place v).head + size v = r.head := by
      rcases hapart with hle | heq
      · have hle' : r.head + total r.newer ≤ (r.place v).hdr.head := hle
        omega
      · exact heq
    have hplace' : (r.place v).hdr.head + size v = r.head := hplace
    have hword := length_word (size v)
    rw [if_pos (by rw [hsame]; omega), writeAt_append, hlen]
    · rw [hplace']
      rfl
    · rw [List.length_append, hlen, hword]
      have hnext := (h.newer.length_le hne)
      omega

theorem Holds.place (h : Holds file r) (ok : r.Ok) (hne : r.newer ≠ []) (hroom : r.Room v) :
    Holds (store file (r.place v).hdr false v) (r.place v) := by
  obtain ⟨_, hfits, hapart⟩ := place_apart ok hne hroom
  have hlen := length_object v
  have hword := length_word (size v)
  have hfile := h.length
  have hsome := total_pos hne
  have hb := (ok.bounds hne).head
  have hend := h.newer.length_le hne
  have hfits' : (r.place v).head + (word 0 ++ (word (size v) ++ v)).length ≤ file.length := by
    omega
  have hlength := length_writeAt hfits'
  have hword' : r.head + (word (size v)).length ≤
      (writeAt file (r.place v).head (word 0 ++ (word (size v) ++ v))).length := by
    omega
  -- The new object, the ones it was put in front of, and the ones at `first`.
  have hnew : Objects (store file (r.place v).hdr false v) (r.place v).head 0 [v] := by
    have htotal : total [v] = size v := by rw [total_cons, total_nil, Nat.add_zero]
    rw [store_eq h ok hne hroom]
    exact (objects_writeAt (by omega)).frame hword' (by omega)
  have hnewer : Objects (store file (r.place v).hdr false v) r.head (size v) r.newer := by
    obtain ⟨w, ws, hws⟩ := List.exists_cons_of_ne_nil hne
    have hkept := h.newer.frame hfits' (by omega)
    rw [store_eq h ok hne hroom]
    rw [hws] at hkept ⊢
    exact hkept.patch _ (by omega)
  have hlength' : (store file (r.place v).hdr false v).length = r.filesize := by
    rw [store_eq h ok hne hroom, length_writeAt hword', hlength, hfile]
  by_cases hwrap : r.older = [] ∧ r.head < HDR + size v
  · have hplace : r.place v =
        { r with
          head := r.filesize - size v, first := r.head, newer := [v], older := r.newer } := by
      rw [Ring.place, if_pos hwrap]
    refine ⟨hlength'.trans (by rw [hplace]), ?_, ?_⟩
    · rw [hplace] at hnew ⊢
      exact hnew
    · rw [hplace] at hnewer ⊢
      exact hnewer
  · have hplace : r.place v = { r with head := r.head - size v, newer := v :: r.newer } := by
      rw [Ring.place, if_neg hwrap]
    have hhead : (r.place v).head = r.head - size v := by rw [hplace]
    have hle := (place_ok ok hne hroom).head (by rw [hplace]; exact List.cons_ne_nil _ _)
    have hhdr : HDR = 32 := rfl
    have hback : (r.place v).head + size v = r.head := by omega
    have hlast : lastSize 0 (v :: r.newer) = lastSize 0 r.newer := by
      rw [show v :: r.newer = [v] ++ r.newer from rfl, lastSize_append, lastSize_of_ne hne]
    refine ⟨hlength'.trans (by rw [hplace]), ?_, ?_⟩
    · have hboth := (objects_append [v] r.newer).2 ⟨hnew, by
        have htotal : total [v] = size v := by rw [total_cons, total_nil, Nat.add_zero]
        rw [htotal, hback]
        exact hnewer⟩
      rw [hplace] at hboth ⊢
      exact hboth
    · have holder : Objects (store file (r.place v).hdr false v) r.first (lastSize 0 r.newer)
          r.older := by
        rw [store_eq h ok hne hroom]
        by_cases hold : r.older = []
        · rw [hold]
          exact trivial
        · have hgap := (room_wrapped hold).1 hroom
          exact (h.older.frame hfits' (by omega)).frame hword' (by omega)
      rw [hplace] at holder ⊢
      rw [hlast]
      exact holder

theorem start_ok (ok : r.Ok) (hnil : r.newer = []) (hfits : HDR + size v ≤ r.filesize) :
    (r.start v).Ok := by
  have hold := (ok.empty hnil).1
  have hsize := size_eq v
  exact {
    filesize := ok.filesize
    empty := fun hnot => absurd hnot (List.cons_ne_nil _ _)
    head := fun _ => by
      show HDR ≤ r.filesize - size v
      omega
    unwrapped := fun _ => ⟨(ok.unwrapped hold).1, by
      show r.filesize - size v + total [v] ≤ r.filesize
      rw [total_cons, total_nil]
      omega⟩
    wrapped := fun hnot => absurd hold hnot }

theorem Holds.start (h : Holds file r) (ok : r.Ok) (hnil : r.newer = [])
    (hfits : HDR + size v ≤ r.filesize) :
    Holds (store file (r.start v).hdr true v) (r.start v) := by
  have hlen := length_object v
  have hfile := h.length
  have hsize : v.length + OBJ = size v := Nat.add_comm _ _
  have hhead : (r.start v).hdr.head = r.filesize - size v := rfl
  have hstore : store file (r.start v).hdr true v =
      writeAt file (r.filesize - size v) (word 0 ++ (word (size v) ++ v)) := by
    have hsame : (r.start v).hdr.filesize = r.filesize := rfl
    rw [store, hsize, if_neg (by rw [hhead, hsame]; omega), if_pos rfl, hhead]
  rw [hstore]
  refine ⟨(length_writeAt (by omega)).trans hfile, objects_writeAt (by omega), ?_⟩
  rw [show (r.start v).older = r.older from rfl, (ok.empty hnil).1]
  exact trivial

end Storing

section Adding
variable {r s : Ring} {v : Bytes} {file : Bytes} {timer : Nat}

def Ring.make : Nat → Ring → Bytes → Option Ring
  | 0, _, _ => none
  | timer + 1, r, v =>
    if r.Room v then some (r.place v)
    else if 2 ≤ r.values.length then Ring.make timer r.evict v
    else none

def Ring.add (r : Ring) (v : Bytes) : Option Ring :=
  if r.newer = [] then some (if HDR + size v ≤ r.filesize then r.start v else r)
  else r.make 100 v

structure Good (file : Bytes) (r : Ring) : Prop where
  ok : r.Ok
  holds : Holds file r
  hdr : readAt file 0 HDR = some r.hdr.bytes

theorem Holds.good (h : Holds file r) (ok : r.Ok) : Good (Tlscache.writehdr file r.hdr) r := by
  have hlen : r.hdr.bytes.length = HDR := rfl
  have hmin := ok.filesize.1
  have hfile := h.length
  have hfits : 0 + r.hdr.bytes.length ≤ file.length := by
    rw [hlen, hfile]
    exact Nat.le_trans (by decide) hmin
  exact ⟨ok, h.writehdr ok _, readAt_writeAt hfits⟩

theorem hdr_ofBytes {h : Hdr} (hfile : h.filesize < 2 ^ 64) (hhead : h.head < 2 ^ 64)
    (htail : h.tail < 2 ^ 64) (hfirst : h.first < 2 ^ 64) : Hdr.ofBytes h.bytes = h := by
  have h8 : h.bytes.drop 8 = word h.head ++ (word h.tail ++ word h.first) :=
    List.drop_left' (length_word _)
  have h16 : h.bytes.drop 16 = word h.tail ++ word h.first := by
    rw [show 16 = 8 + 8 from rfl, ← List.drop_drop, h8]
    exact List.drop_left' (length_word _)
  have h24 : h.bytes.drop 24 = word h.first := by
    rw [show 24 = 16 + 8 from rfl, ← List.drop_drop, h16]
    exact List.drop_left' (length_word _)
  have h0 : h.bytes.take 8 = word h.filesize := List.take_left' (length_word _)
  rw [Hdr.ofBytes, h0, h8, h16, h24, List.take_left' (length_word _),
    List.take_left' (length_word _), List.take_of_length_le (Nat.le_of_eq (length_word _)),
    unword_word hfile, unword_word hhead, unword_word htail, unword_word hfirst]

theorem Ring.Ok.offsets (ok : r.Ok) : r.head < r.filesize ∧ r.tail < r.filesize ∧
    r.first ≤ r.head ∧ r.first ≤ r.tail := by
  by_cases hne : r.newer = []
  · have hmin := ok.filesize.1
    have hhead := (ok.empty hne).2
    have hfirst := (ok.unwrapped (ok.empty hne).1).1
    have htail : r.tail = 0 := by rw [Ring.tail, if_pos hne]
    have hmin' : TLSCACHEMINSIZE = 16384 := rfl
    omega
  · have hb := ok.bounds hne
    have hhead := hb.head
    have hfirst := hb.first
    have htail := hb.tail
    have hvs : r.values ≠ [] := fun hnil => hne (List.append_eq_nil_iff.1 hnil).1
    have hsome := @le_lastSize 0 r.values hvs
    omega

theorem Ring.Ok.sane (ok : r.Ok) : r.hdr.sane = true := by
  obtain ⟨hhead, htail, hfirst, hfirst'⟩ := ok.offsets
  have hsize := ok.filesize
  simp only [Hdr.sane, negative, Ring.hdr, Bool.not_eq_true', Bool.or_eq_false_iff]
  refine ⟨⟨⟨⟨⟨⟨⟨⟨⟨?_, ?_⟩, ?_⟩, ?_⟩, ?_⟩, ?_⟩, ?_⟩, ?_⟩, ?_⟩, ?_⟩ <;>
    exact decide_eq_false (by omega)

theorem Good.readhdr (h : Good file r) : readhdr file = some r.hdr := by
  obtain ⟨hhead, htail, hfirst, _⟩ := h.ok.offsets
  have hsize := h.ok.filesize.2
  have hfile : r.hdr.filesize = r.filesize := rfl
  rw [Tlscache.readhdr, h.hdr, Option.bind_some, hdr_ofBytes, if_pos h.ok.sane]
  · show r.filesize < 2 ^ 64
    omega
  · show r.head < 2 ^ 64
    omega
  · show r.tail < 2 ^ 64
    omega
  · show r.first < 2 ^ 64
    omega

theorem head_ne_tail (ok : r.Ok) (hne : r.newer ≠ []) (htwo : 2 ≤ r.values.length) :
    r.head ≠ r.tail := by
  have hhdr : HDR = 32 := rfl
  by_cases hold : r.older = []
  · rw [Ring.values, hold, List.append_nil] at htwo
    have hsome := total_pos (ne_nil_of_two htwo)
    rw [Ring.tail, if_neg hne, if_pos hold]
    omega
  · obtain ⟨_, _, _, hgap, _⟩ := ok.wrapped hold
    have hlast := @total_dropLast_add (lastSize 0 r.newer) r.older hold
    have hsome := @le_lastSize (lastSize 0 r.newer) r.older hold
    rw [Ring.tail, if_neg hne, if_neg hold]
    omega

/-- One round of the loop. -/
theorem allocate_succ (h : Holds file r) (ok : r.Ok) (hne : r.newer ≠ []) :
    allocate (timer + 1) file r.hdr v.length =
      if r.Room v then (.place (r.place v).hdr false, file)
      else if 2 ≤ r.values.length then
        allocate timer (writehdr file r.evict.hdr) r.evict.hdr v.length
      else (.corrupt, file) := by
  rw [allocate, findRoom_eq h ok hne]
  by_cases hroom : r.Room v
  · rw [if_pos hroom, if_pos hroom]
  · rw [if_neg hroom, if_neg hroom]
    by_cases htwo : 2 ≤ r.values.length
    · rw [if_pos htwo, if_pos htwo]
      refine (if_neg (head_ne_tail ok hne htwo)).trans ?_
      rw [pop_eq h ok htwo]
    · rw [if_neg htwo, if_neg htwo]

theorem allocate_some (h : Holds file r) (ok : r.Ok) (hne : r.newer ≠ [])
    (hmake : r.make timer v = some s) :
    ∃ q after, Ring.Ok q ∧ q.newer ≠ [] ∧ q.Room v ∧ Holds after q ∧ q.place v = s ∧
      allocate timer file r.hdr v.length = (.place s.hdr false, after) := by
  induction timer generalizing r file with
  | zero => cases hmake
  | succ timer ih =>
      rw [allocate_succ h ok hne]
      rw [Ring.make] at hmake
      by_cases hroom : r.Room v
      · rw [if_pos hroom, Option.some.injEq] at hmake
        rw [if_pos hroom, hmake]
        exact ⟨r, file, ok, hne, hroom, h, hmake, rfl⟩
      · rw [if_neg hroom] at hmake ⊢
        by_cases htwo : 2 ≤ r.values.length
        · rw [if_pos htwo] at hmake ⊢
          have ok' := evict_ok ok htwo
          exact ih (h.evict.writehdr ok' _) ok' (evict_newer ok htwo) hmake
        · rw [if_neg htwo] at hmake
          cases hmake

theorem allocate_none (h : Holds file r) (ok : r.Ok) (hne : r.newer ≠ [])
    (hmake : r.make timer v = none) :
    (allocate timer file r.hdr v.length).1 = .corrupt := by
  induction timer generalizing r file with
  | zero => rfl
  | succ timer ih =>
      rw [allocate_succ h ok hne]
      rw [Ring.make] at hmake
      by_cases hroom : r.Room v
      · rw [if_pos hroom] at hmake
        cases hmake
      · rw [if_neg hroom] at hmake ⊢
        by_cases htwo : 2 ≤ r.values.length
        · rw [if_pos htwo] at hmake ⊢
          have ok' := evict_ok ok htwo
          exact ih (h.evict.writehdr ok' _) ok' (evict_newer ok htwo) hmake
        · rw [if_neg htwo]

theorem allocate_empty (ok : r.Ok) (hnil : r.newer = []) :
    allocate 100 file r.hdr v.length =
      if HDR + size v ≤ r.filesize then (.place (r.start v).hdr true, file)
      else (.full, file) := by
  have hhead := (ok.empty hnil).2
  have hfirst := (ok.unwrapped (ok.empty hnil).1).1
  have htail : r.tail = 0 := by rw [Ring.tail, if_pos hnil]
  have hsize := size_eq v
  have hhdr : HDR = 32 := rfl
  have hobj : OBJ = 16 := rfl
  have hfile : r.hdr.filesize = r.filesize := rfl
  rw [allocate, findRoom, if_pos (show r.hdr.head = 0 ∧ r.hdr.tail = 0 from ⟨hhead, htail⟩)]
  by_cases hfits : HDR + size v ≤ r.filesize
  · rw [if_pos hfits, if_neg (by omega)]
    simp only [Ring.hdr, Ring.tail, Ring.start, if_neg (List.cons_ne_nil v []),
      (ok.empty hnil).1, if_pos, List.dropLast_singleton, total_nil]
    congr 3 <;> omega
  · rw [if_neg hfits, if_pos (by omega)]

theorem Good.doadd (h : Good file r) (hadd : r.add v = some s) :
    ∃ after, doadd file v =
      (if r.newer = [] ∧ r.filesize < HDR + size v then .nospace else .stored, after) ∧
        Good after s := by
  rw [Ring.add] at hadd
  rw [Tlscache.doadd, h.readhdr]
  by_cases hnil : r.newer = []
  · rw [if_pos hnil, Option.some.injEq] at hadd
    simp only [allocate_empty h.ok hnil]
    by_cases hfits : HDR + size v ≤ r.filesize
    · rw [if_pos hfits] at hadd ⊢
      rw [if_neg (by omega), ← hadd]
      exact ⟨_, rfl, (h.holds.start h.ok hnil hfits).good (start_ok h.ok hnil hfits)⟩
    · rw [if_neg hfits] at hadd ⊢
      rw [if_pos ⟨hnil, by omega⟩, ← hadd]
      exact ⟨_, rfl, h⟩
  · rw [if_neg hnil] at hadd
    obtain ⟨q, after, ok, hne, hroom, hq, rfl, hallocate⟩ := allocate_some h.holds h.ok hnil hadd
    simp only [hallocate]
    rw [if_neg (fun hand => hnil hand.1)]
    exact ⟨_, rfl, (hq.place ok hne hroom).good (place_ok ok hne hroom)⟩

theorem Good.doadd_corrupt (h : Good file r) (hadd : r.add v = none) :
    (Tlscache.doadd file v).1 = .corrupt := by
  rw [Ring.add] at hadd
  by_cases hnil : r.newer = []
  · rw [if_pos hnil] at hadd
    cases hadd
  · rw [if_neg hnil] at hadd
    have hallocate := allocate_none h.holds h.ok hnil hadd
    rw [Tlscache.doadd, h.readhdr]
    simp only
    generalize allocate 100 file r.hdr v.length = found at hallocate
    obtain ⟨space, after⟩ := found
    obtain rfl : space = .corrupt := hallocate
    rfl

end Adding
end Cone.TlscacheRing
