import Cone.TlspasswordcacheStrings

/-! # Saved passwords are loaded again

The cipher is assumed to be one: decryption of a ciphertext, cut anywhere, undoes the encryption
of a text that was cut anywhere. -/
set_option autoImplicit false
namespace Cone.Tlspasswordcache

/-! ## The cipher -/

section Cipher

def updates {Ctx : Type} (update : Ctx → List UInt8 → Option (List UInt8 × Ctx)) :
    Ctx → List (List UInt8) → Option (List (List UInt8) × Ctx)
  | ctx, [] => some ([], ctx)
  | ctx, p :: ps =>
    match update ctx p with
    | none => none
    | some (out, ctx) => (updates update ctx ps).map fun r => (out :: r.1, r.2)

variable (evp : Evp)

def encrypt (key iv : List UInt8) (ps : List (List UInt8)) : Option (List UInt8) := do
  let ctx ← evp.encryptInit key iv
  let (outs, ctx) ← updates evp.encryptUpdate ctx ps
  let out ← evp.encryptFinal ctx
  return outs.flatten ++ out

def decrypt (key iv : List UInt8) (qs : List (List UInt8)) : Option (List (List UInt8)) := do
  let ctx ← evp.decryptInit key iv
  let (outs, ctx) ← updates evp.decryptUpdate ctx qs
  let out ← evp.decryptFinal ctx
  return outs ++ [out]

/-- The cipher is DES with its padding, as far as it matters. -/
structure Lawful : Prop where
  ivLength : evp.ivLength = 8
  keyLength : evp.keyLength = 8
  encrypts : ∀ key iv ps, key.length = 8 → iv.length = 8 → ∃ c, encrypt evp key iv ps = some c
  grows : ∀ key iv ps c, encrypt evp key iv ps = some c → c.length ≤ ps.flatten.length + 8
  undoes : ∀ key iv ps c qs, encrypt evp key iv ps = some c → qs.flatten = c →
    (decrypt evp key iv qs).map List.flatten = some ps.flatten

variable {evp} in
theorem encrypt_eq_some_iff {key iv : List UInt8} {ps : List (List UInt8)} {c : List UInt8} :
    encrypt evp key iv ps = some c ↔ ∃ ctx outs ctx' last, evp.encryptInit key iv = some ctx ∧
      updates evp.encryptUpdate ctx ps = some (outs, ctx') ∧ evp.encryptFinal ctx' = some last ∧
      outs.flatten ++ last = c := by
  unfold encrypt
  simp only [Option.bind_eq_bind, Option.bind_eq_some_iff, Option.pure_def, Prod.exists,
    Option.some.injEq]
  constructor
  · rintro ⟨ctx, init, outs, ctx', run, last, final, eq⟩
    exact ⟨ctx, outs, ctx', last, init, run, final, eq⟩
  · rintro ⟨ctx, outs, ctx', last, init, run, final, eq⟩
    exact ⟨ctx, init, outs, ctx', run, last, final, eq⟩

variable {evp} in
theorem decrypt_eq_some_iff {key iv : List UInt8} {qs outs : List (List UInt8)} :
    decrypt evp key iv qs = some outs ↔ ∃ ctx outs' ctx' last, evp.decryptInit key iv = some ctx ∧
      updates evp.decryptUpdate ctx qs = some (outs', ctx') ∧ evp.decryptFinal ctx' = some last ∧
      outs' ++ [last] = outs := by
  unfold decrypt
  simp only [Option.bind_eq_bind, Option.bind_eq_some_iff, Option.pure_def, Prod.exists,
    Option.some.injEq]
  constructor
  · rintro ⟨ctx, init, outs', ctx', run, last, final, eq⟩
    exact ⟨ctx, outs', ctx', last, init, run, final, eq⟩
  · rintro ⟨ctx, outs', ctx', last, init, run, final, eq⟩
    exact ⟨ctx, init, outs', ctx', run, last, final, eq⟩

variable {Ctx : Type} {update : Ctx → List UInt8 → Option (List UInt8 × Ctx)}

theorem updates_cons {ctx ctx' : Ctx} {p : List UInt8} {ps outs : List (List UInt8)}
    (h : updates update ctx (p :: ps) = some (outs, ctx')) :
    ∃ out ctx₁ outs', update ctx p = some (out, ctx₁) ∧ updates update ctx₁ ps = some (outs', ctx') ∧
      outs = out :: outs' := by
  rw [updates] at h
  rcases first : update ctx p with _ | ⟨out, ctx₁⟩
  · rw [first] at h
    exact absurd h (by simp)
  · simp only [first, Option.map_eq_some_iff, Prod.mk.injEq] at h
    obtain ⟨⟨outs', ctx₂⟩, rest, rfl, rfl⟩ := h
    exact ⟨out, ctx₁, outs', rfl, rest, rfl⟩

theorem updates_append {ctx ctx' : Ctx} {ps qs outs : List (List UInt8)}
    (h : updates update ctx (ps ++ qs) = some (outs, ctx')) :
    ∃ outs₁ ctx₁ outs₂, updates update ctx ps = some (outs₁, ctx₁) ∧
      updates update ctx₁ qs = some (outs₂, ctx') ∧ outs = outs₁ ++ outs₂ := by
  induction ps generalizing ctx outs with
  | nil => exact ⟨[], ctx, outs, rfl, h, rfl⟩
  | cons p ps ih =>
      rw [List.cons_append] at h
      obtain ⟨out, ctx₁, outs', first, rest, rfl⟩ := updates_cons h
      obtain ⟨outs₁, ctx₂, outs₂, left, right, rfl⟩ := ih rest
      refine ⟨out :: outs₁, ctx₂, outs₂, ?_, right, rfl⟩
      rw [updates, first]
      simp only [left]
      rfl

end Cipher

/-! ## What is written -/

section Save
variable {evp : Evp}

/-- A write callback that takes everything. -/
def append (b w : List UInt8) : Int × List UInt8 := (0, w ++ b)

def pairBytes (pairs : List (List UInt8 × List UInt8)) : List UInt8 :=
  pairs.flatMap fun p => stringBytes p.1 ++ stringBytes p.2

theorem put_append (b w : List UInt8) : put append b w = .ok (w ++ b) := rfl

theorem putUpdate_append {ctx ctx' : evp.Ctx} {b out : List UInt8}
    (h : evp.encryptUpdate ctx b = some (out, ctx')) (w : List UInt8) :
    putUpdate evp append ctx b w = .ok (ctx', w ++ out) := by
  unfold putUpdate
  rw [h]
  by_cases nothing : out = []
  · subst nothing
    simp
  · simp only [if_neg nothing, put_append]

def Updates (evp : Evp) (save : evp.Ctx → List UInt8 → Except (Int × List UInt8) (evp.Ctx × List UInt8))
    (ps : List (List UInt8)) : Prop :=
  ∀ ctx w outs ctx', updates evp.encryptUpdate ctx ps = some (outs, ctx') →
    save ctx w = .ok (ctx', w ++ outs.flatten)

theorem Updates.nil : Updates evp (fun ctx w => .ok (ctx, w)) [] := by
  intro ctx w outs ctx' h
  obtain ⟨rfl, rfl⟩ : [] = outs ∧ ctx = ctx' := by simpa [updates] using h
  simp

/-- One part of a save after the other. -/
theorem Updates.and_then
    {first second both : evp.Ctx → List UInt8 → Except (Int × List UInt8) (evp.Ctx × List UInt8)}
    {ps qs : List (List UInt8)} (h : Updates evp first ps) (h' : Updates evp second qs)
    (step : ∀ ctx w ctx' w', first ctx w = .ok (ctx', w') → both ctx w = second ctx' w') :
    Updates evp both (ps ++ qs) := by
  intro ctx w outs ctx' run
  obtain ⟨outs₁, ctx₁, outs₂, left, right, rfl⟩ := updates_append run
  rw [step ctx w ctx₁ _ (h ctx w outs₁ ctx₁ left), h' ctx₁ _ outs₂ ctx' right,
    List.flatten_append, List.append_assoc]

theorem putUpdate_updates (b : List UInt8) :
    Updates evp (fun ctx => putUpdate evp append ctx b) [b] := by
  intro ctx w outs ctx' run
  obtain ⟨out, ctx₁, outs', first, rest, rfl⟩ := updates_cons run
  obtain ⟨rfl, rfl⟩ : [] = outs' ∧ ctx₁ = ctx' := by simpa [updates] using rest
  show putUpdate evp append ctx b w = _
  rw [putUpdate_append first, List.flatten_cons, List.flatten_nil, List.append_nil]

theorem saveLoop_updates (evp : Evp) (str : List UInt8) :
    ∃ ps, ps.flatten = str ∧ Updates evp (fun ctx => saveLoop evp append ctx str) ps := by
  obtain ⟨n, hn⟩ : ∃ n, n = str.length := ⟨_, rfl⟩
  induction n using Nat.strongRecOn generalizing str with
  | ind n ih =>
      by_cases done : str = []
      · refine ⟨[], done.symm, ?_⟩
        subst done
        have step : (fun ctx => saveLoop evp append ctx []) = fun ctx w => .ok (ctx, w) := by
          funext ctx w
          rw [saveLoop, dif_pos rfl]
        rw [step]
        exact Updates.nil
      · have some : 0 < str.length := List.length_pos_iff.mpr done
        have shorter : (str.drop (BUFSIZ / 4)).length < n := by
          have : 0 < BUFSIZ / 4 := by decide
          rw [hn, List.length_drop]
          omega
        obtain ⟨ps, flat, rest⟩ := ih _ shorter (str.drop (BUFSIZ / 4)) rfl
        refine ⟨str.take (BUFSIZ / 4) :: ps, ?_, ?_⟩
        · rw [List.flatten_cons, flat, List.take_append_drop]
        · refine (putUpdate_updates _).and_then rest fun ctx w ctx' w' eq => ?_
          rw [saveLoop, dif_neg done, eq]

theorem saveString_updates (evp : Evp) {str : List UInt8} (small : str.length < 65536) :
    ∃ ps, ps.flatten = stringBytes str ∧
      Updates evp (fun ctx => saveString evp append ctx str) ps := by
  obtain ⟨ps, flat, loop⟩ := saveLoop_updates evp str
  refine ⟨lengthBytes str.length :: ps, ?_, ?_⟩
  · rw [List.flatten_cons, flat]
    rfl
  · refine (putUpdate_updates _).and_then loop fun ctx w ctx' w' eq => ?_
    rw [saveString, if_neg (by omega), eq]

theorem saveStrings_updates (evp : Evp) {pairs : List (List UInt8 × List UInt8)}
    (small : ∀ p ∈ pairs, p.1.length < 65536 ∧ p.2.length < 65536) :
    ∃ ps, ps.flatten = pairBytes pairs ∧
      Updates evp (fun ctx => saveStrings evp append ctx pairs) ps := by
  induction pairs with
  | nil => exact ⟨[], rfl, Updates.nil⟩
  | cons p pairs ih =>
      obtain ⟨smallurl, smallpwd⟩ := small p List.mem_cons_self
      obtain ⟨us, flatu, url⟩ := saveString_updates evp smallurl
      obtain ⟨vs, flatv, pwd⟩ := saveString_updates evp smallpwd
      obtain ⟨ps, flat, rest⟩ := ih fun q mem => small q (List.mem_cons_of_mem _ mem)
      refine ⟨(us ++ vs) ++ ps, ?_, ?_⟩
      · rw [List.flatten_append, List.flatten_append, flatu, flatv, flat]
        rfl
      · have both : Updates evp (fun ctx w =>
            match saveString evp append ctx p.1 w with
            | .error e => .error e
            | .ok (ctx, w) => saveString evp append ctx p.2 w) (us ++ vs) :=
          url.and_then pwd fun ctx w ctx' w' eq => by simp only [eq]
        refine both.and_then rest fun ctx w ctx' w' eq => ?_
        rw [saveStrings]
        rcases first : saveString evp append ctx p.1 w with e | ⟨ctx₁, w₁⟩
        · rw [first] at eq
          exact absurd eq (by simp)
        · simp only [first] at eq
          simp only [eq]

theorem sealKeys_eq (digest iv1 iv2 : List UInt8) :
    sealKeys evp digest iv1 iv2 =
      encrypt evp (digest.take evp.keyLength) (iv1.take evp.ivLength)
        [digest.drop evp.keyLength, iv2.take (evp.ivLength + evp.keyLength)] := by
  unfold sealKeys encrypt
  rcases evp.encryptInit (digest.take evp.keyLength) (iv1.take evp.ivLength) with _ | ctx
  · rfl
  simp only [Option.bind_eq_bind, Option.bind_some, updates]
  rcases evp.encryptUpdate ctx (digest.drop evp.keyLength) with _ | ⟨out1, ctx⟩
  · rfl
  simp only [Option.bind_some]
  rcases evp.encryptUpdate ctx (iv2.take (evp.ivLength + evp.keyLength)) with _ | ⟨out2, ctx⟩
  · rfl
  simp only [Option.bind_some, Option.map_some]
  rcases evp.encryptFinal ctx with _ | out3
  · rfl
  simp

def fileBytes (iv1 sealed body : List UInt8) : List UInt8 :=
  PASSFILEFORMAT :: lengthBytes sealed.length ++ iv1.take 8 ++ sealed ++ body

theorem save_file (lawful : Lawful evp) {pairs : List (List UInt8 × List UInt8)}
    (small : ∀ p ∈ pairs, p.1.length < 65536 ∧ p.2.length < 65536) (mpw : List UInt8)
    (iv1 iv2 : Vector UInt8 16) :
    ∃ sealed body,
      tlspasswordSave evp append pairs mpw (some (iv1, iv2)) [] =
        (0, fileBytes iv1.toList sealed body) ∧
      encrypt evp ((evp.md5Digest mpw).toList.take 8) (iv1.toList.take 8)
        [(evp.md5Digest mpw).toList.drop 8, iv2.toList] = some sealed ∧
      ∃ ps, ps.flatten = pairBytes pairs ∧
        encrypt evp (iv2.toList.take 8) (iv2.toList.drop 8) ps = some body := by
  have iv1Length : iv1.toList.length = 16 := by simp
  have iv2Length : iv2.toList.length = 16 := by simp
  have digestLength : (evp.md5Digest mpw).toList.length = 16 := by simp
  obtain ⟨sealed, hsealed⟩ := lawful.encrypts ((evp.md5Digest mpw).toList.take 8)
    (iv1.toList.take 8) [(evp.md5Digest mpw).toList.drop 8, iv2.toList]
    (by simp [digestLength]) (by simp [iv1Length])
  obtain ⟨ps, flat, strings⟩ := saveStrings_updates evp small
  obtain ⟨body, hbody⟩ := lawful.encrypts (iv2.toList.take 8) (iv2.toList.drop 8) ps
    (by simp [iv2Length]) (by simp [iv2Length])
  refine ⟨sealed, body, ?_, hsealed, ps, flat, hbody⟩
  have seals : sealKeys evp (evp.md5Digest mpw).toList iv1.toList iv2.toList = some sealed := by
    rw [sealKeys_eq, lawful.keyLength, lawful.ivLength, List.take_of_length_le (l := iv2.toList)
      (by omega)]
    exact hsealed
  have vector : (iv2.toList.drop 8).take 8 = iv2.toList.drop 8 :=
    List.take_of_length_le (by simp [iv2Length])
  obtain ⟨ctx, outs, ctx', last, init, run, final, rfl⟩ := encrypt_eq_some_iff.mp hbody
  have saved := strings ctx (PASSFILEFORMAT :: lengthBytes sealed.length ++ iv1.toList.take 8 ++ sealed)
    outs ctx' run
  unfold tlspasswordSave
  simp only [lawful.keyLength, lawful.ivLength] at seals ⊢
  rw [if_neg (by decide), seals]
  simp only [put_append, Except.bind, bind, List.nil_append, vector, init]
  simp only [saved, final]
  by_cases nothing : last = []
  · subst nothing
    simp [fileBytes]
  · rw [if_neg nothing]
    simp [fileBytes, append]

end Save

/-! ## What is read -/

section Load
variable {evp : Evp}

def sourcePieces : Source → Option (List (List UInt8))
  | [] => some []
  | none :: _ => none
  | some [] :: _ => some []
  | some piece :: source => (sourcePieces source).map (piece :: ·)

def decrypted (evp : Evp) (mpw : List UInt8) (source : Source) : Option (List (List UInt8)) := do
  let (key, iv, buf, source) ← openKeys evp mpw source
  let ps ← sourcePieces (if buf = [] then source else some buf :: source)
  decrypt evp key iv ps

theorem loadLoop_eq (ctx : evp.Ctx) (info : ReadInfo) (source : Source) :
    loadLoop evp ctx info source = (sourcePieces source).bind fun ps =>
      (updates evp.decryptUpdate ctx ps).map fun r => (r.2, r.1.foldl feed info) := by
  induction source using sourcePieces.induct generalizing ctx info with
  | case1 => rfl
  | case2 => rfl
  | case3 => rfl
  | case4 piece source some ih =>
      rw [sourcePieces.eq_4 _ _ some, loadLoop.eq_4 _ _ _ _ _ some]
      unfold loadPiece
      rw [Option.bind_map]
      rcases update : evp.decryptUpdate ctx piece with _ | ⟨out, ctx'⟩
      · rcases sourcePieces source with _ | ps
        · rfl
        · simp [updates, update]
      · simp only [ih]
        rcases sourcePieces source with _ | ps
        · rfl
        · rcases rest : updates evp.decryptUpdate ctx' ps with _ | r
          · simp [updates, update, rest]
          · simp [updates, update, rest]

theorem load_eq (mpw : List UInt8) (source : Source) :
    tlspasswordLoad evp mpw source =
      (decrypted evp mpw source).bind fun outs => deliver (outs.foldl feed readInit) := by
  unfold tlspasswordLoad decrypted
  simp only [Option.bind_eq_bind, Option.bind_assoc]
  congr 1
  funext keys
  obtain ⟨key, iv, buf, source⟩ := keys
  simp only [loadLoop_eq]
  rcases sourcePieces (if buf = [] then source else some buf :: source) with _ | ps
  · rcases evp.decryptInit key iv with _ | ctx
    · rfl
    · rfl
  · unfold decrypt
    rcases evp.decryptInit key iv with _ | ctx
    · rfl
    · simp only [Option.bind_some, Option.bind_eq_bind]
      rcases updates evp.decryptUpdate ctx ps with _ | ⟨outs, ctx'⟩
      · rfl
      · simp only [Option.map_some, Option.bind_some]
        rcases evp.decryptFinal ctx' with _ | out
        · rfl
        · simp only [Option.bind_some, Option.pure_def, List.foldl_concat]

theorem tlspasswordRead_pieces {pieces : List (List UInt8)} {buf : List UInt8}
    (a rest : List UInt8) (nonempty : ∀ p ∈ pieces, p ≠ []) (text : buf ++ pieces.flatten = a ++ rest) :
    ∃ (buf' : List UInt8) (pieces' : List (List UInt8)), tlspasswordRead (pieces.map some) buf a.length =
        some (a, buf', pieces'.map some) ∧
      (∀ p ∈ pieces', p ≠ []) ∧ buf' ++ pieces'.flatten = rest := by
  induction pieces generalizing buf a with
  | nil =>
      rw [List.flatten_nil, List.append_nil] at text
      subst text
      refine ⟨rest, [], ?_, by simp, by simp⟩
      unfold tlspasswordRead
      rw [if_pos (by simp)]
      simp
  | cons p pieces ih =>
      have tail : ∀ q ∈ pieces, q ≠ [] := fun q mem => nonempty q (List.mem_cons_of_mem _ mem)
      by_cases enough : a.length ≤ buf.length
      · refine ⟨buf.drop a.length, p :: pieces, ?_, nonempty, ?_⟩
        · have left := congrArg (List.take a.length) text
          rw [List.take_left' rfl, List.take_append_of_le_length enough] at left
          unfold tlspasswordRead
          rw [if_pos enough, left]
        · have right := congrArg (List.drop a.length) text
          rwa [List.drop_left' rfl, List.drop_append_of_le_length enough] at right
      · have split : a = buf ++ a.drop buf.length := by
          have left := congrArg (List.take buf.length) text
          rw [List.take_left' rfl, List.take_append_of_le_length (by omega)] at left
          exact (List.take_append_drop buf.length a).symm.trans (by rw [← left])
        obtain ⟨c, q, rfl⟩ := List.exists_cons_of_ne_nil (nonempty p List.mem_cons_self)
        have text' : (c :: q) ++ pieces.flatten = a.drop buf.length ++ rest := by
          rw [split, List.append_assoc] at text
          exact List.append_cancel_left text
        obtain ⟨buf', pieces', run, nonempty', text''⟩ := ih _ tail text'
        refine ⟨buf', pieces', ?_, nonempty', text''⟩
        rw [List.length_drop] at run
        rw [List.map_cons]
        unfold tlspasswordRead
        rw [if_neg enough]
        simp only [run]
        rw [← split]

theorem sourcePieces_map {pieces : List (List UInt8)} (nonempty : ∀ p ∈ pieces, p ≠ []) :
    sourcePieces (pieces.map some) = some pieces := by
  induction pieces with
  | nil => rfl
  | cons p pieces ih =>
      rw [List.map_cons, sourcePieces.eq_4 _ _ (nonempty p List.mem_cons_self),
        ih fun q mem => nonempty q (List.mem_cons_of_mem _ mem)]
      rfl

theorem decrypt_single {key iv c p : List UInt8}
    (h : (decrypt evp key iv [c]).map List.flatten = some p) :
    ∃ ctx out ctx' last, evp.decryptInit key iv = some ctx ∧
      evp.decryptUpdate ctx c = some (out, ctx') ∧ evp.decryptFinal ctx' = some last ∧
      out ++ last = p := by
  obtain ⟨outs, all, rfl⟩ := Option.map_eq_some_iff.mp h
  obtain ⟨ctx, outs', ctx', last, init, run, final, rfl⟩ := decrypt_eq_some_iff.mp all
  obtain ⟨out, ctx₁, outs₂, update, rest, rfl⟩ := updates_cons run
  obtain ⟨rfl, rfl⟩ : [] = outs₂ ∧ ctx₁ = ctx' := by simpa [updates] using rest
  exact ⟨ctx, out, ctx₁, last, init, update, final, by simp⟩

theorem openKeys_file (lawful : Lawful evp) {mpw sealed body : List UInt8} {iv1 iv2 : Vector UInt8 16}
    (hsealed : encrypt evp ((evp.md5Digest mpw).toList.take 8) (iv1.toList.take 8)
      [(evp.md5Digest mpw).toList.drop 8, iv2.toList] = some sealed)
    {pieces : List (List UInt8)} (nonempty : ∀ p ∈ pieces, p ≠ [])
    (text : pieces.flatten = fileBytes iv1.toList sealed body) :
    ∃ (buf : List UInt8) (pieces' : List (List UInt8)), openKeys evp mpw (pieces.map some) =
        some (iv2.toList.take 8, iv2.toList.drop 8, buf, pieces'.map some) ∧
      (∀ p ∈ pieces', p ≠ []) ∧ buf ++ pieces'.flatten = body := by
  have iv1Length : iv1.toList.length = 16 := by simp
  have iv2Length : iv2.toList.length = 16 := by simp
  have digestLength : (evp.md5Digest mpw).toList.length = 16 := by simp
  have small : sealed.length ≤ 32 := by
    have := lawful.grows _ _ _ _ hsealed
    simp at this
    omega
  obtain ⟨ctx, out, ctx', last, init, update, final, plain⟩ :=
    decrypt_single (lawful.undoes _ _ _ _ [sealed] hsealed (by simp))
  obtain ⟨buf₁, pieces₁, header, some₁, text₁⟩ := tlspasswordRead_pieces
    (PASSFILEFORMAT :: lengthBytes sealed.length) (iv1.toList.take 8 ++ sealed ++ body)
    nonempty (show [] ++ pieces.flatten = _ by rw [List.nil_append, text]; simp [fileBytes])
  obtain ⟨buf₂, pieces₂, vector, some₂, text₂⟩ := tlspasswordRead_pieces
    (iv1.toList.take 8) (sealed ++ body) some₁ (by rw [text₁]; simp)
  obtain ⟨buf₃, pieces₃, keys, some₃, text₃⟩ := tlspasswordRead_pieces
    sealed body some₂ text₂
  refine ⟨buf₃, pieces₃, ?_, some₃, text₃⟩
  have headerLength : (PASSFILEFORMAT :: lengthBytes sealed.length).length = 3 := rfl
  have vectorLength : (iv1.toList.take 8).length = 8 := by simp
  rw [headerLength] at header
  rw [vectorLength] at vector
  unfold openKeys
  simp only [lawful.keyLength, lawful.ivLength, Option.bind_eq_bind]
  rw [header]
  simp only [Option.bind_some]
  rw [vector]
  simp only [Option.bind_some]
  have length : ((PASSFILEFORMAT :: lengthBytes sealed.length).getD 1 0).toNat * 256 +
      ((PASSFILEFORMAT :: lengthBytes sealed.length).getD 2 0).toNat = sealed.length :=
    lengthBytes_value (by omega)
  rw [length, if_neg (by simp), if_neg (by show ¬ 2048 < _; omega), keys]
  simp only [Option.bind_some]
  rw [init]
  simp only [Option.bind_some]
  rw [update]
  simp only [Option.bind_some]
  rw [final]
  simp only [Option.bind_some, plain]
  have plainLength : [(evp.md5Digest mpw).toList.drop 8, iv2.toList].flatten.length = 24 := by
    simp
  have head : [(evp.md5Digest mpw).toList.drop 8, iv2.toList].flatten.take 8 =
      (evp.md5Digest mpw).toList.drop 8 := by
    rw [List.flatten_cons]
    exact List.take_left' (by simp)
  have tail : [(evp.md5Digest mpw).toList.drop 8, iv2.toList].flatten.drop 8 = iv2.toList := by
    rw [List.flatten_cons, List.drop_left' (by simp)]
    simp
  rw [plainLength, head, tail, if_neg (by simp)]
  simp [List.take_of_length_le]

end Load

/-! ## Save and load -/

section RoundTrip
variable {evp : Evp}

def terminated (pairs : List (List UInt8 × List UInt8)) : List (Buffer × Option Buffer) :=
  pairs.map fun p => (whole p.1, some (whole p.2))

def lastMemory (s : List UInt8) : Buffer := if s = [] then [none] else whole s

theorem lastMemory_eq_whole_iff (s : List UInt8) : lastMemory s = whole s ↔ s ≠ [] := by
  unfold lastMemory
  by_cases empty : s = []
  · subst empty
    simp [whole]
  · simp [empty]

theorem pairs_flatMap (ps : List (List UInt8 × List UInt8)) (bs : List Buffer) :
    pairs (ps.flatMap (fun p => [whole p.1, whole p.2]) ++ bs) = terminated ps ++ pairs bs := by
  induction ps with
  | nil => rfl
  | cons p ps ih =>
      show (whole p.1, some (whole p.2)) ::
        pairs (ps.flatMap (fun p => [whole p.1, whole p.2]) ++ bs) = _
      rw [ih]
      rfl

theorem pairBytes_eq (ps : List (List UInt8 × List UInt8)) :
    pairBytes ps = (ps.flatMap fun p => [p.1, p.2]).flatMap stringBytes := by
  induction ps with
  | nil => rfl
  | cons p ps ih =>
      rw [pairBytes, List.flatMap_cons, ← pairBytes, ih, List.flatMap_cons, List.flatMap_append]
      simp

theorem buffers_behind (bs : List Buffer) (s : List UInt8) :
    (behind bs s).buffers = bs ++ [lastMemory s] := by
  unfold behind lastMemory
  by_cases empty : s = []
  · rw [if_pos empty, if_pos empty]
    rfl
  · rw [if_neg empty, if_neg empty]
    rfl

theorem deliver_pairBytes {outs : List (List UInt8)} (ps : List (List UInt8 × List UInt8))
    (url pwd : List UInt8)
    (small : ∀ p ∈ ps ++ [(url, pwd)], p.1.length < 65536 ∧ p.2.length < 65536)
    (stream : outs.flatten = pairBytes (ps ++ [(url, pwd)])) :
    deliver (outs.foldl feed readInit) =
      some (terminated ps ++ [(whole url, some (lastMemory pwd))]) := by
  have smallStrings : ∀ s ∈ (ps.flatMap fun p => [p.1, p.2]) ++ [url], s.length < 65536 := by
    intro s mem
    rcases List.mem_append.mp mem with mem | mem
    · obtain ⟨p, memp, mem⟩ := List.mem_flatMap.mp mem
      obtain ⟨smallurl, smallpwd⟩ := small p (List.mem_append_left _ memp)
      rcases List.mem_pair.mp mem with rfl | rfl
      · exact smallurl
      · exact smallpwd
    · rw [List.mem_singleton.mp mem]
      exact (small (url, pwd) (by simp)).1
  have split : pairBytes (ps ++ [(url, pwd)]) =
      ((ps.flatMap fun p => [p.1, p.2]) ++ [url]).flatMap stringBytes ++ stringBytes pwd := by
    rw [pairBytes_eq, List.flatMap_append, List.flatMap_append, List.flatMap_append]
    simp
  have ready := Ready.strings (Or.inl rfl : Ready (.between []) []) smallStrings
  have last := (ready.string (small (url, pwd) (by simp)).2)
  rw [deliver_pieces, stream, split, List.foldl_append, last, buffers_behind, if_neg (by simp)]
  have buffers : [] ++ ((ps.flatMap fun p => [p.1, p.2]) ++ [url]).map whole ++ [lastMemory pwd] =
      ps.flatMap (fun p => [whole p.1, whole p.2]) ++ [whole url, lastMemory pwd] := by
    rw [List.nil_append, List.map_append, List.map_flatMap]
    simp
  rw [buffers, pairs_flatMap]
  rfl

theorem decrypted_file (lawful : Lawful evp) {pairs : List (List UInt8 × List UInt8)}
    (small : ∀ p ∈ pairs, p.1.length < 65536 ∧ p.2.length < 65536) (mpw : List UInt8)
    (iv1 iv2 : Vector UInt8 16) :
    ∃ file, tlspasswordSave evp append pairs mpw (some (iv1, iv2)) [] = (0, file) ∧
      ∀ pieces : List (List UInt8), (∀ p ∈ pieces, p ≠ []) → pieces.flatten = file →
        ∃ outs, decrypted evp mpw (pieces.map some) = some outs ∧
          outs.flatten = pairBytes pairs := by
  obtain ⟨sealed, body, save, hsealed, ps, flat, hbody⟩ := save_file lawful small mpw iv1 iv2
  refine ⟨_, save, fun pieces nonempty text => ?_⟩
  obtain ⟨buf, pieces', keys, nonempty', rest⟩ := openKeys_file lawful hsealed nonempty text
  obtain ⟨qs, source, text'⟩ : ∃ qs : List (List UInt8),
      sourcePieces (if buf = [] then pieces'.map some else some buf :: pieces'.map some) = some qs ∧
        qs.flatten = body := by
    by_cases used : buf = []
    · rw [if_pos used]
      exact ⟨pieces', sourcePieces_map nonempty', by rw [← rest, used, List.nil_append]⟩
    · rw [if_neg used]
      refine ⟨buf :: pieces', ?_, rest⟩
      rw [sourcePieces.eq_4 _ _ used, sourcePieces_map nonempty']
      rfl
  obtain ⟨outs, plain, flat'⟩ := Option.map_eq_some_iff.mp (lawful.undoes _ _ _ _ qs hbody text')
  refine ⟨outs, ?_, flat'.trans flat⟩
  unfold decrypted
  rw [keys]
  simp only [Option.bind_eq_bind, Option.bind_some]
  rw [source]
  exact plain

theorem save_load_iff (evp : Evp) (lawful : Lawful evp) :
    (∀ (pairs : List (List UInt8 × List UInt8)) (mpw : List UInt8) (iv1 iv2 : Vector UInt8 16),
      (∀ p ∈ pairs, p.1.length < 65536 ∧ p.2.length < 65536) →
      ∃ file, tlspasswordSave evp append pairs mpw (some (iv1, iv2)) [] = (0, file) ∧
        ∀ pieces : List (List UInt8), (∀ p ∈ pieces, p ≠ []) → pieces.flatten = file →
          (tlspasswordLoad evp mpw (pieces.map some) = some (terminated pairs) ↔
            ∀ last ∈ pairs.getLast?, last.2 ≠ [])) ∧
    (∀ (mpw : List UInt8) (source : Source) (outs : List (List UInt8)),
      decrypted evp mpw source = some outs → Incomplete outs.flatten →
        (tlspasswordLoad evp mpw source = none ↔ begun outs.flatten = 1)) := by
  constructor
  · intro pairs mpw iv1 iv2 small
    obtain ⟨file, save, load⟩ := decrypted_file lawful small mpw iv1 iv2
    refine ⟨file, save, fun pieces nonempty text => ?_⟩
    obtain ⟨outs, plain, stream⟩ := load pieces nonempty text
    rw [load_eq, plain, Option.bind_some]
    rcases List.eq_nil_or_concat pairs with rfl | ⟨ps, ⟨url, pwd⟩, rfl⟩
    · rw [deliver_pieces, stream]
      exact iff_of_true rfl (by simp)
    · rw [List.concat_eq_append] at small stream ⊢
      have all : terminated (ps ++ [(url, pwd)]) =
          terminated ps ++ [(whole url, some (whole pwd))] := List.map_append
      rw [deliver_pairBytes ps url pwd small stream, List.getLast?_concat, all, Option.some.injEq,
        List.append_cancel_left_eq]
      simp [lastMemory_eq_whole_iff]
  · intro mpw source outs plain _
    rw [load_eq, plain, Option.bind_some]
    exact deliver_eq_none_iff outs

end RoundTrip

/-! ## A cipher -/

section Shift

def shiftEvp : Evp where
  Ctx := UInt8
  ivLength := 8
  keyLength := 8
  encryptInit key _ := some (key.headD 0)
  encryptUpdate ctx b := some (b.map (· + ctx), ctx)
  encryptFinal _ := some []
  decryptInit key _ := some (key.headD 0)
  decryptUpdate ctx b := some (b.map (· - ctx), ctx)
  decryptFinal _ := some []
  md5Digest text := Vector.ofFn fun i => text.getD i 0

theorem updates_shift (shift : UInt8 → UInt8 → UInt8) (ctx : UInt8) (ps : List (List UInt8)) :
    updates (fun ctx b => some (b.map (shift ctx), ctx)) ctx ps =
      some (ps.map (List.map (shift ctx)), ctx) := by
  induction ps with
  | nil => rfl
  | cons p ps ih =>
      rw [updates]
      simp only [ih]
      rfl

theorem encrypt_shift (key iv : List UInt8) (ps : List (List UInt8)) :
    encrypt shiftEvp key iv ps = some (ps.flatten.map (· + key.headD 0)) := by
  refine encrypt_eq_some_iff.mpr ⟨_, _, _, [], rfl, updates_shift (fun k c => c + k) _ ps, rfl, ?_⟩
  rw [List.append_nil, List.map_flatten]

theorem shift_lawful : Lawful shiftEvp where
  ivLength := rfl
  keyLength := rfl
  encrypts := fun key iv ps _ _ => ⟨_, encrypt_shift key iv ps⟩
  grows := by
    intro key iv ps c h
    rw [encrypt_shift, Option.some.injEq] at h
    rw [← h, List.length_map]
    omega
  undoes := by
    intro key iv ps c qs h cut
    rw [encrypt_shift, Option.some.injEq] at h
    have run : decrypt shiftEvp key iv qs = some (qs.map (List.map (· - key.headD 0)) ++ [[]]) :=
      decrypt_eq_some_iff.mpr ⟨_, _, _, [], rfl, updates_shift (fun k c => c - k) _ qs, rfl, rfl⟩
    rw [run, Option.map_some, List.flatten_append, ← List.map_flatten, cut, ← h, List.map_map]
    simp [Function.comp_def]

def emptyPasswordFile : List UInt8 :=
  (tlspasswordSave shiftEvp append [([117], [])] [] (some (.replicate 16 1, .replicate 16 2)) []).2

/-- A file with the three strings `u`, `p` and `v`. -/
def threeStringsFile : List UInt8 :=
  fileBytes (List.replicate 16 0) (List.replicate 24 0)
    (stringBytes [117] ++ stringBytes [112] ++ stringBytes [118])

theorem save_load_fails :
    (tlspasswordLoad shiftEvp [] [some emptyPasswordFile] = some [(whole [117], some [none])] ∧
      tlspasswordLoad shiftEvp [] [some emptyPasswordFile] ≠ some (terminated [([117], [])])) ∧
    ((∃ outs, decrypted shiftEvp [] [some threeStringsFile] = some outs ∧ Incomplete outs.flatten) ∧
      tlspasswordLoad shiftEvp [] [some threeStringsFile] ≠ none) := by
  refine ⟨⟨by decide +kernel, by decide +kernel⟩, ⟨[stringBytes [117] ++ stringBytes [112] ++
    stringBytes [118], []], by decide +kernel, ?_⟩, by decide +kernel⟩
  exact Or.inr ⟨[[117], [112], [118]], by decide +kernel, rfl⟩

/-- The theorem at a cipher, with a password that is not empty and a stream of one string. -/
theorem save_load_shift :
    (∃ file, tlspasswordSave shiftEvp append [([117], [112])] [] (some (.replicate 16 1, .replicate 16 2))
        [] = (0, file) ∧ tlspasswordLoad shiftEvp [] [some file] = some (terminated [([117], [112])])) ∧
    (Incomplete (stringBytes [117]) ∧ tlspasswordLoad shiftEvp []
        [some (fileBytes (List.replicate 16 0) (List.replicate 24 0) (stringBytes [117]))] = none) := by
  obtain ⟨pairs, streams⟩ := save_load_iff shiftEvp shift_lawful
  constructor
  · obtain ⟨file, save, load⟩ := pairs [([117], [112])] [] (.replicate 16 1) (.replicate 16 2)
      (by simp)
    refine ⟨file, save, (load [file] ?_ (by simp)).mpr (by simp)⟩
    have some : file ≠ [] := by
      have eq := congrArg Prod.snd save
      intro nil
      rw [nil] at eq
      exact absurd eq (by decide +kernel)
    simpa using some
  · have incomplete : Incomplete (stringBytes [117]) := Or.inr ⟨[[117]], by decide +kernel, rfl⟩
    refine ⟨incomplete, (streams [] _ [stringBytes [117], []] (by decide +kernel) ?_).mpr ?_⟩
    · simpa using incomplete
    · decide +kernel

end Shift

end Cone.Tlspasswordcache
