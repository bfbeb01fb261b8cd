import Mathlib
import Cone.Ctype

/-! # The cipher functions over libgcrypt

`EVP_EncryptUpdate`, `EVP_EncryptFinal_ex`, `EVP_DecryptUpdate` and `EVP_DecryptFinal_ex` of
`tlspasswordcache.c`.  The cipher itself is the library's, a parameter here. -/
set_option autoImplicit false
namespace Cone.TlspasswordcacheEvp

/-- `gcry_cipher_encrypt` and `gcry_cipher_decrypt` on their handles; none is an error. -/
structure Gcry (E D : Type) where
  blksize : Nat
  encrypt : E → List UInt8 → Option (List UInt8 × E)
  decrypt : D → List UInt8 → Option (List UInt8 × D)

/-- `EVP_CIPHER_CTX`; of `blkbuf` the bytes before `blkptr`. -/
structure Ctx (S : Type) where
  handle : S
  blkbuf : List UInt8
  padding : Bool

section Code
variable {E D : Type} (g : Gcry E D)

/-- `EVP_EncryptInit_ex`, where the library opened `handle`. -/
def init {S : Type} (handle : S) : Ctx S := ⟨handle, [], true⟩

/-- The loop of `EVP_EncryptUpdate`: the output, and the context. -/
def encryptLoop : Nat → Ctx E → List UInt8 → Option (List UInt8 × Ctx E)
  | _, ctx, [] => some ([], ctx)
  | 0, _, _ :: _ => none
  | fuel + 1, ctx, inp =>
    if ctx.blkbuf.length = 0 ∧ inp.length > g.blksize * 2 then do
      let cp := (inp.length / g.blksize - 1) * g.blksize
      let (out, handle) ← g.encrypt ctx.handle (inp.take cp)
      let (later, ctx) ← encryptLoop fuel { ctx with handle := handle } (inp.drop cp)
      return (out ++ later, ctx)
    else
      let cp := min inp.length (g.blksize - ctx.blkbuf.length)
      let blkbuf := ctx.blkbuf ++ inp.take cp
      if blkbuf.length = g.blksize then do
        let (out, handle) ← g.encrypt ctx.handle blkbuf
        let (later, ctx) ← encryptLoop fuel { ctx with handle := handle, blkbuf := [] }
          (inp.drop cp)
        return (out ++ later, ctx)
      else encryptLoop fuel { ctx with blkbuf := blkbuf } (inp.drop cp)

def encryptUpdate (ctx : Ctx E) (inp : List UInt8) : Option (List UInt8 × Ctx E) :=
  encryptLoop g inp.length ctx inp

/-- `do ... while (ctx->blkptr)`, one byte at a time. -/
def padLoop (pad : UInt8) : Nat → Ctx E → Option (List UInt8 × Ctx E)
  | 0, _ => none
  | fuel + 1, ctx => do
    let (out, ctx) ← encryptUpdate g ctx [pad]
    if ctx.blkbuf.length = 0 then return (out, ctx)
    else
      let (later, ctx) ← padLoop pad fuel ctx
      return (out ++ later, ctx)

def encryptFinal (ctx : Ctx E) : Option (List UInt8) :=
  if ctx.padding then
    let pad := UInt8.ofNat (g.blksize - ctx.blkbuf.length)
    let pad := if pad = 0 then UInt8.ofNat g.blksize else pad
    (padLoop g pad g.blksize ctx).map Prod.fst
  else if g.blksize ≠ ctx.blkbuf.length then none
  else some []

/-- The block that was held back, when it is not the last. -/
def flush (ctx : Ctx D) : Option (List UInt8 × Ctx D) :=
  if ctx.blkbuf.length = g.blksize then
    (g.decrypt ctx.handle ctx.blkbuf).map fun r => (r.1, { ctx with handle := r.2, blkbuf := [] })
  else some ([], ctx)

/-- The loop of `EVP_DecryptUpdate`. -/
def decryptLoop : Nat → Ctx D → List UInt8 → Option (List UInt8 × Ctx D)
  | _, ctx, [] => some ([], ctx)
  | 0, _, _ :: _ => none
  | fuel + 1, ctx, inp =>
    if ctx.blkbuf.length = 0 ∧ inp.length > g.blksize * 3 then do
      let cp := (inp.length / g.blksize - 2) * g.blksize
      let (out, handle) ← g.decrypt ctx.handle (inp.take cp)
      let (later, ctx) ← decryptLoop fuel { ctx with handle := handle } (inp.drop cp)
      return (out ++ later, ctx)
    else do
      let (out, ctx) ← flush g ctx
      let cp := min inp.length (g.blksize - ctx.blkbuf.length)
      let (later, ctx) ← decryptLoop fuel { ctx with blkbuf := ctx.blkbuf ++ inp.take cp }
        (inp.drop cp)
      return (out ++ later, ctx)

def decryptUpdate (ctx : Ctx D) (inp : List UInt8) : Option (List UInt8 × Ctx D) :=
  decryptLoop g inp.length ctx inp

def decryptFinal (ctx : Ctx D) : Option (List UInt8) :=
  if ctx.blkbuf.length ≠ g.blksize then none
  else do
    let (blkbuf, _) ← g.decrypt ctx.handle ctx.blkbuf
    if ctx.padding then
      let lastval := blkbuf.getLast?.getD 0
      if 0 < lastval ∧ lastval.toNat ≤ g.blksize ∧
          ∀ c ∈ blkbuf.drop (g.blksize - lastval.toNat), c = lastval then
        return blkbuf.take (g.blksize - lastval.toNat)
      else none
    else return blkbuf

def calls {S : Type} (update : Ctx S → List UInt8 → Option (List UInt8 × Ctx S)) :
    Ctx S → List (List UInt8) → Option (List (List UInt8) × Ctx S)
  | ctx, [] => some ([], ctx)
  | ctx, piece :: pieces => do
    let (out, ctx) ← update ctx piece
    let (outs, ctx) ← calls update ctx pieces
    return (out :: outs, ctx)

end Code

/-! ## What is relied on -/

section Library
variable {E D : Type}

def Whole (blksize : Nat) (p : List UInt8) : Prop := blksize ∣ p.length

structure Blocks {S : Type} (f : S → List UInt8 → Option (List UInt8 × S)) (blksize : Nat) :
    Prop where
  gives : ∀ s p, Whole blksize p → ∃ c s', f s p = some (c, s') ∧ c.length = p.length
  parts : ∀ s p q c s' c' s'', Whole blksize p → Whole blksize q → f s p = some (c, s') →
    f s' q = some (c', s'') → f s (p ++ q) = some (c ++ c', s'')

structure Chains (g : Gcry E D) (Paired : E → D → Prop) : Prop where
  encrypts : Blocks g.encrypt g.blksize
  decrypts : Blocks g.decrypt g.blksize
  inverse : ∀ e d p c e', Paired e d → Whole g.blksize p → g.encrypt e p = some (c, e') →
    ∃ d', g.decrypt d c = some (p, d') ∧ Paired e' d'

end Library

/-! ## What the calls do together -/

section Feeding
variable {S : Type} {f : S → List UInt8 → Option (List UInt8 × S)} {blksize : Nat}

def Gives (f : S → List UInt8 → Option (List UInt8 × S)) (blksize : Nat) (s : S)
    (p c : List UInt8) (s' : S) : Prop :=
  if p = [] then c = [] ∧ s' = s else Whole blksize p ∧ f s p = some (c, s')

theorem Gives.nil (s : S) : Gives f blksize s [] [] s := by
  rw [Gives, if_pos rfl]
  exact ⟨rfl, rfl⟩

theorem Gives.whole {s s' : S} {p c : List UInt8} (h : Gives f blksize s p c s') :
    Whole blksize p := by
  rw [Gives] at h
  split at h
  · rename_i none'
    rw [none']
    exact Nat.dvd_zero blksize
  · exact h.1

theorem Gives.of_eq {s s' : S} {p c : List UInt8} (whole : Whole blksize p) (some' : p ≠ [])
    (h : f s p = some (c, s')) : Gives f blksize s p c s' := by
  rw [Gives, if_neg some']
  exact ⟨whole, h⟩

theorem Gives.trans (blocks : Blocks f blksize) {s s' s'' : S} {p q c c' : List UInt8}
    (first : Gives f blksize s p c s') (then' : Gives f blksize s' q c' s'') :
    Gives f blksize s (p ++ q) (c ++ c') s'' := by
  by_cases none' : p = []
  · rw [Gives, if_pos none'] at first
    rw [none', first.1, ← first.2]
    exact then'
  · by_cases none'' : q = []
    · rw [Gives, if_pos none''] at then'
      rw [none'', then'.1, then'.2, List.append_nil, List.append_nil]
      exact first
    · have wholes := first.whole
      have wholes' := then'.whole
      rw [Gives, if_neg none'] at first
      rw [Gives, if_neg none''] at then'
      refine Gives.of_eq ?_ (fun none => none' (List.append_eq_nil_iff.mp none).1)
        (blocks.parts s p q c s' c' s'' wholes wholes' first.2 then'.2)
      rw [Whole, List.length_append]
      exact Nat.dvd_add wholes wholes'

theorem Gives.length (blocks : Blocks f blksize) {s s' : S} {p c : List UInt8}
    (h : Gives f blksize s p c s') : c.length = p.length := by
  rw [Gives] at h
  split at h
  · rename_i none'
    rw [none', h.1]
  · obtain ⟨c', s'', same, length⟩ := blocks.gives s p h.1
    rw [h.2] at same
    cases same
    exact length

/-- The bytes that were buffered and `inp` are what the library got, and what is buffered then. -/
structure Fed (f : S → List UInt8 → Option (List UInt8 × S)) (blksize : Nat) (ctx : Ctx S)
    (inp out : List UInt8) (ctx' : Ctx S) : Prop where
  padding : ctx'.padding = ctx.padding
  given : ∃ p, ctx.blkbuf ++ inp = p ++ ctx'.blkbuf ∧ Gives f blksize ctx.handle p out ctx'.handle

theorem Fed.refl (ctx : Ctx S) : Fed f blksize ctx [] [] ctx :=
  ⟨rfl, [], by simp, Gives.nil _⟩

theorem Fed.trans (blocks : Blocks f blksize) {ctx ctx' ctx'' : Ctx S}
    {inp inp' out out' : List UInt8} (first : Fed f blksize ctx inp out ctx')
    (then' : Fed f blksize ctx' inp' out' ctx'') :
    Fed f blksize ctx (inp ++ inp') (out ++ out') ctx'' := by
  obtain ⟨padding, p, all, gives⟩ := first
  obtain ⟨padding', p', all', gives'⟩ := then'
  refine ⟨padding'.trans padding, p ++ p', ?_, gives.trans blocks gives'⟩
  rw [← List.append_assoc, all, List.append_assoc, all', List.append_assoc]

theorem Fed.step (blocks : Blocks f blksize) {ctx ctx' ctx'' : Ctx S} {inp out out' : List UInt8}
    (n : Nat) (first : Fed f blksize ctx (inp.take n) out ctx')
    (then' : Fed f blksize ctx' (inp.drop n) out' ctx'') :
    Fed f blksize ctx inp (out ++ out') ctx'' := by
  have both := first.trans blocks then'
  rwa [List.take_append_drop] at both

theorem Fed.length (blocks : Blocks f blksize) {ctx ctx' : Ctx S} {inp out : List UInt8}
    (h : Fed f blksize ctx inp out ctx') :
    out.length + ctx'.blkbuf.length = ctx.blkbuf.length + inp.length := by
  obtain ⟨-, p, all, gives⟩ := h
  rw [gives.length blocks, ← List.length_append, ← List.length_append, all]

theorem Fed.rest (blocks : Blocks f blksize) {ctx ctx' : Ctx S} {inp out : List UInt8}
    (h : Fed f blksize ctx inp out ctx') :
    ctx'.blkbuf.length % blksize = (ctx.blkbuf.length + inp.length) % blksize := by
  have length := h.length blocks
  obtain ⟨-, p, all, gives⟩ := h
  obtain ⟨k, hk⟩ := gives.whole
  rw [← length, gives.length blocks, hk, Nat.mul_add_mod]

def Works (f : S → List UInt8 → Option (List UInt8 × S)) (blksize max : Nat) (held : Prop)
    (update : Ctx S → List UInt8 → Option (List UInt8 × Ctx S)) : Prop :=
  ∀ ctx inp, ctx.blkbuf.length ≤ max → ∃ out ctx', update ctx inp = some (out, ctx') ∧
    Fed f blksize ctx inp out ctx' ∧ ctx'.blkbuf.length ≤ max ∧
      (held → 0 < ctx.blkbuf.length + inp.length → 0 < ctx'.blkbuf.length)

theorem calls_fed (blocks : Blocks f blksize) {max : Nat} {held : Prop} (fits : max ≤ blksize)
    {update : Ctx S → List UInt8 → Option (List UInt8 × Ctx S)}
    (works : Works f blksize max held update) (pieces : List (List UInt8)) (ctx : Ctx S)
    (below : ctx.blkbuf.length ≤ max) :
    ∃ outs ctx', calls update ctx pieces = some (outs, ctx') ∧
      Fed f blksize ctx pieces.flatten outs.flatten ctx' ∧ ctx'.blkbuf.length ≤ max ∧
      (held → 0 < ctx.blkbuf.length + pieces.flatten.length → 0 < ctx'.blkbuf.length) ∧
      List.Forall₂ (fun piece out => out.length ≤ piece.length + blksize) pieces outs := by
  induction pieces generalizing ctx with
  | nil => exact ⟨[], ctx, rfl, Fed.refl ctx, below, by simp, .nil⟩
  | cons piece pieces ih =>
      obtain ⟨out, ctx', call, fed, below', keeps⟩ := works ctx piece below
      obtain ⟨outs, ctx'', calls', fed', below'', keeps', bounds⟩ := ih ctx' below'
      have length := fed.length blocks
      refine ⟨out :: outs, ctx'', ?_, fed.trans blocks fed', below'', ?_,
        .cons (by omega) bounds⟩
      · simp [calls, call, calls']
      · intro h more
        rw [List.flatten_cons, List.length_append] at more
        refine keeps' h ?_
        by_cases here : 0 < ctx.blkbuf.length + piece.length
        · exact Nat.add_pos_left (keeps h here) _
        · omega

end Feeding

/-! ## Encryption -/

section Encryption
variable {E D : Type} {g : Gcry E D}

theorem encryptLoop_succ (fuel : Nat) (ctx : Ctx E) {inp : List UInt8} (more : inp ≠ []) :
    encryptLoop g (fuel + 1) ctx inp =
      if ctx.blkbuf.length = 0 ∧ inp.length > g.blksize * 2 then do
        let cp := (inp.length / g.blksize - 1) * g.blksize
        let (out, handle) ← g.encrypt ctx.handle (inp.take cp)
        let (later, ctx) ← encryptLoop g fuel { ctx with handle := handle } (inp.drop cp)
        return (out ++ later, ctx)
      else
        let cp := min inp.length (g.blksize - ctx.blkbuf.length)
        let blkbuf := ctx.blkbuf ++ inp.take cp
        if blkbuf.length = g.blksize then do
          let (out, handle) ← g.encrypt ctx.handle blkbuf
          let (later, ctx) ← encryptLoop g fuel { ctx with handle := handle, blkbuf := [] }
            (inp.drop cp)
          return (out ++ later, ctx)
        else encryptLoop g fuel { ctx with blkbuf := blkbuf } (inp.drop cp) := by
  rw [encryptLoop]
  exact more

/-- Some blocks of the input can be taken at once, and something is left. -/
theorem bulk_size {blksize n k : Nat} (pos : 0 < blksize) (more : n > blksize * (k + 1)) :
    0 < (n / blksize - k) * blksize ∧ (n / blksize - k) * blksize ≤ n - blksize * k := by
  have least : k + 1 ≤ n / blksize := (Nat.le_div_iff_mul_le pos).mpr (by
    rw [Nat.mul_comm]
    exact Nat.le_of_lt more)
  have most := Nat.div_mul_le_self n blksize
  rw [Nat.sub_mul, Nat.mul_comm blksize k]
  have grows := Nat.mul_le_mul_right blksize least
  rw [Nat.add_mul, Nat.one_mul] at grows
  omega

theorem encryptLoop_fed (blocks : Blocks g.encrypt g.blksize) (pos : 0 < g.blksize) (fuel : Nat)
    (ctx : Ctx E) (inp : List UInt8) (enough : inp.length ≤ fuel)
    (below : ctx.blkbuf.length < g.blksize) :
    ∃ out ctx', encryptLoop g fuel ctx inp = some (out, ctx') ∧
      Fed g.encrypt g.blksize ctx inp out ctx' ∧ ctx'.blkbuf.length < g.blksize := by
  induction fuel generalizing ctx inp with
  | zero =>
      rw [List.length_eq_zero_iff.mp (Nat.le_zero.mp enough)]
      exact ⟨[], ctx, rfl, Fed.refl ctx, below⟩
  | succ fuel ih =>
      by_cases more : inp = []
      · rw [more]
        exact ⟨[], ctx, rfl, Fed.refl ctx, below⟩
      · have some' := List.length_pos_iff.mpr more
        rw [encryptLoop_succ fuel ctx more]
        by_cases bulk : ctx.blkbuf.length = 0 ∧ inp.length > g.blksize * 2
        · rw [if_pos bulk]
          obtain ⟨least, most⟩ := bulk_size pos bulk.2
          have size : (inp.take ((inp.length / g.blksize - 1) * g.blksize)).length =
              (inp.length / g.blksize - 1) * g.blksize := by
            rw [List.length_take]
            omega
          have whole : Whole g.blksize (inp.take ((inp.length / g.blksize - 1) * g.blksize)) := by
            rw [Whole, size]
            exact Nat.dvd_mul_left _ _
          obtain ⟨out, handle, call, -⟩ := blocks.gives ctx.handle _ whole
          obtain ⟨later, ctx', loop, fed, below'⟩ := ih { ctx with handle := handle }
            (inp.drop ((inp.length / g.blksize - 1) * g.blksize))
            (by rw [List.length_drop]; omega) below
          refine ⟨out ++ later, ctx', by simp [call, loop], ?_, below'⟩
          have first : Fed g.encrypt g.blksize ctx
              (inp.take ((inp.length / g.blksize - 1) * g.blksize)) out
              { ctx with handle := handle } := by
            refine ⟨rfl, inp.take ((inp.length / g.blksize - 1) * g.blksize), ?_, ?_⟩
            · rw [List.length_eq_zero_iff.mp bulk.1, List.append_nil, List.nil_append]
            · refine Gives.of_eq whole (fun none => ?_) call
              rw [none, List.length_nil] at size
              omega
          exact first.step blocks _ fed
        · rw [if_neg bulk]
          have size : (ctx.blkbuf ++
              inp.take (min inp.length (g.blksize - ctx.blkbuf.length))).length =
                ctx.blkbuf.length + min inp.length (g.blksize - ctx.blkbuf.length) := by
            rw [List.length_append, List.length_take]
            omega
          by_cases full : (ctx.blkbuf ++
              inp.take (min inp.length (g.blksize - ctx.blkbuf.length))).length = g.blksize
          · simp only [if_pos full]
            have whole : Whole g.blksize (ctx.blkbuf ++
                inp.take (min inp.length (g.blksize - ctx.blkbuf.length))) := by
              rw [Whole, full]
            obtain ⟨out, handle, call, -⟩ := blocks.gives ctx.handle _ whole
            obtain ⟨later, ctx', loop, fed, below'⟩ := ih
              { ctx with handle := handle, blkbuf := [] }
              (inp.drop (min inp.length (g.blksize - ctx.blkbuf.length)))
              (by rw [List.length_drop]; omega) pos
            refine ⟨out ++ later, ctx', by simp [call, loop], ?_, below'⟩
            have first : Fed g.encrypt g.blksize ctx
                (inp.take (min inp.length (g.blksize - ctx.blkbuf.length))) out
                { ctx with handle := handle, blkbuf := [] } := by
              refine ⟨rfl, _, (List.append_nil _).symm, Gives.of_eq whole (fun none => ?_) call⟩
              rw [none, List.length_nil] at full
              omega
            exact first.step blocks _ fed
          · simp only [if_neg full]
            obtain ⟨out, ctx', loop, fed, below'⟩ := ih
              { ctx with blkbuf := ctx.blkbuf ++
                  inp.take (min inp.length (g.blksize - ctx.blkbuf.length)) }
              (inp.drop (min inp.length (g.blksize - ctx.blkbuf.length)))
              (by rw [List.length_drop]; omega) (by simp only; omega)
            refine ⟨out, ctx', loop, ?_, below'⟩
            have first : Fed g.encrypt g.blksize ctx
                (inp.take (min inp.length (g.blksize - ctx.blkbuf.length))) []
                { ctx with blkbuf := ctx.blkbuf ++
                    inp.take (min inp.length (g.blksize - ctx.blkbuf.length)) } :=
              ⟨rfl, [], rfl, Gives.nil _⟩
            exact first.step blocks _ fed

theorem encryptUpdate_works (blocks : Blocks g.encrypt g.blksize) (pos : 0 < g.blksize) :
    Works g.encrypt g.blksize (g.blksize - 1) False (encryptUpdate g) := by
  intro ctx inp below
  obtain ⟨out, ctx', loop, fed, below'⟩ := encryptLoop_fed blocks pos inp.length ctx inp
    (Nat.le_refl _) (by omega)
  exact ⟨out, ctx', loop, fed, by omega, False.elim⟩

theorem padLoop_fed (blocks : Blocks g.encrypt g.blksize) (pad : UInt8) (n fuel : Nat) (ctx : Ctx E)
    (enough : n < fuel) (fills : ctx.blkbuf.length + (n + 1) = g.blksize) :
    ∃ out ctx', padLoop g pad fuel ctx = some (out, ctx') ∧
      Fed g.encrypt g.blksize ctx (List.replicate (n + 1) pad) out ctx' ∧ ctx'.blkbuf = [] := by
  induction n generalizing fuel ctx with
  | zero =>
      obtain ⟨fuel, rfl⟩ := Nat.exists_eq_add_of_lt enough
      obtain ⟨out, ctx', call, fed, below, -⟩ := encryptUpdate_works blocks (by omega) ctx [pad]
        (by omega)
      have rest := fed.rest blocks
      rw [List.length_singleton, fills, Nat.mod_self, Nat.mod_eq_of_lt (by omega)] at rest
      have empty := List.length_eq_zero_iff.mp rest
      refine ⟨out, ctx', ?_, fed, empty⟩
      simp [padLoop, call, empty]
  | succ n ih =>
      obtain ⟨fuel, rfl⟩ := Nat.exists_eq_add_of_lt enough
      obtain ⟨out, ctx', call, fed, below, -⟩ := encryptUpdate_works blocks (by omega) ctx [pad]
        (by omega)
      have rest := fed.rest blocks
      rw [List.length_singleton, Nat.mod_eq_of_lt (by omega), Nat.mod_eq_of_lt (by omega)] at rest
      obtain ⟨later, ctx'', loop, fed', empty⟩ := ih (n + 1 + fuel) ctx' (by omega) (by omega)
      refine ⟨out ++ later, ctx'', ?_, fed.trans blocks fed', empty⟩
      have more : ctx'.blkbuf ≠ [] := List.length_pos_iff.mp (by omega)
      simp [padLoop, call, more, loop]

def paddingOf (blksize n : Nat) : List UInt8 :=
  List.replicate (blksize - n % blksize) (UInt8.ofNat (blksize - n % blksize))

theorem encryptFinal_fed (blocks : Blocks g.encrypt g.blksize) (pos : 0 < g.blksize)
    (small : g.blksize < 128) {ctx : Ctx E} (padding : ctx.padding = true)
    (below : ctx.blkbuf.length < g.blksize) :
    ∃ out ctx', encryptFinal g ctx = some out ∧
      Fed g.encrypt g.blksize ctx (paddingOf g.blksize ctx.blkbuf.length) out ctx' ∧
        ctx'.blkbuf = [] := by
  obtain ⟨n, hn⟩ := Nat.exists_eq_add_of_lt below
  have count : g.blksize - ctx.blkbuf.length = n + 1 := by omega
  have some' : UInt8.ofNat (n + 1) ≠ 0 := by
    intro zero
    have value := congrArg UInt8.toNat zero
    rw [UInt8.toNat_ofNat', Nat.mod_eq_of_lt (by omega)] at value
    cases value
  obtain ⟨out, ctx', loop, fed, empty⟩ := padLoop_fed blocks (UInt8.ofNat (n + 1)) n g.blksize ctx
    (by omega) (by omega)
  refine ⟨out, ctx', ?_, ?_, empty⟩
  · rw [encryptFinal, if_pos padding]
    simp only [count, if_neg some', loop]
    rfl
  · rw [paddingOf, Nat.mod_eq_of_lt below, count]
    exact fed

end Encryption

/-! ## Decryption -/

section Decryption
variable {E D : Type} {g : Gcry E D}

theorem decryptLoop_succ (fuel : Nat) (ctx : Ctx D) {inp : List UInt8} (more : inp ≠ []) :
    decryptLoop g (fuel + 1) ctx inp =
      if ctx.blkbuf.length = 0 ∧ inp.length > g.blksize * 3 then do
        let cp := (inp.length / g.blksize - 2) * g.blksize
        let (out, handle) ← g.decrypt ctx.handle (inp.take cp)
        let (later, ctx) ← decryptLoop g fuel { ctx with handle := handle } (inp.drop cp)
        return (out ++ later, ctx)
      else do
        let (out, ctx) ← flush g ctx
        let cp := min inp.length (g.blksize - ctx.blkbuf.length)
        let (later, ctx) ← decryptLoop g fuel { ctx with blkbuf := ctx.blkbuf ++ inp.take cp }
          (inp.drop cp)
        return (out ++ later, ctx) := by
  rw [decryptLoop]
  exact more

theorem flush_fed (blocks : Blocks g.decrypt g.blksize) (pos : 0 < g.blksize) (ctx : Ctx D)
    (below : ctx.blkbuf.length ≤ g.blksize) :
    ∃ out mid, flush g ctx = some (out, mid) ∧
      Fed g.decrypt g.blksize ctx [] out mid ∧ mid.blkbuf.length < g.blksize := by
  by_cases full : ctx.blkbuf.length = g.blksize
  · have whole : Whole g.blksize ctx.blkbuf := by rw [Whole, full]
    obtain ⟨out, handle, call, -⟩ := blocks.gives ctx.handle _ whole
    refine ⟨out, { ctx with handle := handle, blkbuf := [] }, ?_, ⟨rfl, ctx.blkbuf, rfl,
      Gives.of_eq whole (fun none => ?_) call⟩, pos⟩
    · rw [flush, if_pos full, call]
      rfl
    · rw [none, List.length_nil] at full
      omega
  · exact ⟨[], ctx, if_neg full, Fed.refl ctx, by omega⟩

theorem decryptLoop_fed (blocks : Blocks g.decrypt g.blksize) (pos : 0 < g.blksize) (fuel : Nat)
    (ctx : Ctx D) (inp : List UInt8) (enough : inp.length ≤ fuel)
    (below : ctx.blkbuf.length ≤ g.blksize) :
    ∃ out ctx', decryptLoop g fuel ctx inp = some (out, ctx') ∧
      Fed g.decrypt g.blksize ctx inp out ctx' ∧ ctx'.blkbuf.length ≤ g.blksize ∧
        (0 < ctx.blkbuf.length + inp.length → 0 < ctx'.blkbuf.length) := by
  induction fuel generalizing ctx inp with
  | zero =>
      rw [List.length_eq_zero_iff.mp (Nat.le_zero.mp enough)]
      exact ⟨[], ctx, rfl, Fed.refl ctx, below, fun some' => some'⟩
  | succ fuel ih =>
      by_cases more : inp = []
      · rw [more]
        exact ⟨[], ctx, rfl, Fed.refl ctx, below, fun some' => some'⟩
      · have some' := List.length_pos_iff.mpr more
        rw [decryptLoop_succ fuel ctx more]
        by_cases bulk : ctx.blkbuf.length = 0 ∧ inp.length > g.blksize * 3
        · rw [if_pos bulk]
          obtain ⟨least, most⟩ := bulk_size pos bulk.2
          have size : (inp.take ((inp.length / g.blksize - 2) * g.blksize)).length =
              (inp.length / g.blksize - 2) * g.blksize := by
            rw [List.length_take]
            omega
          have whole : Whole g.blksize (inp.take ((inp.length / g.blksize - 2) * g.blksize)) := by
            rw [Whole, size]
            exact Nat.dvd_mul_left _ _
          obtain ⟨out, handle, call, -⟩ := blocks.gives ctx.handle _ whole
          obtain ⟨later, ctx', loop, fed, below', held⟩ := ih { ctx with handle := handle }
            (inp.drop ((inp.length / g.blksize - 2) * g.blksize))
            (by rw [List.length_drop]; omega) below
          refine ⟨out ++ later, ctx', by simp [call, loop], ?_, below', fun _ => held ?_⟩
          · have first : Fed g.decrypt g.blksize ctx
                (inp.take ((inp.length / g.blksize - 2) * g.blksize)) out
                { ctx with handle := handle } := by
              refine ⟨rfl, inp.take ((inp.length / g.blksize - 2) * g.blksize), ?_, ?_⟩
              · rw [List.length_eq_zero_iff.mp bulk.1, List.append_nil, List.nil_append]
              · refine Gives.of_eq whole (fun none => ?_) call
                rw [none, List.length_nil] at size
                omega
            exact first.step blocks _ fed
          · rw [List.length_drop]
            omega
        · rw [if_neg bulk]
          obtain ⟨out, mid, flushed, fed, room⟩ := flush_fed blocks pos ctx below
          obtain ⟨later, ctx', loop, fed', below', held⟩ := ih
            { mid with blkbuf := mid.blkbuf ++
                inp.take (min inp.length (g.blksize - mid.blkbuf.length)) }
            (inp.drop (min inp.length (g.blksize - mid.blkbuf.length)))
            (by rw [List.length_drop]; omega)
            (by simp only [List.length_append, List.length_take]; omega)
          refine ⟨out ++ later, ctx', ?_, ?_, below', fun _ => held ?_⟩
          · simp [flushed, loop]
          · have first : Fed g.decrypt g.blksize mid
                (inp.take (min inp.length (g.blksize - mid.blkbuf.length))) []
                { mid with blkbuf := mid.blkbuf ++
                    inp.take (min inp.length (g.blksize - mid.blkbuf.length)) } :=
              ⟨rfl, [], rfl, Gives.nil _⟩
            exact fed.trans blocks (first.step blocks _ fed')
          · simp only [List.length_append, List.length_take]
            omega

theorem decryptUpdate_works (blocks : Blocks g.decrypt g.blksize) (pos : 0 < g.blksize) :
    Works g.decrypt g.blksize g.blksize True (decryptUpdate g) := by
  intro ctx inp below
  obtain ⟨out, ctx', loop, fed, below', held⟩ := decryptLoop_fed blocks pos inp.length ctx inp
    (Nat.le_refl _) below
  exact ⟨out, ctx', loop, fed, below', fun _ => held⟩

theorem decryptFinal_eq {ctx : Ctx D} (padding : ctx.padding = true)
    (full : ctx.blkbuf.length = g.blksize) {text : List UInt8} {n : Nat} {d : D} (some' : 0 < n)
    (size : text.length + n = g.blksize) (small : g.blksize < 128)
    (call : g.decrypt ctx.handle ctx.blkbuf =
      some (text ++ List.replicate n (UInt8.ofNat n), d)) :
    decryptFinal g ctx = some text := by
  have value : (UInt8.ofNat n).toNat = n := by
    rw [UInt8.toNat_ofNat', Nat.mod_eq_of_lt (by omega)]
  have last : (text ++ List.replicate n (UInt8.ofNat n)).getLast?.getD 0 = UInt8.ofNat n := by
    rw [List.getLast?_append, List.getLast?_replicate, if_neg (by omega)]
    rfl
  have count : g.blksize - n = text.length := by omega
  have above : (0 : UInt8) < UInt8.ofNat n := by
    rw [UInt8.lt_iff_toNat_lt, value]
    exact some'
  have good : 0 < UInt8.ofNat n ∧ n ≤ g.blksize ∧
      ∀ c ∈ (text ++ List.replicate n (UInt8.ofNat n)).drop text.length, c = UInt8.ofNat n := by
    refine ⟨above, by omega, fun c mem => ?_⟩
    rw [List.drop_left] at mem
    exact (List.mem_replicate.mp mem).2
  rw [decryptFinal, if_neg (not_not.mpr full), call]
  simp only [Option.bind_eq_bind, Option.bind_some, if_pos padding, last, value, count,
    if_pos good, List.take_left]
  rfl

end Decryption

/-! ## Both ways -/

section RoundTrip
variable {E D : Type} {g : Gcry E D}

def encryptAll (g : Gcry E D) (e : E) (pieces : List (List UInt8)) :
    Option (List (List UInt8) × List UInt8) := do
  let (outs, ctx) ← calls (encryptUpdate g) (init e) pieces
  let last ← encryptFinal g ctx
  return (outs, last)

def decryptAll (g : Gcry E D) (d : D) (pieces : List (List UInt8)) :
    Option (List (List UInt8) × List UInt8) := do
  let (outs, ctx) ← calls (decryptUpdate g) (init d) pieces
  let last ← decryptFinal g ctx
  return (outs, last)

theorem encryptAll_eq (blocks : Blocks g.encrypt g.blksize) (pos : 0 < g.blksize)
    (small : g.blksize < 128) (e : E) (pieces : List (List UInt8)) :
    ∃ outs last e', encryptAll g e pieces = some (outs, last) ∧
      List.Forall₂ (fun piece out => out.length ≤ piece.length + g.blksize) pieces outs ∧
      last.length ≤ g.blksize ∧
      Whole g.blksize (pieces.flatten ++ paddingOf g.blksize pieces.flatten.length) ∧
      g.encrypt e (pieces.flatten ++ paddingOf g.blksize pieces.flatten.length) =
        some (outs.flatten ++ last, e') := by
  obtain ⟨outs, ctx, run, fed, below, -, bounds⟩ := calls_fed blocks (Nat.sub_le _ _)
    (encryptUpdate_works blocks pos) pieces (init e) (Nat.zero_le _)
  obtain ⟨last, ctx', final, fed', empty⟩ := encryptFinal_fed blocks pos small fed.padding
    (by omega)
  have rest := fed.rest blocks
  have length := fed'.length blocks
  have same : paddingOf g.blksize ctx.blkbuf.length =
      paddingOf g.blksize pieces.flatten.length := by
    rw [paddingOf, paddingOf, rest]
    simp [init]
  have count : (paddingOf g.blksize ctx.blkbuf.length).length =
      g.blksize - ctx.blkbuf.length := by
    rw [paddingOf, List.length_replicate, Nat.mod_eq_of_lt (by omega)]
  obtain ⟨-, p, all, gives⟩ := fed.trans blocks fed'
  rw [empty, List.append_nil, same] at all
  change pieces.flatten ++ paddingOf g.blksize pieces.flatten.length = p at all
  have some' : p ≠ [] := by
    intro none
    rw [none, ← same] at all
    have := congrArg List.length all
    rw [List.length_append, count, List.length_nil] at this
    omega
  refine ⟨outs, last, ctx'.handle, ?_, bounds, ?_, ?_, ?_⟩
  · simp [encryptAll, run, final]
  · rw [empty, List.length_nil, count] at length
    omega
  · rw [all]
    exact gives.whole
  · rw [all]
    rw [Gives, if_neg some'] at gives
    exact gives.2

/-- What was encrypted is decrypted, however both texts are cut. -/
theorem evp_round_trip (g : Gcry E D) (Paired : E → D → Prop) (chains : Chains g Paired)
    (pos : 0 < g.blksize) (small : g.blksize < 128) (e : E) (d : D) (paired : Paired e d)
    (pieces : List (List UInt8)) :
    ∃ outs last, encryptAll g e pieces = some (outs, last) ∧
      List.Forall₂ (fun piece out => out.length ≤ piece.length + g.blksize) pieces outs ∧
      last.length ≤ g.blksize ∧
      (∀ pieces', pieces'.flatten = pieces.flatten → ∃ outs' last',
        encryptAll g e pieces' = some (outs', last') ∧
          outs'.flatten ++ last' = outs.flatten ++ last) ∧
      ∀ parts, parts.flatten = outs.flatten ++ last → ∃ texts text,
        decryptAll g d parts = some (texts, text) ∧
          List.Forall₂ (fun part out => out.length ≤ part.length + g.blksize) parts texts ∧
          text.length ≤ g.blksize ∧ texts.flatten ++ text = pieces.flatten := by
  obtain ⟨outs, last, e', run, bounds, final, whole, call⟩ :=
    encryptAll_eq chains.encrypts pos small e pieces
  refine ⟨outs, last, run, bounds, final, ?_, ?_⟩
  · intro pieces' same
    obtain ⟨outs', last', e'', run', -, -, -, call'⟩ :=
      encryptAll_eq chains.encrypts pos small e pieces'
    rw [same, call] at call'
    exact ⟨outs', last', run', (Prod.mk.inj (Option.some.inj call')).1.symm⟩
  · intro parts same
    obtain ⟨d', inverse, -⟩ := chains.inverse e d _ _ e' paired whole call
    obtain ⟨texts, ctx, run', fed, below, held, bounds'⟩ := calls_fed chains.decrypts
      (Nat.le_refl _) (decryptUpdate_works chains.decrypts pos) parts (init d) (Nat.zero_le _)
    have pads : (paddingOf g.blksize pieces.flatten.length).length =
        g.blksize - pieces.flatten.length % g.blksize := List.length_replicate
    have left := Nat.mod_lt pieces.flatten.length pos
    have size : parts.flatten.length =
        (pieces.flatten ++ paddingOf g.blksize pieces.flatten.length).length := by
      obtain ⟨c, e'', same', length⟩ := chains.encrypts.gives e _ whole
      rw [call] at same'
      rw [same, ← length, (Prod.mk.inj (Option.some.inj same')).1]
    -- the last block is the one held back
    have full : ctx.blkbuf.length = g.blksize := by
      have some' : 0 < ctx.blkbuf.length := by
        refine held trivial ?_
        rw [size, List.length_append, pads]
        omega
      have rest := fed.rest chains.decrypts
      rw [size, init, List.length_nil, Nat.zero_add, Nat.mod_eq_zero_of_dvd whole] at rest
      exact Nat.le_antisymm below (Nat.le_of_dvd some' (Nat.dvd_of_mod_eq_zero rest))
    have whole' : Whole g.blksize ctx.blkbuf := by rw [Whole, full]
    obtain ⟨block, d'', call', length'⟩ := chains.decrypts.gives ctx.handle _ whole'
    obtain ⟨padding, p, all, gives⟩ := fed
    have some' : ctx.blkbuf ≠ [] := List.length_pos_iff.mp (by omega)
    have both := gives.trans chains.decrypts (Gives.of_eq whole' some' call')
    rw [← all] at both
    change Gives g.decrypt g.blksize d parts.flatten _ _ at both
    rw [Gives, if_neg (List.length_pos_iff.mp (by rw [size, List.length_append, pads]; omega)),
      same, inverse] at both
    have text := (Prod.mk.inj (Option.some.inj both.2)).1
    obtain ⟨clear, front, behind⟩ : ∃ clear, pieces.flatten = texts.flatten ++ clear ∧
        block = clear ++ paddingOf g.blksize pieces.flatten.length := by
      rcases List.append_eq_append_iff.mp text with ⟨a, front, behind⟩ | ⟨clear, front, behind⟩
      · have sizes := congrArg List.length behind
        rw [List.length_append, pads, length', full] at sizes
        have none : a = [] := List.length_eq_zero_iff.mp (by omega)
        rw [none, List.append_nil] at front
        rw [none, List.nil_append] at behind
        exact ⟨[], by rw [front, List.append_nil], by rw [behind, List.nil_append]⟩
      · exact ⟨clear, front, behind⟩
    have sizes := congrArg List.length behind
    rw [List.length_append, pads, length', full] at sizes
    rw [behind] at call'
    have last' := decryptFinal_eq padding full (by omega) (by omega) small call'
    refine ⟨texts, clear, by simp [decryptAll, run', last'], bounds', by omega, front.symm⟩

/-- A cipher that adds to each byte the one before it in the ciphertext. -/
def chainEncrypt : UInt8 → List UInt8 → List UInt8 × UInt8
  | prev, [] => ([], prev)
  | prev, b :: p => ((b + prev) :: (chainEncrypt (b + prev) p).1, (chainEncrypt (b + prev) p).2)

def chainDecrypt : UInt8 → List UInt8 → List UInt8 × UInt8
  | prev, [] => ([], prev)
  | prev, c :: p => ((c - prev) :: (chainDecrypt c p).1, (chainDecrypt c p).2)

def chainCipher : Gcry UInt8 UInt8 :=
  ⟨8, fun e p => some (chainEncrypt e p), fun d p => some (chainDecrypt d p)⟩

theorem chainEncrypt_append (prev : UInt8) (p q : List UInt8) :
    chainEncrypt prev (p ++ q) =
      ((chainEncrypt prev p).1 ++ (chainEncrypt (chainEncrypt prev p).2 q).1,
        (chainEncrypt (chainEncrypt prev p).2 q).2) := by
  induction p generalizing prev with
  | nil => rfl
  | cons b p ih => simp [chainEncrypt, ih]

theorem chainDecrypt_append (prev : UInt8) (p q : List UInt8) :
    chainDecrypt prev (p ++ q) =
      ((chainDecrypt prev p).1 ++ (chainDecrypt (chainDecrypt prev p).2 q).1,
        (chainDecrypt (chainDecrypt prev p).2 q).2) := by
  induction p generalizing prev with
  | nil => rfl
  | cons b p ih => simp [chainDecrypt, ih]

theorem length_chain (prev : UInt8) (p : List UInt8) :
    (chainEncrypt prev p).1.length = p.length ∧ (chainDecrypt prev p).1.length = p.length := by
  induction p generalizing prev with
  | nil => exact ⟨rfl, rfl⟩
  | cons b p ih => simp [chainEncrypt, chainDecrypt, ih]

theorem chainDecrypt_chainEncrypt (prev : UInt8) (p : List UInt8) :
    chainDecrypt prev (chainEncrypt prev p).1 = (p, (chainEncrypt prev p).2) := by
  induction p generalizing prev with
  | nil => rfl
  | cons b p ih => simp [chainEncrypt, chainDecrypt, ih]

theorem chains_chainCipher : Chains chainCipher (· = ·) where
  encrypts :=
    { gives := fun e p _ => ⟨_, _, rfl, (length_chain e p).1⟩
      parts := by
        intro e p q c e' c' e'' _ _ first then'
        obtain ⟨rfl, rfl⟩ := Prod.mk.inj (Option.some.inj first)
        obtain ⟨rfl, rfl⟩ := Prod.mk.inj (Option.some.inj then')
        exact congrArg some (chainEncrypt_append e p q) }
  decrypts :=
    { gives := fun d p _ => ⟨_, _, rfl, (length_chain d p).2⟩
      parts := by
        intro d p q c d' c' d'' _ _ first then'
        obtain ⟨rfl, rfl⟩ := Prod.mk.inj (Option.some.inj first)
        obtain ⟨rfl, rfl⟩ := Prod.mk.inj (Option.some.inj then')
        exact congrArg some (chainDecrypt_append d p q) }
  inverse := by
    intro e d p c e' same _ call
    obtain ⟨rfl, rfl⟩ := Prod.mk.inj (Option.some.inj call)
    subst same
    exact ⟨_, congrArg some (chainDecrypt_chainEncrypt e p), rfl⟩

theorem evp_round_trip_sample :
    ∃ outs last, encryptAll chainCipher 5 [[1, 2], [3]] = some (outs, last) ∧
      ∀ parts, parts.flatten = outs.flatten ++ last → ∃ texts text,
        decryptAll chainCipher 5 parts = some (texts, text) ∧
          texts.flatten ++ text = [1, 2, 3] := by
  obtain ⟨outs, last, run, -, -, -, back⟩ := evp_round_trip chainCipher (· = ·) chains_chainCipher
    (by decide) (by decide) 5 5 rfl [[1, 2], [3]]
  refine ⟨outs, last, run, fun parts same => ?_⟩
  obtain ⟨texts, text, run', -, -, all⟩ := back parts same
  exact ⟨texts, text, run', all⟩

end RoundTrip

end Cone.TlspasswordcacheEvp
