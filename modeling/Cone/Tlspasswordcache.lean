import Cone.Ctype

/-! # The file of saved passwords (`tcpd/tlspasswordcache.c`)

The cipher is the one of the library, a parameter here.  Memory is never short. -/
set_option autoImplicit false
namespace Cone.Tlspasswordcache

/-- `EVP_des_cbc()` with the functions of the library that use it, and `md5_digest`. -/
structure Evp where
  Ctx : Type
  ivLength : Nat
  keyLength : Nat
  encryptInit : List UInt8 → List UInt8 → Option Ctx
  encryptUpdate : Ctx → List UInt8 → Option (List UInt8 × Ctx)
  encryptFinal : Ctx → Option (List UInt8)
  decryptInit : List UInt8 → List UInt8 → Option Ctx
  decryptUpdate : Ctx → List UInt8 → Option (List UInt8 × Ctx)
  decryptFinal : Ctx → Option (List UInt8)
  md5Digest : List UInt8 → Vector UInt8 16

abbrev PASSFILEFORMAT : UInt8 := 1

abbrev BUFSIZ : Nat := 8192

section Save
variable (evp : Evp) {W : Type} (writefunc : List UInt8 → W → Int × W)

def put (b : List UInt8) (w : W) : Except (Int × W) W :=
  let (l, w) := writefunc b w
  if l ≠ 0 then .error (l, w) else .ok w

def putUpdate (ctx : evp.Ctx) (b : List UInt8) (w : W) : Except (Int × W) (evp.Ctx × W) :=
  match evp.encryptUpdate ctx b with
  | none => .error (-1, w)
  | some (out, ctx) =>
    if out = [] then .ok (ctx, w)
    else match put writefunc out w with
      | .error e => .error e
      | .ok w => .ok (ctx, w)

/-- `while (len)` -/
def saveLoop (ctx : evp.Ctx) (str : List UInt8) (w : W) : Except (Int × W) (evp.Ctx × W) :=
  if _h : str = [] then .ok (ctx, w)
  else match putUpdate evp writefunc ctx (str.take (BUFSIZ / 4)) w with
    | .error e => .error e
    | .ok (ctx, w) => saveLoop ctx (str.drop (BUFSIZ / 4)) w
  termination_by str.length
  decreasing_by
    have : 0 < str.length := List.length_pos_iff.mpr _h
    have : 0 < BUFSIZ / 4 := by decide
    rw [List.length_drop]
    omega

/-- `b[0]=len / 256; b[1]=len % 256;` -/
def lengthBytes (len : Nat) : List UInt8 := [UInt8.ofNat (len / 256), UInt8.ofNat (len % 256)]

def saveString (ctx : evp.Ctx) (str : List UInt8) (w : W) : Except (Int × W) (evp.Ctx × W) :=
  if 256 * 256 ≤ str.length then .error (-1, w)
  else match putUpdate evp writefunc ctx (lengthBytes str.length) w with
    | .error e => .error e
    | .ok (ctx, w) => saveLoop evp writefunc ctx str w

def saveStrings (ctx : evp.Ctx) : List (List UInt8 × List UInt8) → W →
    Except (Int × W) (evp.Ctx × W)
  | [], w => .ok (ctx, w)
  | (url, pwd) :: pairs, w =>
    match saveString evp writefunc ctx url w with
    | .error e => .error e
    | .ok (ctx, w) =>
      match saveString evp writefunc ctx pwd w with
      | .error e => .error e
      | .ok (ctx, w) => saveStrings ctx pairs w

def sealKeys (digest iv1 iv2 : List UInt8) : Option (List UInt8) := do
  let ctx ← evp.encryptInit (digest.take evp.keyLength) (iv1.take evp.ivLength)
  let (out1, ctx) ← evp.encryptUpdate ctx (digest.drop evp.keyLength)
  let (out2, ctx) ← evp.encryptUpdate ctx (iv2.take (evp.ivLength + evp.keyLength))
  let out3 ← evp.encryptFinal ctx
  return out1 ++ out2 ++ out3

/-- `tlspassword_save`; `rand` is what `RAND_pseudo_bytes` gives, unless it fails. -/
def tlspasswordSave (pairs : List (List UInt8 × List UInt8)) (mpw : List UInt8)
    (rand : Option (Vector UInt8 16 × Vector UInt8 16)) (w : W) : Int × W :=
  let digest := (evp.md5Digest mpw).toList
  match rand with
  | none => (-1, w)
  | some (iv1, iv2) =>
    if 16 < evp.ivLength + evp.keyLength || evp.ivLength + evp.keyLength ≠ 16 ||
        evp.keyLength ≠ 16 / 2 then (-1, w)
    else match sealKeys evp digest iv1.toList iv2.toList with
      | none => (-1, w)
      | some sealed =>
        let header := PASSFILEFORMAT :: lengthBytes sealed.length
        let written := do
          let w ← put writefunc header w
          let w ← put writefunc (iv1.toList.take evp.ivLength) w
          put writefunc sealed w
        match written with
        | .error e => e
        | .ok w =>
          match evp.encryptInit (iv2.toList.take evp.keyLength)
              ((iv2.toList.drop evp.keyLength).take evp.ivLength) with
          | none => (-1, w)
          | some ctx =>
            match saveStrings evp writefunc ctx pairs w with
            | .error e => e
            | .ok (ctx, w) =>
              match evp.encryptFinal ctx with
              | none => (-1, w)
              | some out => if out = [] then (0, w) else writefunc out w

end Save

/-! ## The handlers of a decrypted stream -/

section Handlers

/-- Allocated memory; a byte that nothing has been written to is `none`. -/
abbrev Buffer := List (Option UInt8)

structure TempString where
  url : Buffer
  pw : Option Buffer
  deriving DecidableEq, Repr

inductive Handler where
  | stringhi
  | stringlo
  | string
  deriving DecidableEq, Repr

/-- `struct tlspassword_readinfo`: the list has `tl_last` in front and `tl_list` at its end.
`stringptr` is an offset into the memory of the string that was allocated last. -/
structure ReadInfo where
  tempstrings : List TempString
  readhandler : Handler
  stringhi : Nat
  stringptr : Nat
  stringleft : Nat
  nstrings : Nat
  deriving DecidableEq, Repr

variable (info : ReadInfo)

def readStringhi (c : UInt8) : ReadInfo :=
  { info with stringhi := c.toNat * 256, readhandler := .stringlo }

def malloc (n : Nat) : Buffer := List.replicate n none

def readStringlo (c : UInt8) : ReadInfo :=
  let stringleft := info.stringhi + c.toNat
  match info.tempstrings with
  | [] =>
    { info with
      readhandler := .string, stringleft := stringleft, stringptr := 0
      tempstrings := [{ url := malloc (stringleft + 1), pw := none }]
      nstrings := info.nstrings + 1 }
  | last :: before =>
    match last.pw with
    | none =>
      { info with
        readhandler := .string, stringleft := stringleft, stringptr := 0
        tempstrings := { last with pw := some (malloc (stringleft + 1)) } :: before }
    | some _ =>
      { info with
        readhandler := .string, stringleft := stringleft, stringptr := 0
        tempstrings := { url := malloc (stringleft + 1), pw := none } :: last :: before
        nstrings := info.nstrings + 1 }

/-- Bytes at an offset of the memory. -/
def Buffer.store (b : Buffer) (k : Nat) (p : List UInt8) : Buffer :=
  b.take k ++ p.map some ++ b.drop (k + p.length)

def storeLast (k : Nat) (p : List UInt8) : List TempString → List TempString
  | [] => []
  | last :: before =>
    match last.pw with
    | none => { last with url := Buffer.store last.url k p } :: before
    | some pw => { last with pw := some (Buffer.store pw k p) } :: before

def readString (p : List UInt8) : Nat × ReadInfo :=
  let n := min p.length info.stringleft
  let left := info.stringleft - n
  let stored := storeLast info.stringptr (p.take n) info.tempstrings
  let info := { info with stringptr := info.stringptr + n, stringleft := left, tempstrings := stored }
  (n, if left = 0 then
      { info with
        readhandler := .stringhi
        tempstrings := storeLast info.stringptr [0] info.tempstrings }
    else info)

end Handlers

theorem readString_fst (info : ReadInfo) (p : List UInt8) :
    (readString info p).1 = min p.length info.stringleft := rfl

theorem readString_handler {info : ReadInfo} (p : List UInt8) (h : info.stringleft = 0) :
    (readString info p).2.readhandler = .stringhi := by
  unfold readString
  simp [h]

/-- `while (outl)`: the bytes go to the handlers. -/
def feed (info : ReadInfo) (p : List UInt8) : ReadInfo :=
  match p with
  | [] => info
  | c :: q =>
    match _h : info.readhandler with
    | .stringhi => feed (readStringhi info c) q
    | .stringlo => feed (readStringlo info c) q
    | .string => feed (readString info (c :: q)).2 ((c :: q).drop (readString info (c :: q)).1)
  termination_by 2 * p.length + (if info.readhandler = .string then 1 else 0)
  decreasing_by
    · split <;> simp only [List.length_cons] <;> omega
    · split <;> simp only [List.length_cons] <;> omega
    · rw [readString_fst, List.length_drop, List.length_cons, if_pos _h]
      by_cases left : info.stringleft = 0
      · rw [readString_handler _ left, left]
        simp
      · split <;> omega

/-! ## Load -/

section Load
variable (evp : Evp)

/-- What the read callback gives, call by call: an error, or some bytes; it gives nothing at the
end. -/
abbrev Source := List (Option (List UInt8))

def tlspasswordRead (source : Source) (buf : List UInt8) (nbytes : Nat) :
    Option (List UInt8 × List UInt8 × Source) :=
  if nbytes ≤ buf.length then some (buf.take nbytes, buf.drop nbytes, source)
  else match source with
    | [] => none
    | none :: _ => none
    | some [] :: _ => none
    | some piece :: source =>
      match tlspasswordRead source piece (nbytes - buf.length) with
      | none => none
      | some (rest, buf', source) => some (buf ++ rest, buf', source)

def openKeys (mpw : List UInt8) (source : Source) :
    Option (List UInt8 × List UInt8 × List UInt8 × Source) := do
  let digest := (evp.md5Digest mpw).toList
  let (header, buf, source) ← tlspasswordRead source [] 3
  let (iv1, buf, source) ← tlspasswordRead source buf evp.ivLength
  let l := (header.getD 1 0).toNat * 256 + (header.getD 2 0).toNat
  if header.getD 0 0 ≠ PASSFILEFORMAT then none
  else if BUFSIZ / 4 < l then none
  else
    let (sealed, buf, source) ← tlspasswordRead source buf l
    let ctx ← evp.decryptInit (digest.take evp.keyLength) iv1
    let (out, ctx) ← evp.decryptUpdate ctx sealed
    let last ← evp.decryptFinal ctx
    let p := out ++ last
    if p.length ≠ 16 + evp.ivLength || p.take (16 - evp.keyLength) ≠ digest.drop evp.keyLength then
      none
    else
      let keys := p.drop (p.length - evp.ivLength - evp.keyLength)
      return (keys.take evp.keyLength, (keys.drop evp.keyLength).take evp.ivLength, buf, source)

def loadPiece (ctx : evp.Ctx) (info : ReadInfo) (piece : List UInt8) : Option (evp.Ctx × ReadInfo) :=
  match evp.decryptUpdate ctx piece with
  | none => none
  | some (out, ctx) => some (ctx, feed info out)

/-- `for (;;)` -/
def loadLoop (ctx : evp.Ctx) (info : ReadInfo) : Source → Option (evp.Ctx × ReadInfo)
  | [] => some (ctx, info)
  | none :: _ => none
  | some [] :: _ => some (ctx, info)
  | some piece :: source =>
    match loadPiece evp ctx info piece with
    | none => none
    | some (ctx, info) => loadLoop ctx info source

/-- `read_stringhi` is the first handler. -/
def readInit : ReadInfo :=
  { tempstrings := [], readhandler := .stringhi, stringhi := 0, stringptr := 0, stringleft := 0
    nstrings := 0 }

/-- What the callback is given: the strings of the two arrays. -/
def deliver (info : ReadInfo) : Option (List (Buffer × Option Buffer)) :=
  match info.tempstrings.getLast? with
  | some { pw := none, .. } => none
  | _ => some (info.tempstrings.reverse.map fun t => (t.url, t.pw))

def tlspasswordLoad (mpw : List UInt8) (source : Source) : Option (List (Buffer × Option Buffer)) := do
  let (key, iv, buf, source) ← openKeys evp mpw source
  let ctx ← evp.decryptInit key iv
  let (ctx, info) ← loadLoop evp ctx readInit (if buf = [] then source else some buf :: source)
  let out ← evp.decryptFinal ctx
  deliver (feed info out)

end Load

end Cone.Tlspasswordcache
