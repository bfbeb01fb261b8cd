import Cone.Lib.Budget
import Cone.Lib.Decimal
import Cone.Rfc2045Header

/-! # Sender Policy Framework records

rfc1035/spf.c.  The functions answer with the `char` codes of spf.h and change the error
message, which is the caller's buffer of `errmsgBufSize` bytes.  A `World` gives the answers of
the name server and of `malloc`; every question has a number, so the same question need not get
the same answer twice.  Only `rfc1035_spf_gettxt` is a mapping of domain names.

A lookup calls the next one through the records, so `lookup` takes the depth to which it may go;
`trace` lists the lookups begun and what each reported, and no function reads it. -/
set_option autoImplicit false
namespace Cone.Spf

open Cone.Ctype Cone.Lib.Decimal Cone.Lib.Budget
open Cone.Rfc2045Header (tolower)

abbrev SPF_NONE : UInt8 := 0
abbrev SPF_NEUTRAL : UInt8 := byte '?'
abbrev SPF_PASS : UInt8 := byte '+'
abbrev SPF_FAIL : UInt8 := byte '-'
abbrev SPF_SOFTFAIL : UInt8 := byte '~'
abbrev SPF_ERROR : UInt8 := byte '4'
abbrev SPF_UNKNOWN : UInt8 := byte '5'

abbrev RFC1035_MAXNAMESIZE : Nat := 255

/-- `RFC1035_ADDR` where `RFC1035_IPV6` is set. -/
abbrev Addr := Vector UInt8 16

/-- What `rfc1035_ptr_x` does: -1 and `ENOENT`, -1 and another error, or a name for each callback. -/
inductive PtrAnswer where
  | enoent
  | again
  | names (ptrs : List (List UInt8))

structure World where
  gettxt : List UInt8 → UInt8 × List UInt8
  aton : List UInt8 → Option Addr
  malloc : Nat → Bool
  strerror : List UInt8
  a : Nat → List UInt8 → Int × List Addr
  /-- The return code, and for each address of the list what `rfc1035_sockaddrip` makes of it. -/
  mxlist : Nat → List UInt8 → Int × List (Option Addr)
  ptr : Nat → Addr → PtrAnswer
  /-- The first TXT record, for `setexp`. -/
  txt : Nat → List UInt8 → Option (List UInt8)

inductive Event where
  | begun (number : Nat)
  | reported (number : Nat) (result : UInt8)
  deriving DecidableEq, Repr

structure State where
  lookupCnt : Nat
  errmsg : List UInt8
  asked : Nat
  trace : List Event

/-- `struct rfc1035_spf_info`, without what is shared. -/
structure Info where
  mailfrom : List UInt8
  currentDomain : List UInt8
  tcpremoteip : List UInt8
  tcpremotehost : List UInt8
  helodomain : List UInt8
  mydomain : List UInt8
  errmsgBufSize : Nat

def strcasecmp (p q : List UInt8) : Bool := p.map tolower = q.map tolower

def strncasecmp (p q : List UInt8) : Bool := strcasecmp (p.take q.length) q

/-- `strrchr(s, c)+1`, where `c` occurs. -/
def afterLast (c : UInt8) (s : List UInt8) : List UInt8 :=
  (s.reverse.takeWhile (· ≠ c)).reverse

/-- What stands before `strrchr(s, c)`. -/
def beforeLast (c : UInt8) (s : List UInt8) : List UInt8 :=
  ((s.reverse.dropWhile (· ≠ c)).drop 1).reverse

/-- The byte a pointer is at. -/
def charAt (p : List UInt8) : UInt8 := p.headD NUL

section Messages

def setErrMsg (errmsgBufSize : Nat) (errmsg : List UInt8) : Run State Unit := do
  if errmsgBufSize = 0 then pure () else
  modify fun s => { s with errmsg := errmsg.take (errmsgBufSize - 1) }

def ask {α : Type} (question : Nat → α) : Run State α := fun s =>
  some (question s.asked, { s with asked := s.asked + 1 })

end Messages

section Macros
variable (w : World)

def tsplitLoop (delimiter : UInt8) : List UInt8 → List UInt8 → List (List UInt8)
  | word, [] => [word]
  | word, [c] => if c = delimiter then [word] else [word ++ [c]]
  | word, c :: d :: macro' =>
    if c = delimiter then word :: tsplitLoop delimiter [] (d :: macro')
    else tsplitLoop delimiter (word ++ [c]) (d :: macro')

def tsplit (macro' : List UInt8) (delimiter : UInt8) : List (List UInt8) :=
  if macro' = [] then []
  else tsplitLoop (if delimiter = NUL then byte '.' else delimiter) [] macro'

/-- The `strcat` loops of `transform`. -/
def joinWords (buf : List UInt8) : List (List UInt8) → List UInt8
  | [] => buf
  | word :: words => joinWords ((if buf = [] then [] else buf ++ [byte '.']) ++ word) words

def transform (macro' : List UInt8) (transformerCount : Nat) (transformerReverse : Bool)
    (delimiterChar : UInt8) : List UInt8 :=
  let words := tsplit macro' delimiterChar
  let n := words.length
  let transformerCount := if transformerCount > n || transformerCount = 0 then n else transformerCount
  if transformerReverse then joinWords [] (words.take transformerCount).reverse
  else joinWords [] (words.drop (n - transformerCount))

def mapped : List UInt8 := str "::ffff:"

def expandc (ipaddr : List UInt8) : List UInt8 :=
  if ipaddr.take 7 = mapped then ipaddr.drop 7 else ipaddr

def isIpv6 (ipaddr : List UInt8) : Bool := ipaddr.contains (byte ':') && ipaddr.take 7 ≠ mapped

def nibble (n : Nat) : UInt8 := (xdigit.map tolower).getD n NUL

def expandi (ipaddr : List UInt8) : List UInt8 :=
  match isIpv6 ipaddr, w.aton ipaddr with
  | true, some addr =>
    List.intercalate [byte '.']
      (addr.toList.map fun q => [nibble (q.toNat / 16), byte '.', nibble (q.toNat % 16)])
  | _, _ => expandc ipaddr

def getMacro (info : Info) (name : UInt8) : List UInt8 :=
  if name = byte 'l' then beforeLast (byte '@') info.mailfrom
  else if name = byte 's' then info.mailfrom
  else if name = byte 'o' then afterLast (byte '@') info.mailfrom
  else if name = byte 'd' then info.currentDomain
  else if name = byte 'c' then expandc info.tcpremoteip
  else if name = byte 'i' then expandi w info.tcpremoteip
  else if name = byte 'p' then info.tcpremotehost
  else if name = byte 'v' then
    if isIpv6 info.tcpremoteip then str "ip6" else str "in-addr"
  else if name = byte 'h' then info.helodomain
  else if name = byte 'r' then info.mydomain
  else []

def validchar (c : UInt8) : Bool :=
  (byte 'A' ≤ c && c ≤ byte 'Z') || (byte 'a' ≤ c && c ≤ byte 'z') || isdigit c

def escape (macro' : List UInt8) : List UInt8 :=
  macro'.flatMap fun c =>
    if validchar c then [c]
    else [byte '%', xdigit.getD (c.toNat / 16) NUL, xdigit.getD (c.toNat % 16) NUL]

def isDelimiter (c : UInt8) : Bool :=
  [byte '.', byte '-', byte '+', byte ',', byte '/', byte '_', byte '='].contains c

def macroText (info : Info) (p : List UInt8) : List UInt8 :=
  match p with
  | [] => []
  | alpha :: q =>
    let transformerCount := readDigits q % 2 ^ 32
    let options := (q.dropWhile isdigit).takeWhile (· ≠ byte '\x7d')
    let transformerReverse := options.contains (byte 'r') || options.contains (byte 'R')
    let delimiterChar := (options.filter isDelimiter).getLastD NUL
    let lalpha := tolower alpha
    let text := getMacro w info lalpha
    let text := if transformerReverse || transformerCount ≠ 0
      then transform text transformerCount transformerReverse delimiterChar else text
    if lalpha ≠ alpha then escape text else text

/-- Where `do_expand` goes on after `%{`. -/
def afterMacro (p : List UInt8) : List UInt8 :=
  (((p.drop 1).dropWhile isdigit).dropWhile (· ≠ byte '\x7d')).drop 1

theorem afterMacro_length_le (p : List UInt8) : (afterMacro p).length ≤ p.length := by
  have hdigits := (List.dropWhile_suffix isdigit (l := p.drop 1)).length_le
  have hoptions := (List.dropWhile_suffix (fun c => decide (c ≠ byte '\x7d'))
    (l := (p.drop 1).dropWhile isdigit)).length_le
  simp only [afterMacro, List.length_drop] at *
  omega

def doExpand (info : Info) (s : List UInt8) : List UInt8 :=
  match s with
  | [] => []
  | [c] => if c = byte '%' then [] else [c]
  | c :: d :: rest =>
    if c ≠ byte '%' then c :: doExpand info (d :: rest)
    else if d = byte '\x7b' then macroText w info rest ++ doExpand info (afterMacro rest)
    else if d = byte '%' then byte '%' :: doExpand info rest
    else if d = byte '_' then SP :: doExpand info rest
    else if d = byte '-' then str "%20" ++ doExpand info rest
    else doExpand info (d :: rest)
  termination_by s.length
  decreasing_by
    all_goals simp only [List.length_cons]
    · omega
    · have := afterMacro_length_le rest
      omega
    · omega
    · omega
    · omega
    · omega

def expand (s : List UInt8) (info : Info) : Run State (Option (List UInt8)) := do
  if ← ask w.malloc then pure (some (doExpand w info s))
  else do
    setErrMsg info.errmsgBufSize w.strerror
    pure none

end Macros

section Addresses
variable (w : World)

def getDualCidrLength (p : List UInt8) : Int :=
  match p.tails.find? fun q => q.take 2 = str "//" with
  | some q => atoi (q.drop 2)
  | none => atoi (p.drop 1) + 12 * 8

def ipCompareLoop : List (UInt8 × UInt8) → Nat → Bool
  | [], _ => true
  | (ca, cb) :: rest, pfix =>
    let bits := min pfix 8
    let m := UInt8.ofNat (255 * 2 ^ (8 - bits))
    if ca &&& m ≠ cb &&& m then false else ipCompareLoop rest (pfix - bits)

def ipCompare (a b : Addr) (pfix : Int) : Bool :=
  if pfix < 0 then false else ipCompareLoop (a.toList.zip b.toList) pfix.toNat

/-- The domain and the number of bits; the domain is none where `strdup` fails. -/
def getDomainPfix (info : Info) (start : List UInt8) : Run State (Option (List UInt8) × Int) := do
  let allocated ← ask w.malloc
  if !allocated then do
    setErrMsg info.errmsgBufSize w.strerror
    pure (none, 128)
  else if charAt start = NUL || charAt start = byte '/' then
    pure (some (afterLast (byte '@') info.mailfrom),
      if charAt start = byte '/' then getDualCidrLength start else 128)
  else
    let domain := if charAt start = byte ':' then start.drop 1 else start
    let p := domain.dropWhile (· ≠ byte '/')
    pure (some (domain.takeWhile (· ≠ byte '/')), if p ≠ [] then getDualCidrLength p else 128)

structure PtrInfo where
  found : Bool
  error : Bool

def checkPtr (name : List UInt8) (addr : Addr) (p : List UInt8) (pinfo : PtrInfo) :
    Run State PtrInfo := do
  if pinfo.found then pure pinfo else
  let (rc, addrs) ← ask (w.a · p)
  if rc > 0 then pure { pinfo with error := true }
  else if rc ≠ 0 then pure pinfo
  else if addrs.contains addr then
    let suffix := p.drop (p.length - name.length)
    let dot := (p.drop (p.length - name.length - 1)).take 1 = [byte '.']
    let found := strcasecmp p name || (name.length < p.length && dot && strcasecmp suffix name)
    pure { pinfo with found := found }
  else pure pinfo

def checkPtrs (name : List UInt8) (addr : Addr) : List (List UInt8) → PtrInfo → Run State PtrInfo
  | [], pinfo => pure pinfo
  | p :: ptrs, pinfo => do
    let pinfo ← checkPtr w name addr p pinfo
    checkPtrs name addr ptrs pinfo

def invalidTcpremoteip (info : Info) : Run State UInt8 := do
  setErrMsg info.errmsgBufSize (str "Invalid tcpremoteip.\n")
  pure SPF_FAIL

def doPtr (name : List UInt8) (info : Info) : Run State UInt8 := do
  let target := if charAt name = byte ':' then name.drop 1 else afterLast (byte '@') info.mailfrom
  match w.aton info.tcpremoteip with
  | none => invalidTcpremoteip info
  | some addr => do
    match ← ask (w.ptr · addr) with
    | .enoent => pure SPF_FAIL
    | .again => pure SPF_ERROR
    | .names ptrs => do
      let pinfo ← checkPtrs w target addr ptrs ⟨false, false⟩
      if pinfo.found then pure SPF_PASS
      else if pinfo.error then do
        setErrMsg info.errmsgBufSize (str "ptr lookup failed.\n")
        pure SPF_UNKNOWN
      else pure SPF_FAIL

def doIpcheck (name : List UInt8) (info : Info) (pfixAdd : Int) : Run State UInt8 := do
  match w.aton info.tcpremoteip with
  | none => invalidTcpremoteip info
  | some addr => do
    if ← ask w.malloc then
      let addrptr := name.drop 4
      let slash := addrptr.contains (byte '/')
      let pfix := if slash then atoi (afterLast (byte '/') addrptr) + pfixAdd else 128
      match w.aton (if slash then beforeLast (byte '/') addrptr else addrptr) with
      | none => pure SPF_FAIL
      | some addrcmp => pure (if ipCompare addr addrcmp pfix then SPF_PASS else SPF_FAIL)
    else do
      setErrMsg info.errmsgBufSize w.strerror
      pure SPF_ERROR

end Addresses

section Mechanisms
variable (w : World)

def included (rc : UInt8) : UInt8 :=
  if rc = SPF_PASS then SPF_PASS
  else if rc = SPF_FAIL || rc = SPF_SOFTFAIL || rc = SPF_NEUTRAL then SPF_FAIL
  else if rc = SPF_ERROR then SPF_ERROR
  else SPF_UNKNOWN

def mechanismInclude (lookup : Info → Run State UInt8) (domainSpec : List UInt8) (info : Info) :
    Run State UInt8 := do
  match ← expand w domainSpec info with
  | none => pure SPF_ERROR
  | some newDomain => do
    let rc ← lookup { info with currentDomain := newDomain }
    pure (included rc)

def mechanismA (start : List UInt8) (info : Info) : Run State UInt8 := do
  let (domainSpec, pfix) ← getDomainPfix w info start
  match domainSpec, w.aton info.tcpremoteip with
  | none, _ => pure SPF_ERROR
  | some _, none => invalidTcpremoteip info
  | some domain, some addr => do
    let (rc, iaptr) ← ask (w.a · domain)
    if rc ≠ 0 then do
      setErrMsg info.errmsgBufSize (str "IP address lookup failed.\n")
      pure SPF_UNKNOWN
    else pure (if iaptr.any (ipCompare addr · pfix) then SPF_PASS else SPF_FAIL)

def mechanismMx (start : List UInt8) (info : Info) : Run State UInt8 := do
  let (domainSpec, pfix) ← getDomainPfix w info start
  match domainSpec, w.aton info.tcpremoteip with
  | none, _ => pure SPF_ERROR
  | some _, none => invalidTcpremoteip info
  | some domain, some addr => do
    let (rc, mxlist) ← ask (w.mxlist · domain)
    if rc ≠ 0 then do
      setErrMsg info.errmsgBufSize (str "DNS MX lookup failed.\n")
      pure SPF_ERROR
    else pure (if (mxlist.filterMap id).any (ipCompare addr · pfix) then SPF_PASS else SPF_FAIL)

def mechanismExists (domainSpec : List UInt8) (info : Info) : Run State UInt8 := do
  match ← expand w domainSpec info with
  | none => pure SPF_ERROR
  | some domain => do
    let (rc, _) ← ask (w.a · domain)
    pure (if rc < 0 then SPF_FAIL else if rc > 0 then SPF_ERROR else SPF_PASS)

def mechanism (lookup : Info → Run State UInt8) (name : List UInt8) (info : Info) :
    Run State UInt8 :=
  if strcasecmp name (str "all") then pure SPF_PASS
  else if strncasecmp name (str "include:") then mechanismInclude w lookup (name.drop 8) info
  else if strncasecmp name (str "a") && [NUL, byte ':', byte '/'].contains (charAt (name.drop 1)) then
    mechanismA w (name.drop 1) info
  else if strncasecmp name (str "mx") && [NUL, byte ':', byte '/'].contains (charAt (name.drop 2)) then
    mechanismMx w (name.drop 2) info
  else if strncasecmp name (str "ip4:") then
    if (name.drop 4).contains (byte ':') then pure SPF_FAIL else doIpcheck w name info (12 * 8)
  else if strncasecmp name (str "ip6:") then doIpcheck w name info 0
  else if strncasecmp name (str "ptr") && [NUL, byte ':'].contains (charAt (name.drop 3)) then
    doPtr w (name.drop 3) info
  else if strncasecmp name (str "exists:") then mechanismExists w (name.drop 7) info
  else pure SPF_FAIL

def setexp (exp : List UInt8) (info : Info) : Run State Unit := do
  match ← ask (w.txt · (exp.take RFC1035_MAXNAMESIZE)) with
  | none => do
    let text := "A DNS lookup error occured while fetching the SPF explanation record."
    setErrMsg info.errmsgBufSize (str text)
  | some txtbuf => do
    let text ← expand w txtbuf info
    setErrMsg info.errmsgBufSize (text.getD w.strerror)

end Mechanisms

section Compute
variable (w : World)

def getWords (record : List UInt8) : List (List UInt8) :=
  (record.splitBy fun c d => isspace c == isspace d).filter fun word => !isspace (charAt word)

def findExp (words : List (List UInt8)) : Option (List UInt8) :=
  words.foldl (fun exp word => if strncasecmp word (str "exp=") then some (word.drop 4) else exp) none

def isPrefixChar (c : UInt8) : Bool := [byte '+', byte '-', byte '?', byte '~'].contains c

/-- `if (exp) setexp(exp, info);` -/
def explain (exp : Option (List UInt8)) (info : Info) : Run State Unit :=
  match exp with
  | some exp => setexp w exp info
  | none => pure ()

def noMatch (lookup : Info → Run State UInt8) (info : Info) (exp redirect : Option (List UInt8)) :
    Run State UInt8 :=
  match redirect with
  | some domainSpec => do
    match ← expand w domainSpec info with
    | none => pure SPF_ERROR
    | some newDomain => lookup { info with currentDomain := newDomain }
  | none => do
    explain w exp info
    pure SPF_NEUTRAL

def spfComputeLoop (lookup : Info → Run State UInt8) (info : Info) (exp : Option (List UInt8)) :
    Option (List UInt8) → List (List UInt8) → Run State UInt8
  | redirect, [] => noMatch w lookup info exp redirect
  | redirect, word :: words =>
    let redirect := if strncasecmp word (str "redirect=") then some (word.drop 9) else redirect
    if word.contains (byte '=') then spfComputeLoop lookup info exp redirect words
    else
      let signed := isPrefixChar (charAt word)
      let name := if signed then word.drop 1 else word
      let prefixChar := if signed then charAt word else byte '+'
      do
        let rc ← mechanism w lookup name info
        if rc = SPF_PASS then do
          explain w (if prefixChar ≠ SPF_PASS then exp else none) info
          pure prefixChar
        else if rc = SPF_FAIL then spfComputeLoop lookup info exp redirect words
        else pure rc

def spfCompute (lookup : Info → Run State UInt8) (words : List (List UInt8)) (info : Info) :
    Run State UInt8 :=
  spfComputeLoop w lookup info (findExp words) none words

def rfc1035SpfCompute (lookup : Info → Run State UInt8) (record : List UInt8) (info : Info) :
    Run State UInt8 := do
  if ← ask w.malloc then spfCompute w lookup (getWords record) info
  else do
    setErrMsg info.errmsgBufSize w.strerror
    pure SPF_ERROR

def begin : Run State Nat := fun s =>
  let number := s.lookupCnt + 1
  some (number, { s with lookupCnt := number, trace := s.trace ++ [.begun number] })

def report (number : Nat) (result : UInt8) : Run State UInt8 := fun s =>
  some (result, { s with trace := s.trace ++ [.reported number result] })

def lookup : Nat → Info → Run State UInt8
  | 0, _ => fun _ => none
  | depth + 1, info => do
    let number ← begin
    if number > 20 then do
      setErrMsg info.errmsgBufSize (str "Maximum of 20 nested SPF queries exceeded.")
      report number SPF_UNKNOWN
    else
      let (c, record) := w.gettxt info.currentDomain
      if c ≠ SPF_PASS then report number c
      else do
        let rc ← rfc1035SpfCompute w (lookup depth) record info
        report number rc

def addressMessage (result : UInt8) : List UInt8 :=
  str "Address " ++ (if result = SPF_PASS then str "passes" else str "does not pass") ++
    str " the Sender Policy Framework"

def fillErrMsg (errmsgBufSize : Nat) (result : UInt8) : Run State Unit := fun s =>
  if s.errmsg = [] then
    (ask w.malloc >>= fun allocated =>
      setErrMsg errmsgBufSize (if allocated then addressMessage result else w.strerror)) s
  else some ((), s)

theorem contains_postmaster (mailfrom : List UInt8) :
    (str "postmaster@" ++ mailfrom).contains (byte '@') = true := by
  rw [List.contains_append]
  rfl

def rfc1035SpfLookup (depth : Nat) (mailfrom : List UInt8)
    (tcpremoteip tcpremotehost helodomain mydomain : Option (List UInt8)) (errmsgBufSize : Nat) :
    Run State UInt8 := do
  modify fun s => { s with lookupCnt := 0, errmsg := if errmsgBufSize = 0 then s.errmsg else [] }
  let tcpremoteip := tcpremoteip.getD []
  let tcpremotehost := tcpremotehost.getD []
  let helodomain := helodomain.getD []
  let mydomain := mydomain.getD []
  if _h : mailfrom.contains (byte '@') then do
    let domain := afterLast (byte '@') mailfrom
    let result ← lookup w depth
      ⟨mailfrom, domain, tcpremoteip, tcpremotehost, helodomain, mydomain, errmsgBufSize⟩
    fillErrMsg w errmsgBufSize result
    pure result
  else do
    if ← ask w.malloc then
      rfc1035SpfLookup depth (str "postmaster@" ++ mailfrom) tcpremoteip tcpremotehost helodomain
        mydomain errmsgBufSize
    else do
      setErrMsg errmsgBufSize w.strerror
      pure SPF_ERROR
  termination_by if mailfrom.contains (byte '@') then 0 else 1
  decreasing_by
    rw [if_pos (contains_postmaster mailfrom), if_neg _h]
    omega

end Compute
end Cone.Spf
