import Cone.Maildiraclt

/-! # ACL files (`maildir/maildiraclt.c`)

What `maildir_acl_write` puts into the file of a folder, and what `maildir_acl_read_check` makes of
a file.  Files are opened, written and renamed without errors. -/
set_option autoImplicit false
namespace Cone.MaildiracltFile

open Cone.Ctype Cone.Maildiraclt

/-! ## Reading -/

def dropAcls : List (List UInt8) := [byte '-' :: administrators, byte '-' :: groupAdministrators]

/-- The entry gets all rights, and keeps what it has besides. -/
def addAll (list : List Node) (identifier : List UInt8) (oldAcl : Option Aclt) : Int × List Node :=
  let newAcl := acltAdd (acltInit (some aclAll)).2 (oldAcl.getD none)
  if newAcl.1 ≠ 0 then (-1, list)
  else
    let r := listAdd list identifier newAcl.2
    if r.1 ≠ 0 then (-1, r.2) else (0, r.2)

def addDefaultAdmin (list : List Node) : Int × List Node :=
  let r := match listFind list groupAdministrators with
    | some oldAcl => addAll list groupAdministrators (some oldAcl)
    | none => addAll list administrators (listFind list administrators)
  if r.1 ≠ 0 then r else (0, dropAcls.foldl listDel r.2)

def bufsiz : Nat := 8192

/-- `fgets` with room for so many bytes: what it stores, and the rest of the file. -/
def fgets : Nat → List UInt8 → List UInt8 × List UInt8
  | 0, fp => ([], fp)
  | _ + 1, [] => ([], [])
  | n + 1, c :: fp =>
    if c = NL then ([c], fp)
    else
      let r := fgets n fp
      (c :: r.1, r.2)

def splitLine (buffer : List UInt8) : List UInt8 × List UInt8 :=
  let line := buffer.takeWhile fun c => c ≠ NUL && c ≠ NL
  (line.takeWhile (· ≠ SP), (line.dropWhile (· ≠ SP)).dropWhile (· = SP))

/-- The loop over the lines.  What cannot be added is swept under the carpet. -/
def readLines : Nat → List Node → List UInt8 → List Node
  | 0, list, _ => list
  | _ + 1, list, [] => list
  | fuel + 1, list, c :: fp =>
    let r := fgets (bufsiz - 1) (c :: fp)
    let l := splitLine r.1
    readLines fuel (listAdd list l.1 (some l.2)).2 r.2

def aclOwnerDisabled : List UInt8 := ['l', 'r', 's', 'w', 'i', 'c', 'x', 't', 'e'].map byte

def pathOk (path : List UInt8) : Bool := !path.contains (byte '/') && path.head? = some (byte '.')

/-- `maildir_acl_read_check`.  `file` is what the file of the folder holds, if there is one. -/
def aclReadCheck (disabled : Bool) (path : List UInt8) (file : Option (List UInt8)) :
    Int × List Node :=
  let path := if path = [] then [byte '.'] else path
  if pathOk path = false then (-1, [])
  else if disabled then addDefaultAdmin (listAdd [] owner (some aclOwnerDisabled)).2
  else
    match file with
    | some fp => addDefaultAdmin (readLines fp.length [] fp)
    | none =>
      if path = [byte '.'] then addDefaultAdmin (listAdd [] owner (some aclAll)).2 else (1, [])

/-! ## Writing -/

def isOwner (arg : Option (List UInt8)) (isme : List UInt8) : Int :=
  if arg = some isme then 1 else if isme = owner then 1 else 0

def isAdmin (isme : List UInt8) : Int := if isme = administrators then 1 else 0

def checkAdminrights (aclt : Aclt) : Bool :=
  (ascstr aclt).contains aclLookup && (ascstr aclt).contains aclAdminister

def checkAllrights (aclt : Aclt) : Bool := aclAll.all fun c => (ascstr aclt).contains c

def saveAcl (p : Node) : List UInt8 := p.identifier ++ [SP] ++ ascstr p.acl ++ [NL]

/-- A dot that another dot or the end follows. -/
def emptyComponent : List UInt8 → Bool
  | [] => false
  | c :: path =>
    (c = byte '.' && (path.head? = some (byte '.') || path = [])) || emptyComponent path

def checkRights (rights : Except Int Aclt) (check : Aclt → Bool) (name : Option (List UInt8)) :
    Except (Option (List UInt8)) Unit :=
  match rights with
  | .error _ => .error none
  | .ok aclt => if check aclt then .ok () else .error name

/-- `maildir_acl_write`: the text of the file, or `err_failedrights` where it is set. -/
def aclWrite (disabled : Bool) (list : List Node) (path : List UInt8)
    (folderOwner : Option (List UInt8)) : Except (Option (List UInt8)) (List UInt8) := do
  let path := if path = [] then [byte '.'] else path
  if pathOk path = false then throw none
  if path ≠ [byte '.'] ∧ emptyComponent path = true then throw none
  checkRights (computeChkowner (isOwner none) disabled list false) checkAdminrights (some owner)
  match folderOwner with
  | some _ =>
    checkRights (computeChkowner (isOwner folderOwner) disabled list false) checkAdminrights
      folderOwner
  | none => pure ()
  checkRights (aclCompute isAdmin disabled list) checkAllrights none
  return list.flatMap saveAcl

end Cone.MaildiracltFile
