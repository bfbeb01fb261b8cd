import Cone.ImapBodystructure

/-! # Body structures

What a BODYSTRUCTURE list stands for: a tree of parts, the list that a server sends for it, and the
section numbers of its parts.  A part has an extension field only behind the ones before it. -/
set_option autoImplicit false
namespace Cone.ImapBodystructure

open Cone.Ctype Cone.Lib.Decimal

/-- A string, or `NIL`. -/
abbrev Nstring := Option Text

def text (s : Nstring) : Text := s.getD []

structure AddressFields where
  name : Nstring
  adl : Nstring
  mailbox : Nstring
  host : Nstring

structure EnvelopeFields where
  date : Nstring
  subject : Nstring
  «from» : List AddressFields
  sender : List AddressFields
  replyto : List AddressFields
  «to» : List AddressFields
  cc : List AddressFields
  bcc : List AddressFields
  inreplyto : Nstring
  messageid : Nstring

structure Disposition where
  name : Text
  params : List (Text × Text)

inductive Language where
  | one (s : Nstring)
  | several (first : Text) (rest : List Text)

structure LanguageExt where
  language : Language
  others : List Imapparsefmt

structure DispositionExt where
  disposition : Option Disposition
  language : Option LanguageExt

structure Extension1part where
  md5 : Nstring
  disposition : Option DispositionExt

structure ExtensionMpart where
  params : List (Text × Text)
  disposition : Option DispositionExt

structure BodyFields where
  type : Text
  subtype : Text
  params : List (Text × Text)
  id : Nstring
  description : Nstring
  encoding : Text
  octets : UInt32

def BodyFields.IsMessage (f : BodyFields) : Prop :=
  upper f.type = str "MESSAGE" ∧ upper f.subtype = str "RFC822"

structure LeafFields extends BodyFields where
  leaf : ¬ toBodyFields.IsMessage

structure MessageFields extends BodyFields where
  message : toBodyFields.IsMessage

inductive Body where
  | leaf (f : LeafFields) (lines : UInt32) (ext : Option Extension1part)
  | message (f : MessageFields) (envelope : EnvelopeFields) (body : Body) (lines : UInt32)
    (ext : Option Extension1part)
  | multipart (first : Body) (rest : List Body) (subtype : Text) (ext : Option ExtensionMpart)

section Encode

def atom (t : Text) : Imapparsefmt := .mk false t []

def list (items : List Imapparsefmt) : Imapparsefmt := .mk false [] items

def NIL : Imapparsefmt := .mk true [] []

def nstring : Nstring → Imapparsefmt
  | none => NIL
  | some t => atom t

def listOrNil : List Imapparsefmt → Imapparsefmt
  | [] => NIL
  | items => list items

def encodeParams (params : List (Text × Text)) : Imapparsefmt :=
  listOrNil (params.flatMap fun p => [atom p.1, atom p.2])

def encodeAddress (a : AddressFields) : Imapparsefmt :=
  list [nstring a.name, nstring a.adl, nstring a.mailbox, nstring a.host]

def encodeEnvelope (e : EnvelopeFields) : Imapparsefmt :=
  list [nstring e.date, nstring e.subject, listOrNil (e.from.map encodeAddress),
    listOrNil (e.sender.map encodeAddress), listOrNil (e.replyto.map encodeAddress),
    listOrNil (e.to.map encodeAddress), listOrNil (e.cc.map encodeAddress),
    listOrNil (e.bcc.map encodeAddress), nstring e.inreplyto, nstring e.messageid]

def encodeDisposition : Option Disposition → Imapparsefmt
  | none => NIL
  | some d => list [atom d.name, encodeParams d.params]

def encodeLanguage : Language → Imapparsefmt
  | .one s => nstring s
  | .several first rest => list (atom first :: rest.map atom)

def encodeLanguageExt : Option LanguageExt → List Imapparsefmt
  | none => []
  | some l => encodeLanguage l.language :: l.others

def encodeDispositionExt : Option DispositionExt → List Imapparsefmt
  | none => []
  | some d => encodeDisposition d.disposition :: encodeLanguageExt d.language

def encode1part : Option Extension1part → List Imapparsefmt
  | none => []
  | some x => nstring x.md5 :: encodeDispositionExt x.disposition

def encodeMpart : Option ExtensionMpart → List Imapparsefmt
  | none => []
  | some x => encodeParams x.params :: encodeDispositionExt x.disposition

def number (n : UInt32) : Imapparsefmt := atom (decimal n.toNat)

def encodeFields (f : BodyFields) : List Imapparsefmt :=
  [atom f.type, atom f.subtype, encodeParams f.params, nstring f.id, nstring f.description,
    atom f.encoding, number f.octets]

mutual

def encode : Body → Imapparsefmt
  | .leaf f lines ext =>
    list (encodeFields f.toBodyFields ++
      ((if upper f.type = str "TEXT" then [number lines] else []) ++ encode1part ext))
  | .message f envelope body lines ext =>
    list (encodeFields f.toBodyFields ++
      (encodeEnvelope envelope :: encode body :: number lines :: encode1part ext))
  | .multipart first rest subtype ext =>
    list (encode first :: encodeAll rest ++ atom subtype :: encodeMpart ext)

def encodeAll : List Body → List Imapparsefmt
  | [] => []
  | b :: bs => encode b :: encodeAll bs

end

end Encode

section Sections

def Body.IsMultipart : Body → Prop
  | .multipart .. => True
  | _ => False

def Body.IsMessage : Body → Prop
  | .message .. => True
  | _ => False

instance (b : Body) : Decidable b.IsMultipart := by
  cases b <;> unfold Body.IsMultipart <;> infer_instance

def partNumber (n : Text) (i : Nat) : Text :=
  if n = [] then decimal i else n ++ str "." ++ decimal i

def bodyNumber (n : Text) (body : Body) : Text :=
  if body.IsMultipart then n else n ++ str ".1"

def rootNumber (b : Body) : Text := if b.IsMultipart then [] else str "1"

def parameter (params : List (Text × Text)) (name : Text) : Option Text :=
  (params.find? fun p => upper p.1 = name).map (·.2)

def dispositionOf : Option DispositionExt → Option Disposition
  | none => none
  | some d => d.disposition

def languageOf : Option DispositionExt → Option Text
  | none => some []
  | some d => match d.language with
    | none => some []
    | some l => match l.language with
      | .one s => some (text s)
      | .several .. => none

structure Matches (n type subtype : Text) (params : List (Text × Text)) (id description : Nstring)
    (encoding : Text) (octets lines : Nat) (md5 : Nstring) (ext : Option DispositionExt)
    (m : Fields) : Prop where
  mime_id : m.mime_id = n
  type : m.type = upper type
  subtype : m.subtype = upper subtype
  type_parameters : ∀ name, m.type_parameters name = parameter params name
  content_id : m.content_id = text id
  content_description : m.content_description = text description
  content_transfer_encoding : m.content_transfer_encoding = encoding
  content_size : m.content_size = octets
  content_lines : m.content_lines = lines
  content_md5 : m.content_md5 = text md5
  content_disposition : m.content_disposition =
    ((dispositionOf ext).map fun d => d.name).getD []
  content_disposition_parameters : ∀ name, m.content_disposition_parameters name =
    parameter (((dispositionOf ext).map fun d => d.params).getD []) name
  content_language : ∀ l, languageOf ext = some l → m.content_language = l

def md5Of (ext : Option Extension1part) : Nstring := ext.bind fun x => x.md5

def dispositionExt1 (ext : Option Extension1part) : Option DispositionExt :=
  ext.bind fun x => x.disposition

def dispositionExtM (ext : Option ExtensionMpart) : Option DispositionExt :=
  ext.bind fun x => x.disposition

def paramsOf (ext : Option ExtensionMpart) : List (Text × Text) :=
  (ext.map fun x => x.params).getD []

def MatchesPart (f : BodyFields) (lines : Nat) (ext : Option Extension1part) (n : Text)
    (m : Fields) : Prop :=
  Matches n f.type f.subtype f.params f.id f.description f.encoding f.octets.toNat lines
    (md5Of ext) (dispositionExt1 ext) m

mutual

def Agrees : Body → Text → Mimestruct → Prop
  | .leaf f lines ext, n, t =>
    MatchesPart f.toBodyFields (if upper f.type = str "TEXT" then lines.toNat else 0) ext n
      t.fields ∧ t.children = []
  | .message f _ body lines ext, n, t =>
    MatchesPart f.toBodyFields lines.toNat ext n t.fields ∧
      ∃ child, t.children = [child] ∧ Agrees body (bodyNumber n body) child
  | .multipart first rest subtype ext, n, t =>
    Matches n (str "MULTIPART") subtype (paramsOf ext) none none [] 0 0 none (dispositionExtM ext)
      t.fields ∧
      ∃ child children, t.children = child :: children ∧ Agrees first (partNumber n 1) child ∧
        AgreesAll rest n 2 children

def AgreesAll : List Body → Text → Nat → List Mimestruct → Prop
  | [], _, _, ts => ts = []
  | b :: bs, n, i, ts => ∃ t ts', ts = t :: ts' ∧ Agrees b (partNumber n i) t ∧
    AgreesAll bs n (i + 1) ts'

end

structure NothingBehind (body : Body) (lines : UInt32) (ext : Option Extension1part) : Prop where
  lines : lines = 0
  md5 : text (md5Of ext) = []
  disposition : ∀ d, dispositionOf (dispositionExt1 ext) = some d → d.name = [] ∧ d.params = []
  language : ∀ l, languageOf (dispositionExt1 ext) = some l → l = []
  body : ¬ body.IsMessage

mutual

def Fits : Body → Prop
  | .leaf .. => True
  | .message _ _ body lines ext => NothingBehind body lines ext ∧ Fits body
  | .multipart first rest _ _ => Fits first ∧ FitsAll rest

def FitsAll : List Body → Prop
  | [] => True
  | b :: bs => Fits b ∧ FitsAll bs

end

end Sections
end Cone.ImapBodystructure
