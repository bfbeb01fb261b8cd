import Cone.Lib.Decimal

/-! # The BODYSTRUCTURE reply

`imapFOLDER_COUNT::fillbodystructure` of libmail/imapfolder.C, with the functions it calls, and
the parts of `mail::mimestruct` and `mail::imapparsefmt` they use.  A `mimestruct` that is left half
filled because of an error is nothing here. -/
set_option autoImplicit false
namespace Cone.ImapBodystructure

open Cone.Ctype Cone.Lib.Decimal

abbrev Text := List UInt8

inductive Imapparsefmt where
  | mk (nil : Bool) (value : Text) (children : List Imapparsefmt)

namespace Imapparsefmt

def nil : Imapparsefmt → Bool
  | .mk nil _ _ => nil

def value : Imapparsefmt → Text
  | .mk _ value _ => value

def children : Imapparsefmt → List Imapparsefmt
  | .mk _ _ children => children

end Imapparsefmt

def upper (w : Text) : Text := w.map fun b => if byte 'a' ≤ b ∧ b ≤ byte 'z' then b - 32 else b

/-- `mimestruct::parameterList`: the value of each name. -/
abbrev ParameterList := Text → Option Text

/-- `map::insert` leaves a name that is there as it is. -/
def ParameterList.set_simple (param_map : ParameterList) (name value : Text) : ParameterList :=
  fun n => match param_map n with
    | some v => some v
    | none => if n = upper name then some value else none

structure Address where
  name : Text
  addr : Text
  deriving DecidableEq, Repr

structure Envelope where
  date : Int
  subject : Text
  «from» : List Address
  sender : List Address
  replyto : List Address
  «to» : List Address
  cc : List Address
  bcc : List Address
  inreplyto : Text
  messageid : Text
  deriving DecidableEq, Repr

/-- The fields of a `mimestruct` besides its envelope and its children. -/
structure Fields where
  mime_id : Text := []
  type : Text := []
  subtype : Text := []
  type_parameters : ParameterList := fun _ => none
  content_id : Text := []
  content_description : Text := []
  content_transfer_encoding : Text := []
  content_size : Nat := 0
  content_lines : Nat := 0
  content_md5 : Text := []
  content_language : Text := []
  content_disposition : Text := []
  content_disposition_parameters : ParameterList := fun _ => none

def Fields.messagerfc822 (m : Fields) : Prop := m.type = str "MESSAGE" ∧ m.subtype = str "RFC822"

instance (m : Fields) : Decidable m.messagerfc822 :=
  inferInstanceAs (Decidable (m.type = str "MESSAGE" ∧ m.subtype = str "RFC822"))

inductive Mimestruct where
  | mk (fields : Fields) (envelope : Option Envelope) (children : List Mimestruct)

namespace Mimestruct

def fields : Mimestruct → Fields
  | .mk fields _ _ => fields

def children : Mimestruct → List Mimestruct
  | .mk _ _ children => children

def withId (id : Text) : Mimestruct → Mimestruct
  | .mk fields envelope children => .mk { fields with mime_id := id } envelope children

end Mimestruct

section Envelope

/-- One address of `parse_addr_list`. -/
def parse_addr (address : Imapparsefmt) : Option Address :=
  match address.children with
  | name :: _ :: mailbox :: host :: _ =>
    if host.nil then
      if mailbox.nil then some ⟨str ";", []⟩ else some ⟨mailbox.value ++ str ":", []⟩
    else some ⟨name.value, mailbox.value ++ str "@" ++ host.value⟩
  | _ => none

def parse_addr_list (list : Imapparsefmt) : List Address := list.children.filterMap parse_addr

def fillenvelope (rfc822_parsedt : Text → Int) (imapenvelope : Imapparsefmt) : Option Envelope :=
  match imapenvelope.children with
  | date :: subject :: «from» :: sender :: replyto :: «to» :: cc :: bcc :: inreplyto :: messageid ::
      _ =>
    some ⟨rfc822_parsedt date.value, subject.value, parse_addr_list «from», parse_addr_list sender,
      parse_addr_list replyto, parse_addr_list «to», parse_addr_list cc, parse_addr_list bcc,
      inreplyto.value, messageid.value⟩
  | _ => none

end Envelope

section Fields

def fill_parameters (param_map : ParameterList) : List Imapparsefmt → ParameterList
  | name :: value :: rest =>
    fill_parameters (param_map.set_simple name.value value.value) rest
  | _ => param_map

def fill_type_parameters (ptr : Imapparsefmt) (m : Fields) : Fields :=
  { m with type_parameters := fill_parameters m.type_parameters ptr.children }

def fill_disposition (ptr : Imapparsefmt) (m : Fields) : Fields :=
  match ptr.children with
  | [] => m
  | [name] => { m with content_disposition := name.value }
  | name :: params :: _ =>
    { m with
      content_disposition := name.value
      content_disposition_parameters :=
        fill_parameters m.content_disposition_parameters params.children }

/-- The largest `size_t`. -/
def SIZE_MAX : Nat := 2 ^ 64 - 1

/-- `istringstream(value) >> n` for a `size_t`; text that is no number gives 0. -/
def readSize (value : Text) : Nat :=
  match value.dropWhile isspace with
  | [] => 0
  | c :: q =>
    if c = byte '-' then
      if readDigits q ≤ SIZE_MAX then (2 ^ 64 - readDigits q) % 2 ^ 64 else SIZE_MAX
    else if c = byte '+' then min (readDigits q) SIZE_MAX
    else min (readDigits (c :: q)) SIZE_MAX

def fill (sets : List (Imapparsefmt → Fields → Fields)) (b : List Imapparsefmt) (m : Fields) :
    Fields :=
  (sets.zip b).foldl (fun m setItem => setItem.1 setItem.2 m) m

def setLines (item : Imapparsefmt) (m : Fields) : Fields :=
  { m with content_lines := readSize item.value }

def setMd5 (item : Imapparsefmt) (m : Fields) : Fields := { m with content_md5 := item.value }

def setLanguage (item : Imapparsefmt) (m : Fields) : Fields :=
  { m with content_language := item.value }

def leafSets : List (Imapparsefmt → Fields → Fields) :=
  [fun item m => { m with type := upper item.value },
    fun item m => { m with subtype := upper item.value },
    fill_type_parameters,
    fun item m => { m with content_id := item.value },
    fun item m => { m with content_description := item.value },
    fun item m => { m with content_transfer_encoding := item.value },
    fun item m => { m with content_size := readSize item.value }]

def lastSets : List (Imapparsefmt → Fields → Fields) := [setMd5, fill_disposition, setLanguage]

def multipartSets : List (Imapparsefmt → Fields → Fields) :=
  [fun item m => { m with subtype := upper item.value },
    fill_type_parameters, fill_disposition, setLanguage]

end Fields

section Fill
variable (rfc822_parsedt : Text → Int)

mutual

def fillbodystructure (parser : Imapparsefmt) (mime_id : Text) : Option Mimestruct :=
  match parser with
  | .mk _ _ [] => none
  | .mk _ _ (first :: rest) =>
    if first.children = [] then
      let m := fill leafSets (first :: rest) { mime_id := mime_id }
      let mime_id := if mime_id = [] then str "1" else mime_id
      if m.messagerfc822 then
        match _hb : rest.drop 6 with
        | [] => some (.mk m none [])
        | envelope :: b =>
          match fillenvelope rfc822_parsedt envelope with
          | none => none
          | some env =>
            match b with
            | [] => some (.mk m (some env) [])
            | body :: b =>
              let mime_id := if body.children = [] then mime_id ++ str ".1" else mime_id
              match fillbodystructure body mime_id with
              | none => none
              | some child =>
                let child :=
                  if child.children = [] then child.withId (mime_id ++ str ".1") else child
                -- nothing moves the cursor on from the body
                some (.mk (fill lastSets (body :: b) (setLines body m)) (some env) [child])
      else if m.type = str "TEXT" then
        some (.mk (fill (setLines :: lastSets) (rest.drop 6) m) none [])
      else some (.mk (fill lastSets (rest.drop 6) m) none [])
    else
      match fillparts (first :: rest) (if mime_id = [] then [] else mime_id ++ str ".") 1 with
      | none => none
      | some (parts, b) =>
        some (.mk (fill multipartSets b
          { mime_id := mime_id, type := str "MULTIPART", subtype := str "MIXED" }) none parts)
  termination_by sizeOf parser
  decreasing_by
    · have hmem : body ∈ rest := List.mem_of_mem_drop (i := 6) (by rw [_hb]; simp)
      have := List.sizeOf_lt_of_mem hmem
      simp only [Imapparsefmt.mk.sizeOf_spec, List.cons.sizeOf_spec]
      omega
    · simp only [Imapparsefmt.mk.sizeOf_spec, List.cons.sizeOf_spec]
      omega

def fillparts (b : List Imapparsefmt) (mime_id : Text) (body_num : Nat) :
    Option (List Mimestruct × List Imapparsefmt) :=
  match b with
  | [] => some ([], [])
  | part :: b =>
    if part.children = [] then some ([], part :: b)
    else
      match fillbodystructure part (mime_id ++ decimal body_num) with
      | none => none
      | some child =>
        match fillparts b mime_id (body_num + 1) with
        | none => none
        | some (parts, b) => some (child :: parts, b)
  termination_by sizeOf b

end

end Fill
end Cone.ImapBodystructure
