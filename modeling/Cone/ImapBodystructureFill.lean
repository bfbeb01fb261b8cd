import Cone.ImapBodystructureTree

/-! # The tree that is read

`fillbodystructure` reads the list of every body structure, and gets the tree right unless the
structure has a message part with something behind its body. -/
set_option autoImplicit false
namespace Cone.ImapBodystructure

open Cone.Ctype Cone.Lib.Decimal

section Items

@[simp] theorem value_atom (t : Text) : (atom t).value = t := rfl

@[simp] theorem children_atom (t : Text) : (atom t).children = [] := rfl

@[simp] theorem value_nstring (s : Nstring) : (nstring s).value = text s := by
  cases s <;> rfl

@[simp] theorem children_listOrNil (items : List Imapparsefmt) :
    (listOrNil items).children = items := by
  cases items <;> rfl

theorem fill_parameters_encode (pm : ParameterList) (params : List (Text × Text)) (name : Text) :
    fill_parameters pm (params.flatMap fun p => [atom p.1, atom p.2]) name =
      match pm name with
      | some v => some v
      | none => parameter params name := by
  induction params generalizing pm with
  | nil => cases h : pm name <;> simp [fill_parameters, parameter, h]
  | cons p params ih =>
      rw [List.flatMap_cons, List.cons_append, List.cons_append, List.nil_append, fill_parameters,
        ih, value_atom, value_atom, ParameterList.set_simple]
      cases h : pm name with
      | some v => simp
      | none =>
          by_cases hname : name = upper p.1
          · simp [parameter, hname]
          · simp [parameter, hname, Ne.symm hname]

theorem fill_encodeParams (params : List (Text × Text)) (name : Text) :
    fill_parameters (fun _ => none) (encodeParams params).children name =
      parameter params name := by
  rw [encodeParams, children_listOrNil, fill_parameters_encode]

theorem readSize_decimal (n : UInt32) : readSize (decimal n.toNat) = n.toNat := by
  have hdigits : readDigits (decimal n.toNat ++ []) = n.toNat := readDigits_decimal _ (by simp)
  rw [List.append_nil] at hdigits
  have hlt : n.toNat < 2 ^ 32 := n.toNat_lt
  cases hd : decimal n.toNat with
  | nil => exact absurd hd (decimal_ne_nil _)
  | cons c q =>
      have hc : c ∈ decimal n.toNat := by
        rw [hd]
        exact List.mem_cons_self
      obtain ⟨hspace, hminus, hplus⟩ := isdigit_facts c (isdigit_of_mem_decimal hc)
      rw [hd] at hdigits
      rw [readSize, List.dropWhile_cons_of_neg (by rw [hspace]; simp)]
      dsimp only
      rw [if_neg hminus, if_neg hplus, hdigits, SIZE_MAX]
      omega

@[simp] theorem readSize_number (n : UInt32) : readSize (number n).value = n.toNat :=
  readSize_decimal n

end Items

section Own
variable {f : BodyFields} {id n : Text} {m : Fields}

def own (f : BodyFields) (id : Text) : Fields := fill leafSets (encodeFields f) { mime_id := id }

theorem type_own : (own f id).type = upper f.type := rfl

theorem messagerfc822_own : (own f id).messagerfc822 ↔ f.IsMessage := Iff.rfl

theorem fill_disposition_encode (d : Option Disposition)
    (hm : m.content_disposition = [] ∧ m.content_disposition_parameters = fun _ => none) :
    (fill_disposition (encodeDisposition d) m).content_disposition =
      (d.map fun d => d.name).getD [] ∧
    ∀ name, (fill_disposition (encodeDisposition d) m).content_disposition_parameters name =
      parameter ((d.map fun d => d.params).getD []) name := by
  cases d with
  | none => exact ⟨hm.1, fun name => by rw [encodeDisposition]; exact congrFun hm.2 name⟩
  | some d =>
      refine ⟨rfl, ?_⟩
      intro name
      change fill_parameters m.content_disposition_parameters (encodeParams d.params).children name
        = parameter d.params name
      rw [hm.2]
      exact fill_encodeParams d.params name

theorem fill_disposition_eq (ptr : Imapparsefmt) (m : Fields) : ∃ d params,
    fill_disposition ptr m =
      { m with content_disposition := d, content_disposition_parameters := params } := by
  rw [fill_disposition]
  rcases ptr.children with _ | ⟨name, _ | ⟨params, rest⟩⟩ <;> exact ⟨_, _, rfl⟩

theorem fill_lastSets_eq (b : List Imapparsefmt) (m : Fields) : ∃ md5 language d params,
    fill lastSets b m =
      { m with
        content_md5 := md5, content_language := language, content_disposition := d,
        content_disposition_parameters := params } := by
  rcases b with _ | ⟨md5, _ | ⟨ptr, _ | ⟨language, rest⟩⟩⟩
  · exact ⟨_, _, _, _, rfl⟩
  · exact ⟨_, _, _, _, rfl⟩
  · obtain ⟨d, params, heq⟩ := fill_disposition_eq ptr (setMd5 md5 m)
    exact ⟨_, _, _, _, heq⟩
  · obtain ⟨d, params, heq⟩ := fill_disposition_eq ptr (setMd5 md5 m)
    have hfill : fill lastSets (md5 :: ptr :: language :: rest) m =
        setLanguage language (fill_disposition ptr (setMd5 md5 m)) := rfl
    rw [hfill, heq]
    exact ⟨_, _, _, _, rfl⟩

theorem fill_encode1part (ext : Option Extension1part) {m : Fields}
    (hmd5 : m.content_md5 = []) (hlang : m.content_language = [])
    (hd : m.content_disposition = []) (hparams : m.content_disposition_parameters = fun _ => none) :
    (fill lastSets (encode1part ext) m).content_md5 = text (md5Of ext) ∧
      (fill lastSets (encode1part ext) m).content_disposition =
        ((dispositionOf (dispositionExt1 ext)).map fun d => d.name).getD [] ∧
      (∀ name, (fill lastSets (encode1part ext) m).content_disposition_parameters name =
        parameter (((dispositionOf (dispositionExt1 ext)).map fun d => d.params).getD []) name) ∧
      ∀ l, languageOf (dispositionExt1 ext) = some l →
        (fill lastSets (encode1part ext) m).content_language = l := by
  have hnone : ∀ {l : Text}, some [] = some l → m.content_language = l :=
    fun h => hlang.trans (Option.some.inj h)
  rcases ext with _ | ⟨md5, _ | ⟨d, language⟩⟩
  · exact ⟨hmd5, hd, fun name => congrFun hparams name, fun l h => hnone h⟩
  · exact ⟨value_nstring md5, hd, fun name => congrFun hparams name, fun l h => hnone h⟩
  · have hread := fill_disposition_encode (m := setMd5 (nstring md5) m) d ⟨hd, hparams⟩
    obtain ⟨d', params', heq⟩ := fill_disposition_eq (encodeDisposition d) (setMd5 (nstring md5) m)
    have hkept : (fill_disposition (encodeDisposition d) (setMd5 (nstring md5) m)).content_md5 =
        text md5 := by
      rw [heq]
      exact value_nstring md5
    have hlast : (fill_disposition (encodeDisposition d)
        (setMd5 (nstring md5) m)).content_language = [] := by
      rw [heq]
      exact hlang
    rcases language with _ | ⟨_ | ⟨first, rest⟩, others⟩
    · exact ⟨hkept, hread.1, hread.2, fun l h => hlast.trans (Option.some.inj h)⟩
    · rename_i language
      exact ⟨hkept, hread.1, hread.2, fun l h => (value_nstring language).trans (Option.some.inj h)⟩
    · exact ⟨hkept, hread.1, hread.2, nofun⟩

theorem matchesPart_fill {k lines : Nat} (hm : m = { own f id with content_lines := k })
    (b : List Imapparsefmt) (ext : Option Extension1part) :
    MatchesPart f lines ext n (fill lastSets b m) ↔ id = n ∧ k = lines ∧
      (fill lastSets b m).content_md5 = text (md5Of ext) ∧
      (fill lastSets b m).content_disposition =
        ((dispositionOf (dispositionExt1 ext)).map fun d => d.name).getD [] ∧
      (∀ name, (fill lastSets b m).content_disposition_parameters name =
        parameter (((dispositionOf (dispositionExt1 ext)).map fun d => d.params).getD []) name) ∧
      ∀ l, languageOf (dispositionExt1 ext) = some l →
        (fill lastSets b m).content_language = l := by
  obtain ⟨md5, language, d, params, heq⟩ := fill_lastSets_eq b m
  constructor
  · intro h
    have hid := h.mime_id
    have hlines := h.content_lines
    rw [heq, hm] at hid hlines
    exact ⟨hid, hlines, h.content_md5, h.content_disposition, h.content_disposition_parameters,
      h.content_language⟩
  · rintro ⟨rfl, rfl, hmd5, hd, hparams, hlang⟩
    refine ⟨?_, ?_, ?_, ?_, ?_, ?_, ?_, ?_, ?_, hmd5, hd, hparams, hlang⟩
    all_goals rw [heq, hm]
    · rfl
    · rfl
    · rfl
    · exact fun name => fill_encodeParams f.params name
    · exact value_nstring f.id
    · exact value_nstring f.description
    · rfl
    · exact readSize_number f.octets

theorem matchesPart_leaf {lines : Nat} (hm : m = { own f id with content_lines := lines })
    (ext : Option Extension1part) :
    MatchesPart f lines ext n (fill lastSets (encode1part ext) m) ↔ id = n := by
  rw [matchesPart_fill hm]
  refine and_iff_left ⟨rfl, fill_encode1part ext ?_ ?_ ?_ ?_⟩ <;> rw [hm] <;> rfl

theorem parameter_eq_none {params : List (Text × Text)} :
    (∀ name, none = parameter params name) ↔ params = [] := by
  constructor
  · intro h
    cases params with
    | nil => rfl
    | cons p params =>
        have hp := h (upper p.1)
        simp [parameter] at hp
  · rintro rfl name
    rfl

/-- Behind a body, the fields are read from the items in front of theirs. -/
theorem matchesPart_message {lines : UInt32} {body : Imapparsefmt} (hbody : body.value = [])
    (ext : Option Extension1part) :
    MatchesPart f lines.toNat ext n
      (fill lastSets (body :: number lines :: encode1part ext) (setLines body (own f id))) ↔
      id = n ∧ lines = 0 ∧ text (md5Of ext) = [] ∧
        (∀ d, dispositionOf (dispositionExt1 ext) = some d → d.name = [] ∧ d.params = []) ∧
        ∀ l, languageOf (dispositionExt1 ext) = some l → l = [] := by
  have hm : setLines body (own f id) = { own f id with content_lines := 0 } := by
    rw [setLines, hbody]
    rfl
  have hread : (fill lastSets (body :: number lines :: encode1part ext)
        (setLines body (own f id))).content_md5 = [] ∧
      (fill lastSets (body :: number lines :: encode1part ext)
        (setLines body (own f id))).content_disposition = [] ∧
      (fill lastSets (body :: number lines :: encode1part ext)
        (setLines body (own f id))).content_disposition_parameters = (fun _ => none) ∧
      (fill lastSets (body :: number lines :: encode1part ext)
        (setLines body (own f id))).content_language = text (md5Of ext) := by
    cases ext with
    | none => exact ⟨hbody, rfl, rfl, rfl⟩
    | some x => exact ⟨hbody, rfl, rfl, value_nstring x.md5⟩
  obtain ⟨hmd5, hd, hparams, hlang⟩ := hread
  have hlines : 0 = lines.toNat ↔ lines = 0 := by
    rw [eq_comm, ← UInt32.toNat_inj]
    rfl
  rw [matchesPart_fill hm, hmd5, hd, hparams, hlang, hlines, parameter_eq_none]
  cases dispositionOf (dispositionExt1 ext) <;> grind

end Own
section Got
variable (rfc822_parsedt : Text → Int)

def gotEnvelope (e : EnvelopeFields) : Option Envelope :=
  fillenvelope rfc822_parsedt (encodeEnvelope e)

/-- What `mime_id` is for the body of a message. -/
def inner (id : Text) : Text := if id = [] then str "1" else id

def fixup (id : Text) (child : Mimestruct) : Mimestruct :=
  if child.children = [] then child.withId (id ++ str ".1") else child

mutual

def got : Body → Text → Mimestruct
  | .leaf f lines ext, id =>
    .mk (fill lastSets (encode1part ext)
      (if upper f.type = str "TEXT" then setLines (number lines) (own f.toBodyFields id)
        else own f.toBodyFields id)) none []
  | .message f envelope body lines ext, id =>
    .mk (fill lastSets (encode body :: number lines :: encode1part ext)
      (setLines (encode body) (own f.toBodyFields id)))
      (gotEnvelope rfc822_parsedt envelope) [fixup (inner id) (got body (inner id))]
  | .multipart first rest subtype ext, id =>
    .mk (fill multipartSets (atom subtype :: encodeMpart ext)
      { mime_id := id, type := str "MULTIPART", subtype := str "MIXED" }) none
      (got first (partNumber id 1) :: gotAll rest id 2)

def gotAll : List Body → Text → Nat → List Mimestruct
  | [], _, _ => []
  | b :: bs, id, i => got b (partNumber id i) :: gotAll bs id (i + 1)

end

theorem children_encode_ne_nil (b : Body) : (encode b).children ≠ [] := by
  cases b <;> simp [encode, list, Imapparsefmt.children, encodeFields]

theorem value_encode (b : Body) : (encode b).value = [] := by
  cases b <;> rw [encode] <;> rfl

theorem partNumber_eq (id : Text) (i : Nat) :
    (if id = [] then [] else id ++ str ".") ++ decimal i = partNumber id i := by
  rw [partNumber]
  split_ifs <;> simp

theorem fill_leafSets (f : BodyFields) (tail : List Imapparsefmt) (id : Text) :
    fill leafSets (atom f.type :: ([atom f.subtype, encodeParams f.params, nstring f.id,
      nstring f.description, atom f.encoding, number f.octets] ++ tail)) { mime_id := id } =
      own f id := rfl

theorem fillbodystructure_leaf (f : LeafFields) (lines : UInt32) (ext : Option Extension1part)
    (id : Text) : fillbodystructure rfc822_parsedt (encode (.leaf f lines ext)) id =
      some (got rfc822_parsedt (.leaf f lines ext) id) := by
  rw [encode, list, encodeFields, List.cons_append, fillbodystructure, if_pos (children_atom _)]
  dsimp only
  rw [fill_leafSets, if_neg (messagerfc822_own.not.mpr f.leaf), got, type_own]
  by_cases htext : upper f.type = str "TEXT"
  · rw [if_pos htext, if_pos htext, if_pos htext]
    rfl
  · rw [if_neg htext, if_neg htext, if_neg htext]
    rfl

theorem gotEnvelope_isSome (e : EnvelopeFields) :
    ∃ env, fillenvelope rfc822_parsedt (encodeEnvelope e) = some env := ⟨_, rfl⟩

theorem fillbodystructure_message (f : MessageFields) (envelope : EnvelopeFields) (body : Body)
    (lines : UInt32) (ext : Option Extension1part) (id : Text)
    (h : fillbodystructure rfc822_parsedt (encode body) (inner id) =
      some (got rfc822_parsedt body (inner id))) :
    fillbodystructure rfc822_parsedt (encode (.message f envelope body lines ext)) id =
      some (got rfc822_parsedt (.message f envelope body lines ext) id) := by
  rw [encode, list, encodeFields, List.cons_append, fillbodystructure, if_pos (children_atom _)]
  dsimp only
  rw [fill_leafSets, if_pos (messagerfc822_own.mpr f.message), got]
  obtain ⟨env, henv⟩ := gotEnvelope_isSome rfc822_parsedt envelope
  split
  · rename_i none
    exact absurd none (List.cons_ne_nil _ _)
  · rename_i envelope' b more
    obtain ⟨rfl, rfl⟩ := List.cons.inj
      (show encodeEnvelope envelope :: encode body :: number lines :: encode1part ext =
        envelope' :: b from more)
    rw [gotEnvelope, henv]
    dsimp only
    rw [if_neg (children_encode_ne_nil body)]
    rw [show (if id = [] then str "1" else id) = inner id from rfl, h]
    rfl

mutual

theorem fillbodystructure_encode : ∀ (b : Body) (id : Text),
    fillbodystructure rfc822_parsedt (encode b) id = some (got rfc822_parsedt b id)
  | .leaf f lines ext, id => fillbodystructure_leaf rfc822_parsedt f lines ext id
  | .message f envelope body lines ext, id =>
    fillbodystructure_message rfc822_parsedt f envelope body lines ext id
      (fillbodystructure_encode body (inner id))
  | .multipart first rest subtype ext, id => by
    have hfirst := fillbodystructure_encode first (partNumber id 1)
    have hrest := fillparts_encode rest id 2 (atom subtype) (encodeMpart ext) rfl
    rw [encode, list, List.cons_append, fillbodystructure, if_neg (children_encode_ne_nil first),
      fillparts, if_neg (children_encode_ne_nil first), partNumber_eq, hfirst, hrest, got]

theorem fillparts_encode : ∀ (bs : List Body) (id : Text) (i : Nat) (item : Imapparsefmt)
    (b : List Imapparsefmt), item.children = [] →
    fillparts rfc822_parsedt (encodeAll bs ++ item :: b)
        (if id = [] then [] else id ++ str ".") i =
      some (gotAll rfc822_parsedt bs id i, item :: b)
  | [], id, i, item, b, h => by
    rw [encodeAll, List.nil_append, fillparts, if_pos h, gotAll]
  | body :: bs, id, i, item, b, h => by
    have hbody := fillbodystructure_encode body (partNumber id i)
    have hrest := fillparts_encode bs id (i + 1) item b h
    rw [encodeAll, List.cons_append, fillparts, if_neg (children_encode_ne_nil body), partNumber_eq,
      hbody, hrest, gotAll]

end

end Got
section Agrees
variable (rfc822_parsedt : Text → Int) {n id : Text}

theorem fill_disposition_withId (ptr : Imapparsefmt) (m : Fields) (id : Text) :
    fill_disposition ptr { m with mime_id := id } =
      { fill_disposition ptr m with mime_id := id } := by
  rw [fill_disposition, fill_disposition]
  rcases ptr.children with _ | ⟨name, _ | ⟨params, rest⟩⟩ <;> rfl

theorem fill_lastSets_withId (b : List Imapparsefmt) (m : Fields) (id : Text) :
    fill lastSets b { m with mime_id := id } = { fill lastSets b m with mime_id := id } := by
  rcases b with _ | ⟨md5, _ | ⟨ptr, _ | ⟨language, rest⟩⟩⟩
  · rfl
  · rfl
  · exact fill_disposition_withId ptr (setMd5 md5 m) id
  · have hd := fill_disposition_withId ptr (setMd5 md5 m) id
    change setLanguage language (fill_disposition ptr { setMd5 md5 m with mime_id := id }) = _
    rw [hd]
    rfl

theorem withId_got_leaf (f : LeafFields) (lines : UInt32) (ext : Option Extension1part)
    (id' : Text) : (got rfc822_parsedt (.leaf f lines ext) id).withId id' =
      got rfc822_parsedt (.leaf f lines ext) id' := by
  rw [got, got, Mimestruct.withId, ← fill_lastSets_withId]
  split_ifs <;> rfl

theorem partNumber_ne_nil (n : Text) (i : Nat) : partNumber n i ≠ [] := by
  rw [partNumber]
  split_ifs with h
  · exact decimal_ne_nil i
  · simp [h]

theorem dot_one_ne (n : Text) : n ≠ n ++ str ".1" := by
  intro h
  have hlen := congrArg List.length h
  rw [List.length_append] at hlen
  have htwo : (str ".1").length = 2 := rfl
  omega

theorem matches_last {subtype : Text} {params : List (Text × Text)} {tp : ParameterList}
    (htp : ∀ name, tp name = parameter params name) (ext : Option DispositionExt) :
    Matches n (str "MULTIPART") subtype params none none [] 0 0 none ext
      (fill [fill_disposition, setLanguage] (encodeDispositionExt ext)
        { mime_id := id, type := str "MULTIPART", subtype := upper subtype,
          type_parameters := tp }) ↔ id = n := by
  let m : Fields :=
    { mime_id := id, type := str "MULTIPART", subtype := upper subtype, type_parameters := tp }
  rcases ext with _ | ⟨d, language⟩
  · constructor
    · exact fun h => h.mime_id
    · rintro rfl
      exact ⟨rfl, rfl, rfl, htp, rfl, rfl, rfl, rfl, rfl, rfl, rfl, fun _ => rfl,
        fun l h => Option.some.inj h⟩
  · obtain ⟨hname, hparams⟩ := fill_disposition_encode (m := m) d ⟨rfl, rfl⟩
    obtain ⟨d', params', heq⟩ := fill_disposition_eq (encodeDisposition d) m
    rw [heq] at hname hparams
    have hfill : fill [fill_disposition, setLanguage]
        (encodeDispositionExt (some ⟨d, language⟩)) m =
        fill [setLanguage] (encodeLanguageExt language)
          (fill_disposition (encodeDisposition d) m) := rfl
    change Matches _ _ _ _ _ _ _ _ _ _ _ (fill [fill_disposition, setLanguage] _ m) ↔ _
    rw [hfill, heq]
    rcases language with _ | ⟨language | ⟨first, rest⟩, others⟩
    · constructor
      · exact fun h => h.mime_id
      · rintro rfl
        exact ⟨rfl, rfl, rfl, htp, rfl, rfl, rfl, rfl, rfl, rfl, hname, hparams,
          fun l h => Option.some.inj h⟩
    · constructor
      · exact fun h => h.mime_id
      · rintro rfl
        exact ⟨rfl, rfl, rfl, htp, rfl, rfl, rfl, rfl, rfl, rfl, hname, hparams,
          fun l h => (value_nstring language).trans (Option.some.inj h)⟩
    · constructor
      · exact fun h => h.mime_id
      · rintro rfl
        exact ⟨rfl, rfl, rfl, htp, rfl, rfl, rfl, rfl, rfl, rfl, hname, hparams, nofun⟩

theorem matches_multipart (subtype : Text) (ext : Option ExtensionMpart) :
    Matches n (str "MULTIPART") subtype (paramsOf ext) none none [] 0 0 none (dispositionExtM ext)
      (fill multipartSets (atom subtype :: encodeMpart ext)
        { mime_id := id, type := str "MULTIPART", subtype := str "MIXED" }) ↔ id = n := by
  cases ext with
  | none => exact matches_last (fun _ => rfl) none
  | some x => exact matches_last (fill_encodeParams x.params) x.disposition

theorem agrees_fixup (body : Body) (hid : id ≠ [])
    (ih : ∀ n id, (n = [] → body.IsMultipart) →
      (Agrees body n (got rfc822_parsedt body id) ↔ id = n ∧ Fits body)) :
    Agrees body (bodyNumber id body) (fixup id (got rfc822_parsedt body id)) ↔
      ¬ body.IsMessage ∧ Fits body := by
  have hdot : id ++ str ".1" = [] → body.IsMultipart := fun h => by simp [hid] at h
  cases body with
  | leaf f lines ext =>
      have hleaf : ¬ (Body.leaf f lines ext).IsMultipart := fun h => h
      have hno : ¬ (Body.leaf f lines ext).IsMessage := fun h => h
      have hchildren : (got rfc822_parsedt (.leaf f lines ext) id).children = [] := by
        rw [got]
        rfl
      rw [bodyNumber, if_neg hleaf, fixup, if_pos hchildren, withId_got_leaf, ih _ _ hdot]
      exact and_congr_left' (iff_of_true rfl hno)
  | message f envelope body lines ext =>
      have hsingle : ¬ (Body.message f envelope body lines ext).IsMultipart := fun h => h
      have hchildren : (got rfc822_parsedt (.message f envelope body lines ext) id).children ≠ [] := by
        rw [got]
        exact List.cons_ne_nil _ _
      rw [bodyNumber, if_neg hsingle, fixup, if_neg hchildren, ih _ _ hdot]
      exact iff_of_false (fun h => dot_one_ne id h.1) fun h => h.1 trivial
  | multipart first rest subtype ext =>
      have hmulti : (Body.multipart first rest subtype ext).IsMultipart := trivial
      have hno : ¬ (Body.multipart first rest subtype ext).IsMessage := fun h => h
      have hchildren : (got rfc822_parsedt (.multipart first rest subtype ext) id).children ≠ [] := by
        rw [got]
        exact List.cons_ne_nil _ _
      rw [bodyNumber, if_pos hmulti, fixup, if_neg hchildren, ih _ _ fun _ => hmulti]
      exact and_congr_left' (iff_of_true rfl hno)

mutual

theorem agrees_got_iff : ∀ (b : Body) (n id : Text), (n = [] → b.IsMultipart) →
    (Agrees b n (got rfc822_parsedt b id) ↔ id = n ∧ Fits b)
  | .leaf f lines ext, n, id, _ => by
    have hmatch : ∀ {k : Nat} {m : Fields}, m = { own f.toBodyFields id with content_lines := k } →
        (MatchesPart f.toBodyFields k ext n (fill lastSets (encode1part ext) m) ↔ id = n) :=
      fun hm => matchesPart_leaf hm ext
    rw [Agrees, got, Fits, and_true, Mimestruct.fields]
    refine (and_iff_left rfl).trans ?_
    by_cases htext : upper f.type = str "TEXT"
    · rw [if_pos htext, if_pos htext]
      apply hmatch
      rw [setLines, readSize_number]
    · rw [if_neg htext, if_neg htext]
      exact hmatch rfl
  | .message f envelope body lines ext, n, id, hn => by
    have ih := agrees_got_iff body
    have hne : n ≠ [] := hn
    rw [Agrees, got, Fits, Mimestruct.fields, Mimestruct.children,
      matchesPart_message (value_encode body)]
    have hchild : (∃ child, [fixup (inner id) (got rfc822_parsedt body (inner id))] = [child] ∧
        Agrees body (bodyNumber n body) child) ↔
        Agrees body (bodyNumber n body) (fixup (inner id) (got rfc822_parsedt body (inner id))) := by
      simp
    rw [hchild]
    by_cases hid : id = n
    · subst hid
      have hinner : inner id = id := if_neg hne
      rw [hinner, agrees_fixup rfc822_parsedt body hne ih]
      constructor
      · rintro ⟨⟨-, hlines, hmd5, hd, hlang⟩, hmessage, hfits⟩
        exact ⟨rfl, ⟨hlines, hmd5, hd, hlang, hmessage⟩, hfits⟩
      · rintro ⟨-, hbehind, hfits⟩
        exact ⟨⟨rfl, hbehind.lines, hbehind.md5, hbehind.disposition, hbehind.language⟩,
          hbehind.body, hfits⟩
    · exact iff_of_false (fun h => hid h.1.1) fun h => hid h.1
  | .multipart first rest subtype ext, n, id, _ => by
    have hfirst := agrees_got_iff first (partNumber n 1)
    have hrest := agreesAll_got_iff rest n
    rw [Agrees, got, Fits, Mimestruct.fields, Mimestruct.children, matches_multipart]
    by_cases hid : id = n
    · subst hid
      have h₁ := hfirst (partNumber id 1) fun h => absurd h (partNumber_ne_nil id 1)
      have h₂ := hrest 2
      simp only [List.cons.injEq, true_and]
      constructor
      · rintro ⟨child, children, ⟨rfl, rfl⟩, hc, hcs⟩
        exact ⟨(h₁.mp hc).2, h₂.mp hcs⟩
      · rintro ⟨hf, hr⟩
        exact ⟨_, _, ⟨rfl, rfl⟩, h₁.mpr ⟨rfl, hf⟩, h₂.mpr hr⟩
    · exact iff_of_false (fun h => hid h.1) fun h => hid h.1

theorem agreesAll_got_iff : ∀ (bs : List Body) (n : Text) (i : Nat),
    AgreesAll bs n i (gotAll rfc822_parsedt bs n i) ↔ FitsAll bs
  | [], n, i => by simp [AgreesAll, gotAll, FitsAll]
  | b :: bs, n, i => by
    have hb := agrees_got_iff b (partNumber n i) (partNumber n i) fun h =>
      absurd h (partNumber_ne_nil n i)
    have hbs := agreesAll_got_iff bs n (i + 1)
    rw [AgreesAll, gotAll, FitsAll]
    simp only [List.cons.injEq]
    constructor
    · rintro ⟨t, ts, ⟨rfl, rfl⟩, ht, hts⟩
      exact ⟨(hb.mp ht).2, hbs.mp hts⟩
    · rintro ⟨hf, hr⟩
      exact ⟨_, _, ⟨rfl, rfl⟩, hb.mpr ⟨rfl, hf⟩, hbs.mpr hr⟩

end

/-- The tree that is read of a body structure is the right one exactly when the whole message is a
multipart, and of each message part in it nothing stands behind its body, which is no message. -/
theorem fillbodystructure_agrees_iff (b : Body) :
    (∃ t, fillbodystructure rfc822_parsedt (encode b) [] = some t ∧ Agrees b (rootNumber b) t) ↔
      b.IsMultipart ∧ Fits b := by
  have hiff := agrees_got_iff rfc822_parsedt b (rootNumber b) [] (by
    intro h
    by_contra hroot
    rw [rootNumber, if_neg hroot] at h
    cases h)
  have hroot : [] = rootNumber b ↔ b.IsMultipart := by
    rw [rootNumber]
    split_ifs with h
    · exact iff_of_true rfl h
    · exact iff_of_false nofun h
  rw [fillbodystructure_encode, ← hroot, ← hiff]
  constructor
  · rintro ⟨t, ht, hagrees⟩
    cases ht
    exact hagrees
  · intro h
    exact ⟨_, rfl, h⟩

def forwarded : Body :=
  let octets : BodyFields := ⟨str "TEXT", str "PLAIN", [], none, none, str "7BIT", 30⟩
  .multipart
    (.message ⟨⟨str "MESSAGE", str "RFC822", [], none, none, str "7BIT", 99⟩, rfl, rfl⟩
      ⟨none, none, [], [], [], [], [], [], none, none⟩
      (.leaf ⟨octets, fun h => absurd h.1 (by decide)⟩ 3 none) 8 none) [] (str "MIXED") none

/-- The lines of a message are not those of the list. -/
theorem forwarded_not_agrees : ¬ ∀ b : Body, ∃ t,
    fillbodystructure (fun _ => 0) (encode b) [] = some t ∧ Agrees b (rootNumber b) t := by
  intro h
  obtain ⟨t, ht, hagrees⟩ := h forwarded
  rw [fillbodystructure_encode] at ht
  cases ht
  have hfits := ((agrees_got_iff (fun _ => 0) forwarded [] [] fun _ => trivial).mp hagrees).2
  have hlines := hfits.1.1.lines
  exact absurd hlines (by decide)

end Agrees
end Cone.ImapBodystructure
