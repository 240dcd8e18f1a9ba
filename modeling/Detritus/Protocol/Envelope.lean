import Detritus.Protocol.JsonText
import Detritus.Protocol.Crash
import Detritus.Protocol.Multipart

/-! Crash envelopes as multipart bodies.

The writer puts the parts down one after the other. The reader takes whatever parts a
parser hands out, in any order, and keeps the last metadata and the last dump. What was
written is read back, provided that nothing in it can be taken for the frame: no line
break in a header, and no delimiter in a dump or an attachment. -/
namespace Detritus.Protocol
open Files Parsing

/-- An attachment with its bytes. -/
structure CrashAttachment where
  key : String
  contentType : String
  bytes : Bytes
  deriving DecidableEq

/-- A whole report. -/
structure CrashEnvelope where
  metadata : CrashMetadata
  dump : Bytes
  attachments : List CrashAttachment

structure PartEncoding where
  contentEncoding : Option String

/-- How the parts are encoded, in the order of the attachments. -/
structure EnvelopeEncodings where
  dump : PartEncoding
  attachments : List PartEncoding

def EnvelopeEncodings.none : EnvelopeEncodings := ⟨⟨.none⟩, []⟩

/-- Why a body is no report. -/
inductive ProtocolError where
  | json (error : JsonError)
  | multipart (error : MultipartError)
  | missingPart (name : String)
  | invalidPartName
  | invalidMultipart (message : String)
  deriving DecidableEq

/-! ### Writing -/

/-- A delimiter, the headers and the content. -/
def writePart (boundary name contentType : String) (contentEncoding : Option String) (bytes : Bytes) : Bytes :=
  let headers := "Content-Disposition: form-data; name=\"" ++ name ++ "\"\r\nContent-Type: " ++ contentType ++ "\r\n"
  let encoding := contentEncoding.elim "" fun encoding => "Content-Encoding: " ++ encoding ++ "\r\n"
  utf8 ("--" ++ boundary ++ "\r\n") ++ utf8 (headers ++ encoding ++ "\r\n") ++ bytes ++ utf8 "\r\n"

namespace CrashEnvelope

def writeToWithBoundaryAndEncodings (json : SerdeJson) (e : CrashEnvelope) (boundary : String)
    (encodings : EnvelopeEncodings) : Bytes :=
  writePart boundary "metadata" "application/json" none (json.write e.metadata.toJson) ++
    writePart boundary "dump" "application/octet-stream" encodings.dump.contentEncoding e.dump ++
    (e.attachments.zipIdx.flatMap fun (a, i) => writePart boundary ("attach:" ++ a.key) a.contentType
      ((encodings.attachments[i]?).bind (·.contentEncoding)) a.bytes) ++
    utf8 ("--" ++ boundary ++ "--" ++ "\r\n")

def writeToWithBoundary (json : SerdeJson) (e : CrashEnvelope) (boundary : String) : Bytes :=
  e.writeToWithBoundaryAndEncodings json boundary .none

end CrashEnvelope

/-! ### Reading -/

/-- A part that is the dump. -/
def Field.isDump (f : Field) : Bool := f.name = some "dump"

/-- A part that is an attachment. -/
def Field.isAttachment (f : Field) : Bool :=
  match f.name with
  | some name => "attach:".toList <+: name.toList
  | none => false

theorem Field.isAttachment_iff {f : Field} :
    f.isAttachment = true ↔ ∃ name, f.name = some name ∧ "attach:".toList <+: name.toList := by
  unfold Field.isAttachment
  cases f.name with
  | none => simp
  | some name => simp

/-- A dump is no attachment. -/
theorem Field.isAttachment_of_isDump {f : Field} (h : f.isDump = true) : f.isAttachment = false := by
  rw [Field.isAttachment, of_decide_eq_true h]
  decide

/-- What has been read so far. -/
structure EnvelopeParts where
  metadata : Option CrashMetadata
  dump : Option Bytes
  attachments : List CrashAttachment

def Field.read (f : Field) : Except ProtocolError Bytes :=
  match f.failure with
  | some error => .error (.multipart error)
  | none => .ok f.bytes

/-- One part more. -/
def EnvelopeParts.add (json : SerdeJson) (e : EnvelopeParts) (f : Field) : Except ProtocolError EnvelopeParts :=
  match f.name with
  | none => .error .invalidPartName
  | some name => do
    let contentType := f.contentType.getD "application/octet-stream"
    let bytes ← f.read
    if name = "metadata" then
      let metadata ← (json.metadata bytes).mapError .json
      return {e with metadata := some metadata}
    else if name = "dump" then return {e with dump := some bytes}
    else if "attach:".toList <+: name.toList then
      return {e with attachments := e.attachments ++ [⟨String.ofList (name.toList.drop 7), contentType, bytes⟩]}
    else throw (.invalidMultipart name)

section Add
variable (json : SerdeJson) (e : EnvelopeParts) {f : Field} {name : String}

theorem EnvelopeParts.add_metadata {metadata : CrashMetadata} (hn : f.name = some "metadata") (hf : f.failure = none)
    (hj : json.metadata f.bytes = .ok metadata) : add json e f = .ok {e with metadata := some metadata} := by
  unfold add Field.read
  rw [hn, hf]
  show (do let metadata ← (json.metadata f.bytes).mapError ProtocolError.json; _) = _
  rw [hj]
  rfl

theorem EnvelopeParts.add_dump (hn : f.name = some "dump") (hf : f.failure = none) :
    add json e f = .ok {e with dump := some f.bytes} := by
  unfold add Field.read
  rw [hn, hf]
  rfl

theorem EnvelopeParts.add_attach (hn : f.name = some name) (hf : f.failure = none)
    (ha : "attach:".toList <+: name.toList) :
    add json e f = .ok {e with attachments := e.attachments ++
      [⟨String.ofList (name.toList.drop 7), f.contentType.getD "application/octet-stream", f.bytes⟩]} := by
  have hmetadata : name ≠ "metadata" := by
    rintro rfl
    exact absurd ha (by decide)
  have hdump : name ≠ "dump" := by
    rintro rfl
    exact absurd ha (by decide)
  unfold add Field.read
  rw [hn, hf]
  simp only [if_neg hmetadata, if_neg hdump, if_pos ha]
  rfl

end Add

/-- Metadata and dump are required. -/
def EnvelopeParts.finish (e : EnvelopeParts) : Except ProtocolError CrashEnvelope :=
  match e.metadata with
  | none => .error (.missingPart "metadata")
  | some metadata =>
    if metadata.schemaVersion ≠ PROTOCOL_VERSION then
      .error (.invalidMultipart ("schema version " ++ toString metadata.schemaVersion.toNat ++
        " does not match protocol version " ++ toString PROTOCOL_VERSION.toNat))
    else match e.dump with
      | none => .error (.missingPart "dump")
      | some dump => .ok ⟨metadata, dump, e.attachments⟩

/-- The field as `read_from` sees it: its bytes are taken all at once. -/
structure Field.Same (f g : Field) : Prop where
  name : g.name = f.name
  contentType : g.contentType = f.contentType
  bytes : g.bytes = f.bytes
  failure : g.failure = f.failure

/-- The same parts, whatever chunks they come in. -/
structure Multipart.Same (m n : Multipart) : Prop where
  fields : List.Forall₂ Field.Same m.fields n.fields
  failure : n.failure = m.failure

namespace CrashEnvelope

/-- The envelope that the parts of a body make. -/
def readFields (json : SerdeJson) (m : Multipart) : Except ProtocolError CrashEnvelope := do
  let parts ← m.fields.foldlM (EnvelopeParts.add json) ⟨none, none, []⟩
  match m.failure with
  | some error => throw (.multipart error)
  | none => parts.finish

def readFromWithBoundary (json : SerdeJson) (multipart : String → Body → Multipart) (bytes : Bytes)
    (boundary : String) : Except ProtocolError CrashEnvelope :=
  readFields json (multipart boundary ⟨[bytes], false⟩)

end CrashEnvelope

/-- Parts that read the same add the same. -/
theorem EnvelopeParts.add_same (json : SerdeJson) (e : EnvelopeParts) {f g : Field} (h : f.Same g) :
    add json e g = add json e f := by
  unfold add Field.read
  rw [h.name, h.contentType, h.bytes, h.failure]

theorem EnvelopeParts.foldlM_add_same (json : SerdeJson) (e : EnvelopeParts) {fs gs : List Field}
    (h : List.Forall₂ Field.Same fs gs) : gs.foldlM (add json) e = fs.foldlM (add json) e := by
  induction h generalizing e with
  | nil => rfl
  | cons hf _ ih =>
    rw [List.foldlM_cons, List.foldlM_cons, add_same json e hf]
    exact bind_congr ih

/-- The reading does not depend on the chunks. -/
theorem CrashEnvelope.readFields_same (json : SerdeJson) {m n : Multipart} (h : m.Same n) :
    readFields json n = readFields json m := by
  unfold readFields
  rw [EnvelopeParts.foldlM_add_same json _ h.fields, h.failure]

/-! ### The parser -/

/-- Media types as the `mime` crate reads them: what it prints of what it has parsed. -/
structure Mime where
  normal : String → Option String
  plain : ∀ s t, normal s = some t → PlainValue t

/-- A field that a parser hands out for a part. -/
structure Sheet.Taken (mime : Mime) (p : Sheet) (f : Field) : Prop where
  name : f.name = some p.name
  contentType : f.contentType = mime.normal p.contentType
  bytes : f.bytes = p.content
  failure : f.failure = none

/-- A field that a parser hands out for a part, with its encoding. -/
structure Sheet.Read (mime : Mime) (p : Sheet) (f : Field) : Prop extends Sheet.Taken mime p f where
  contentEncoding : f.contentEncoding = p.contentEncoding

/-- A parser for multipart bodies: it reads those of the plain form part by part. A name is in
quotes, and there the standard has no objection to control characters. -/
def Rfc7578 (mime : Mime) (multipart : String → Body → Multipart) : Prop :=
  ∀ boundary (parts : List Sheet), Unbroken boundary → (∀ p ∈ parts, p.Plain boundary) →
    (multipart boundary ⟨[sheets boundary parts], false⟩).failure = none ∧
      List.Forall₂ (Sheet.Taken mime) parts (multipart boundary ⟨[sheets boundary parts], false⟩).fields

/-- A parser that reads what was written with its labels, in whatever pieces it comes. It need not
take control characters in a header, and `multer` does not. -/
def Labelling (mime : Mime) (multipart : String → Body → Multipart) : Prop :=
  ∀ boundary chunks (parts : List Sheet), Unbroken boundary → (∀ p ∈ parts, p.Clear boundary) →
    chunks.flatten = sheets boundary parts → (multipart boundary ⟨chunks, false⟩).failure = none ∧
      List.Forall₂ (Sheet.Read mime) parts (multipart boundary ⟨chunks, false⟩).fields

/-- A parser that reads the plain form and nothing else. -/
def plainParser (mime : Mime) (boundary : String) (body : Body) : Multipart :=
  match parse boundary body.chunks.flatten with
  | none => ⟨[], some ⟨"malformed"⟩⟩
  | some parts =>
    ⟨parts.map fun p => ⟨some p.name, mime.normal p.contentType, p.contentEncoding, [p.content], none⟩, none⟩

/-- The plain parser hands out the parts that were written. -/
theorem plainParser_eq (mime : Mime) {boundary : String} {chunks : List Bytes} {parts : List Sheet}
    (hb : Unbroken boundary) (h : ∀ p ∈ parts, p.Plain boundary) (hchunks : chunks.flatten = sheets boundary parts) :
    plainParser mime boundary ⟨chunks, false⟩ = ⟨parts.map fun p =>
      ⟨some p.name, mime.normal p.contentType, p.asRead.contentEncoding, [p.content], none⟩, none⟩ := by
  unfold plainParser
  dsimp only
  rw [hchunks, parse_sheets hb.cr parts h]
  dsimp only
  rw [List.map_map]
  rfl

theorem plainParser_rfc7578 (mime : Mime) : Rfc7578 mime (plainParser mime) := by
  intro boundary parts hb h
  rw [plainParser_eq mime hb h (by simp)]
  refine ⟨rfl, ?_⟩
  rw [List.forall₂_map_right_iff, List.forall₂_same]
  exact fun p _ => ⟨rfl, rfl, by simp [Field.bytes], rfl⟩

theorem plainParser_labelling (mime : Mime) : Labelling mime (plainParser mime) := by
  intro boundary chunks parts hb h hchunks
  rw [plainParser_eq mime hb (fun p hp => (h p hp).toPlain) hchunks]
  refine ⟨rfl, ?_⟩
  rw [List.forall₂_map_right_iff, List.forall₂_same]
  exact fun p hp => ⟨⟨rfl, rfl, by simp [Field.bytes], rfl⟩, by rw [(h p hp).asRead]⟩

/-! ### Round trip -/

def attachmentSheet (a : CrashAttachment) (label : Option String) : Sheet :=
  ⟨"attach:" ++ a.key, a.contentType, label, a.bytes⟩

/-- The label of the attachment at a place. -/
def labelAt (encodings : EnvelopeEncodings) (i : Nat) : Option String :=
  (encodings.attachments[i]?).bind (·.contentEncoding)

namespace CrashEnvelope

/-- The parts that are written. -/
def sheets (json : SerdeJson) (e : CrashEnvelope) (encodings : EnvelopeEncodings) : List Sheet :=
  ⟨"metadata", "application/json", none, json.write e.metadata.toJson⟩ ::
    ⟨"dump", "application/octet-stream", encodings.dump.contentEncoding, e.dump⟩ ::
    e.attachments.zipIdx.map fun (a, i) => attachmentSheet a (labelAt encodings i)

end CrashEnvelope

/-- A part as it is written is a sheet. -/
theorem writePart_eq (boundary name contentType : String) (contentEncoding : Option String) (bytes : Bytes) :
    writePart boundary name contentType contentEncoding bytes =
      Sheet.bytes boundary ⟨name, contentType, contentEncoding, bytes⟩ := by
  have hcrlf : utf8 "\r\n" = CRLF := by decide
  have hdashes : utf8 ("--" ++ boundary ++ "\r\n") = dashes boundary ++ CRLF := by
    rw [utf8_append, utf8_append, hcrlf]
    rfl
  have hquote : utf8 "\"\r\nContent-Type: " = utf8 "\"" ++ (CRLF ++ utf8 "Content-Type: ") := by decide
  unfold writePart Sheet.bytes Sheet.lines
  rw [hdashes, hcrlf]
  cases contentEncoding with
  | none => simp [utf8_append, hcrlf, hquote]
  | some e => simp [utf8_append, hcrlf, hquote]

/-- So is a report, part by part. -/
theorem CrashEnvelope.write_eq (json : SerdeJson) (e : CrashEnvelope) (boundary : String)
    (encodings : EnvelopeEncodings) : e.writeToWithBoundaryAndEncodings json boundary encodings =
      Protocol.sheets boundary (e.sheets json encodings) := by
  have hend : utf8 ("--" ++ boundary ++ "--" ++ "\r\n") = dashes boundary ++ ([0x2d, 0x2d] ++ CRLF) := by
    rw [utf8_append, utf8_append, utf8_append, List.append_assoc]
    rfl
  unfold writeToWithBoundaryAndEncodings Protocol.sheets sheets
  rw [hend]
  simp only [writePart_eq, List.flatMap_cons, List.flatMap_map, List.append_assoc]
  rfl

/-- Encodings that can be put in a header. -/
structure EnvelopeEncodings.Unbroken (encodings : EnvelopeEncodings) : Prop where
  dump : ∀ e ∈ encodings.dump.contentEncoding, Protocol.Unbroken e
  attachments : ∀ p ∈ encodings.attachments, ∀ e ∈ p.contentEncoding, Protocol.Unbroken e

/-- Metadata that `serde_json` brings back, written on one line. -/
structure SerdeJson.Keeps (json : SerdeJson) (metadata : CrashMetadata) : Prop where
  read : json.metadata (json.write metadata.toJson) = .ok metadata
  cr : 0x0d ∉ json.write metadata.toJson
  lf : 0x0a ∉ json.write metadata.toJson

namespace CrashEnvelope

/-- An envelope whose parts can be told from the frame. -/
structure Framed (mime : Mime) (boundary : String) (e : CrashEnvelope) : Prop where
  version : e.metadata.schemaVersion = PROTOCOL_VERSION
  keys : ∀ a ∈ e.attachments, PlainName a.key
  contentTypes : ∀ a ∈ e.attachments, mime.normal a.contentType = some a.contentType
  dump : ¬ delimiter boundary <:+: e.dump
  attachments : ∀ a ∈ e.attachments, ¬ delimiter boundary <:+: a.bytes

variable {json : SerdeJson} {mime : Mime} {boundary : String} {e : CrashEnvelope} {encodings : EnvelopeEncodings}

theorem plainName_attach {key : String} (h : PlainName key) : PlainName ("attach:" ++ key) := by
  constructor
  all_goals
    rw [String.toList_append, List.mem_append, not_or]
  · exact ⟨by decide, h.quote⟩
  · exact ⟨by decide, h.backslash⟩
  · exact ⟨by decide, h.cr⟩
  · exact ⟨by decide, h.lf⟩

theorem plain_metadata : (PlainName "metadata" ∧ Visible "metadata") ∧ PlainValue "application/json" :=
  ⟨⟨⟨by decide, by decide, by decide, by decide⟩, by decide⟩, by decide, by decide⟩

theorem plain_dump : (PlainName "dump" ∧ Visible "dump") ∧ PlainValue "application/octet-stream" :=
  ⟨⟨⟨by decide, by decide, by decide, by decide⟩, by decide⟩, by decide, by decide⟩

/-- The parts of a framed report can be told apart. -/
theorem sheets_plain (hj : json.Keeps e.metadata) (h : e.Framed mime boundary) (he : encodings.Unbroken) :
    ∀ p ∈ e.sheets json encodings, p.Plain boundary := by
  intro p hp
  rcases List.mem_cons.mp hp with rfl | hp
  · exact ⟨plain_metadata.1.1, plain_metadata.2, by simp, not_infix_of_notMem hj.cr⟩
  rcases List.mem_cons.mp hp with rfl | hp
  · exact ⟨plain_dump.1.1, plain_dump.2, he.dump, h.dump⟩
  obtain ⟨⟨a, i⟩, ha, rfl⟩ := List.mem_map.mp hp
  have ha : a ∈ e.attachments := (List.mem_zipIdx' ha).2 ▸ List.getElem_mem _
  refine ⟨plainName_attach (h.keys a ha), mime.plain _ _ (h.contentTypes a ha), ?_, h.attachments a ha⟩
  intro encoding hencoding
  obtain ⟨p, hp, hpe⟩ := Option.bind_eq_some_iff.mp hencoding
  exact he.attachments p (List.mem_of_getElem? hp) encoding hpe

/-- An envelope that can be sent: its keys have no control characters either. -/
structure Presentable (mime : Mime) (boundary : String) (e : CrashEnvelope) : Prop extends Framed mime boundary e where
  visible : ∀ a ∈ e.attachments, Visible a.key

theorem visible_attach {key : String} (h : Visible key) : Visible ("attach:" ++ key) := by
  intro c hc
  rw [String.toList_append, List.mem_append] at hc
  rcases hc with hc | hc
  · exact (by decide : Visible "attach:") c hc
  · exact h c hc

theorem sheets_clear (hj : json.Keeps e.metadata) (h : e.Presentable mime boundary)
    (hdump : ∀ label ∈ encodings.dump.contentEncoding, PlainValue label)
    (hattachments : ∀ p ∈ encodings.attachments, ∀ label ∈ p.contentEncoding, PlainValue label) :
    ∀ p ∈ e.sheets json encodings, p.Clear boundary := by
  have hunbroken : encodings.Unbroken := ⟨fun label hlabel => (hdump label hlabel).visible.unbroken,
    fun p hp label hlabel => (hattachments p hp label hlabel).visible.unbroken⟩
  have hplain := sheets_plain hj h.toFramed hunbroken
  intro p hp
  have hp' := hplain p hp
  rcases List.mem_cons.mp hp with rfl | hp
  · exact ⟨hp', plain_metadata.1.2, fun label hlabel => by cases hlabel⟩
  rcases List.mem_cons.mp hp with rfl | hp
  · exact ⟨hp', plain_dump.1.2, hdump⟩
  obtain ⟨⟨a, i⟩, ha, rfl⟩ := List.mem_map.mp hp
  have ha : a ∈ e.attachments := (List.mem_zipIdx' ha).2 ▸ List.getElem_mem _
  refine ⟨hp', visible_attach (h.visible a ha), fun label hlabel => ?_⟩
  obtain ⟨p, hp, hpe⟩ := Option.bind_eq_some_iff.mp hlabel
  exact hattachments p (List.mem_of_getElem? hp) label hpe

/-- An attachment is read back from its sheet. -/
theorem add_attachment {a : CrashAttachment} {label : Option String} {f : Field} (s : EnvelopeParts)
    (hmime : mime.normal a.contentType = some a.contentType) (hf : (attachmentSheet a label).Taken mime f) :
    EnvelopeParts.add json s f = .ok {s with attachments := s.attachments ++ [a]} := by
  have hkey : String.ofList (("attach:" ++ a.key).toList.drop 7) = a.key := by
    rw [String.toList_append, show 7 = "attach:".toList.length by decide, List.drop_left, String.ofList_toList]
  have htype : f.contentType.getD "application/octet-stream" = a.contentType := by
    rw [hf.contentType]
    exact congrArg (Option.getD · _) hmime
  have hname : f.name = some ("attach:" ++ a.key) := hf.name
  have hbytes : f.bytes = a.bytes := hf.bytes
  rw [EnvelopeParts.add_attach json s hname hf.failure (by simp), hkey, htype, hbytes]

/-- Attachments are taken up one by one. -/
theorem foldlM_add_attachments {attachments : List CrashAttachment} {n : Nat} {fields : List Field} (s : EnvelopeParts)
    (hmime : ∀ a ∈ attachments, mime.normal a.contentType = some a.contentType)
    (h : List.Forall₂ (fun x : CrashAttachment × Nat => (attachmentSheet x.1 (labelAt encodings x.2)).Taken mime)
      (attachments.zipIdx n) fields) :
    fields.foldlM (EnvelopeParts.add json) s = .ok {s with attachments := s.attachments ++ attachments} := by
  induction attachments generalizing s n fields with
  | nil =>
    cases h
    simp
    rfl
  | cons a attachments ih =>
    obtain ⟨f, fields, hf, hrest, rfl⟩ := List.forall₂_cons_left_iff.mp h
    rw [List.foldlM_cons, add_attachment s (hmime a (.head _)) hf]
    show fields.foldlM (EnvelopeParts.add json) _ = _
    rw [ih _ (fun a ha => hmime a (.tail _ ha)) hrest]
    simp

/-- A report is read back from its parts. -/
theorem readFields_of_parts {m : Multipart} (hj : json.Keeps e.metadata) (h : e.Framed mime boundary)
    (hm : m.failure = none)
    (hf : List.Forall₂ (Sheet.Taken mime) (e.sheets json encodings) m.fields) : readFields json m = .ok e := by
  obtain ⟨metadata, rest, hmetadata, hrest, hfields⟩ := List.forall₂_cons_left_iff.mp hf
  obtain ⟨dump, attachments, hdump, hattachments, rfl⟩ := List.forall₂_cons_left_iff.mp hrest
  have hfirst : EnvelopeParts.add json ⟨none, none, []⟩ metadata = .ok ⟨some e.metadata, none, []⟩ := by
    apply EnvelopeParts.add_metadata json _ hmetadata.name hmetadata.failure
    rw [hmetadata.bytes, hj.read]
  have hsecond : EnvelopeParts.add json ⟨some e.metadata, none, []⟩ dump = .ok ⟨some e.metadata, some e.dump, []⟩ := by
    rw [EnvelopeParts.add_dump json _ hdump.name hdump.failure, hdump.bytes]
  have hall : m.fields.foldlM (EnvelopeParts.add json) ⟨none, none, []⟩ =
      .ok ⟨some e.metadata, some e.dump, e.attachments⟩ := by
    rw [hfields, List.foldlM_cons, hfirst]
    show (dump :: attachments).foldlM (EnvelopeParts.add json) _ = _
    rw [List.foldlM_cons, hsecond]
    exact foldlM_add_attachments _ h.contentTypes (List.forall₂_map_left_iff.mp hattachments)
  unfold readFields
  rw [hall]
  show (match m.failure with | some error => _ | none => _) = _
  rw [hm]
  simp [EnvelopeParts.finish, h.version]

/-- **An envelope that was written is read back**, whatever encodings its parts are given, as long
as these have no line break. -/
theorem read_write {multipart : String → Body → Multipart} (hp : Rfc7578 mime multipart) (hb : Unbroken boundary)
    (hj : json.Keeps e.metadata) (h : e.Framed mime boundary) :
    readFromWithBoundary json multipart (e.writeToWithBoundary json boundary) boundary = .ok e ∧
      ∀ encodings : EnvelopeEncodings, encodings.Unbroken →
        readFromWithBoundary json multipart (e.writeToWithBoundaryAndEncodings json boundary encodings) boundary =
          .ok e := by
  have hall : ∀ encodings : EnvelopeEncodings, encodings.Unbroken →
      readFromWithBoundary json multipart (e.writeToWithBoundaryAndEncodings json boundary encodings) boundary =
        .ok e := by
    intro encodings he
    obtain ⟨hm, hf⟩ := hp _ _ hb (sheets_plain hj h he)
    rw [← write_eq] at hm hf
    exact readFields_of_parts hj h hm hf
  exact ⟨hall .none ⟨by simp [EnvelopeEncodings.none], by simp [EnvelopeEncodings.none]⟩, hall⟩

/-! A report on bytes `abc`, with two attachments under one key. -/

/-- The media types that are used here. -/
def fewTypes : Mime where
  normal s := if s = "text/plain" ∨ s = "application/json" ∨ s = "application/octet-stream" then some s else none
  plain := by
    intro s t h
    split at h
    · next hs =>
      obtain rfl := Option.some.inj h
      rcases hs with rfl | rfl | rfl <;> exact ⟨by decide, by decide⟩
    · exact absurd h (by simp)

def abcReport : CrashEnvelope where
  metadata := ⟨PROTOCOL_VERSION, ⟨"app", "linux", "1.0.0", .repeated 0x11⟩,
    ⟨.afterNewYear, 3, 4, 5, 0⟩, .minidump, ⟨"", "", ""⟩, none, .null, []⟩
  dump := utf8 "abc"
  attachments := [⟨"log", "text/plain", utf8 "one\r\n--"⟩, ⟨"log", "text/plain", []⟩]

def abcJson : SerdeJson :=
  ⟨JsonText.print .compact 0, JsonText.print .pretty 0, JsonText.read, fun _ => .ok abcReport.metadata⟩

theorem abcJson_keeps : abcJson.Keeps abcReport.metadata := ⟨rfl, by decide +kernel, by decide +kernel⟩

theorem abcReport_framed : abcReport.Framed fewTypes "X" := by
  refine ⟨rfl, ?_, ?_, by decide +kernel, ?_⟩
  · intro a ha
    rw [show a.key = "log" by revert a; decide +kernel]
    exact ⟨by decide, by decide, by decide, by decide⟩
  · decide +kernel
  · decide +kernel

theorem read_write_abc : Rfc7578 fewTypes (plainParser fewTypes) ∧ Unbroken "X" ∧ abcJson.Keeps abcReport.metadata ∧
    abcReport.Framed fewTypes "X" ∧
    readFromWithBoundary abcJson (plainParser fewTypes) (abcReport.writeToWithBoundary abcJson "X") "X" =
      .ok abcReport :=
  ⟨plainParser_rfc7578 fewTypes, ⟨by decide, by decide⟩, abcJson_keeps, abcReport_framed,
    (read_write (plainParser_rfc7578 fewTypes) ⟨by decide, by decide⟩ abcJson_keeps abcReport_framed).1⟩

/-- An encoding that ends the header early. -/
def brokenEncodings : EnvelopeEncodings := ⟨⟨some "x\r\n\r\nX"⟩, []⟩

/-- The rest of that encoding is then taken for the start of the dump. -/
theorem brokenEncodings_not_read : Rfc7578 fewTypes (plainParser fewTypes) ∧ Unbroken "X" ∧
    abcJson.Keeps abcReport.metadata ∧ abcReport.Framed fewTypes "X" ∧
    readFromWithBoundary abcJson (plainParser fewTypes)
      (abcReport.writeToWithBoundaryAndEncodings abcJson "X" brokenEncodings) "X" ≠ .ok abcReport := by
  refine ⟨plainParser_rfc7578 fewTypes, ⟨by decide, by decide⟩, abcJson_keeps, abcReport_framed, ?_⟩
  have hdump : (readFromWithBoundary abcJson (plainParser fewTypes)
      (abcReport.writeToWithBoundaryAndEncodings abcJson "X" brokenEncodings) "X").toOption.map dump =
      some (utf8 "X\r\n\r\nabc") := by decide +kernel
  intro h
  rw [h] at hdump
  exact absurd hdump (by decide +kernel)

end CrashEnvelope

end Detritus.Protocol
