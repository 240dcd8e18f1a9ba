import Detritus.Process.Program
import Detritus.Protocol.Envelope

/-! What is compressed on the way out.

The shipper compresses the dump and those attachments that are texts, and says of each
part in its header whether it did. The headers go by position, the bytes are put in place
by key: `encodings_truthful_iff` says for which envelopes the two agree. -/
namespace Detritus.Client
open Files Process Protocol
variable {e sent : CrashEnvelope}

/-- How a report is compressed on its way. -/
structure ShipConfig where
  dumpCompressionLevel : Int32
  attachmentCompression : Bool

def DEFAULT_COMPRESSION_LEVEL : Int32 := 19

def ShipConfig.default : ShipConfig := ⟨DEFAULT_COMPRESSION_LEVEL, true⟩

/-! ### Which content types -/

/-- White space, as `str::trim` has it. -/
def isWhitespace (c : Char) : Bool :=
  (0x9 ≤ c.toNat ∧ c.toNat ≤ 0xd) ∨ (0x2000 ≤ c.toNat ∧ c.toNat ≤ 0x200a) ∨
    c.toNat ∈ [0x20, 0x85, 0xa0, 0x1680, 0x2028, 0x2029, 0x202f, 0x205f, 0x3000]

/-- `str::trim` -/
def trim (s : List Char) : List Char :=
  ((s.dropWhile isWhitespace).reverse.dropWhile isWhitespace).reverse

/-- A content type without its parameters, in lower case. -/
def baseType (contentType : String) : String :=
  String.ofList ((trim (contentType.toList.takeWhile (· ≠ ';'))).map Char.toLower)

/-- Texts are compressed. Content that is packed already is not, and neither is what is not listed. -/
def shouldCompressContentType (contentType : String) : Bool :=
  let base := baseType contentType
  if base ∈ ["application/zstd", "application/gzip", "application/x-gzip", "application/zip", "application/x-tar",
      "application/octet-stream"] then false
  else if "image/".toList <+: base.toList ∨ "video/".toList <+: base.toList ∨ "audio/".toList <+: base.toList then
    false
  else if "text/".toList <+: base.toList then true
  else base ∈ ["application/json", "application/x-ndjson", "application/yaml", "application/x-yaml",
    "application/xml"]

example : shouldCompressContentType " Text/Plain; charset=utf-8" = true := by decide

/-! ### Compressing an envelope -/

/-- `zstd::encode_all`, at a level. -/
abbrev Compress := Int32 → Bytes → Except IoError Bytes

/-- No two contents are compressed to the same bytes. -/
def Compress.Injective (compress : Compress) : Prop :=
  ∀ level a b c, compress level a = .ok c → compress level b = .ok c → a = b

def PartEncoding.zstd : PartEncoding := ⟨some "zstd"⟩

def PartEncoding.default : PartEncoding := ⟨none⟩

/-- Whether an attachment is compressed. -/
def ShipConfig.compresses (config : ShipConfig) (a : CrashAttachment) : Bool :=
  config.attachmentCompression && shouldCompressContentType a.contentType

/-- New bytes for the first attachment of the key. -/
def replaceBytes (key : String) (bytes : Bytes) : List CrashAttachment → List CrashAttachment
  | [] => []
  | a :: rest => if a.key = key then {a with bytes} :: rest else a :: replaceBytes key bytes rest

/-- The attachments still to be looked at, the local copy of all of them, and the encodings so far. -/
def compressAttachments (compress : Compress) (config : ShipConfig) :
    List CrashAttachment → List CrashAttachment → List PartEncoding →
      Except IoError (List CrashAttachment × List PartEncoding)
  | [], copies, encodings => .ok (copies, encodings)
  | a :: rest, copies, encodings => do
    if config.compresses a then
      let compressed ← compress config.dumpCompressionLevel a.bytes
      compressAttachments compress config rest (replaceBytes a.key compressed copies)
        (encodings ++ [PartEncoding.zstd])
    else compressAttachments compress config rest copies (encodings ++ [PartEncoding.default])

/-- What `post_envelope` hands to the multipart writer. -/
def compressEnvelope (compress : Compress) (config : ShipConfig) (e : CrashEnvelope) :
    Except IoError (CrashEnvelope × EnvelopeEncodings) := do
  let dump ← compress config.dumpCompressionLevel e.dump
  let (attachments, encodings) ← compressAttachments compress config e.attachments e.attachments []
  return (⟨e.metadata, dump, attachments⟩, ⟨PartEncoding.zstd, encodings⟩)

/-! ### Truthful encodings -/

/-- The bytes sent are those that the label says. -/
def Labelled (compress : Compress) (level : Int32) (original : Bytes) (p : PartEncoding) (sent : Bytes) : Prop :=
  if p.contentEncoding = some "zstd" then compress level original = .ok sent else sent = original

/-- A part as its receiver decodes it. -/
def decode (decompress : Bytes → Bytes) (p : PartEncoding) (sent : Bytes) : Bytes :=
  if p.contentEncoding = some "zstd" then decompress sent else sent

theorem Labelled.decode {compress : Compress} {level : Int32} {original sent : Bytes} {p : PartEncoding}
    (h : Labelled compress level original p sent) {decompress : Bytes → Bytes}
    (hd : ∀ b c, compress level b = .ok c → decompress c = b) : Client.decode decompress p sent = original := by
  unfold Labelled at h
  unfold Client.decode
  split at h
  · rw [if_pos ‹_›]
    exact hd _ _ h
  · rw [if_neg ‹_›, h]

/-- The parts of the second envelope are those of the first, as labelled. -/
structure Truthful (compress : Compress) (level : Int32) (e sent : CrashEnvelope) (encodings : EnvelopeEncodings) :
    Prop where
  length : sent.attachments.length = e.attachments.length
  keys : sent.attachments.map CrashAttachment.key = e.attachments.map CrashAttachment.key
  contentTypes : sent.attachments.map CrashAttachment.contentType = e.attachments.map CrashAttachment.contentType
  labels : encodings.attachments.length = e.attachments.length
  dump : Labelled compress level e.dump encodings.dump sent.dump
  attachments : ∀ (i : Nat) a b p, e.attachments[i]? = some a → sent.attachments[i]? = some b →
    encodings.attachments[i]? = some p → Labelled compress level a.bytes p b.bytes

/-- Every part, decoded by its own label, is the original. -/
structure Decodes (decompress : Bytes → Bytes) (e sent : CrashEnvelope) (encodings : EnvelopeEncodings) : Prop where
  dump : decode decompress encodings.dump sent.dump = e.dump
  attachments : ∀ (i : Nat) a b p, e.attachments[i]? = some a → sent.attachments[i]? = some b →
    encodings.attachments[i]? = some p → decode decompress p b.bytes = a.bytes

theorem Truthful.decodes {compress : Compress} {level : Int32} {encodings : EnvelopeEncodings}
    (h : Truthful compress level e sent encodings) {decompress : Bytes → Bytes}
    (hd : ∀ b c, compress level b = .ok c → decompress c = b) : Decodes decompress e sent encodings :=
  ⟨h.dump.decode hd, fun i a b p ha hb hp => (h.attachments i a b p ha hb hp).decode hd⟩

/-! ### Replacing by key -/

section Replace
variable {key : String} (bytes : Bytes) {before : List CrashAttachment}

@[simp] theorem replaceBytes_keys (l : List CrashAttachment) :
    (replaceBytes key bytes l).map CrashAttachment.key = l.map CrashAttachment.key := by
  induction l with
  | nil => rfl
  | cons a rest ih =>
    unfold replaceBytes
    split
    · rfl
    · rw [List.map_cons, List.map_cons, ih]

theorem replaceBytes_append_mem (h : key ∈ before.map CrashAttachment.key) (rest : List CrashAttachment) :
    replaceBytes key bytes (before ++ rest) = replaceBytes key bytes before ++ rest := by
  induction before with
  | nil => cases h
  | cons b before ih =>
    rw [List.cons_append]
    unfold replaceBytes
    split
    · rfl
    · next hb => rw [ih ((List.mem_cons.mp h).resolve_left (Ne.symm hb)), List.cons_append]

theorem replaceBytes_append_notMem (h : key ∉ before.map CrashAttachment.key) (rest : List CrashAttachment) :
    replaceBytes key bytes (before ++ rest) = before ++ replaceBytes key bytes rest := by
  induction before with
  | nil => rfl
  | cons b before ih =>
    rw [List.map_cons, List.mem_cons, not_or] at h
    rw [List.cons_append, replaceBytes, if_neg (Ne.symm h.1), ih h.2, List.cons_append]

/-- An attachment that comes after another of its key keeps its bytes, whatever key is looked for. -/
theorem replaceBytes_later (key : String) {b : CrashAttachment} (rest : List CrashAttachment)
    (h : b.key ∈ before.map CrashAttachment.key) :
    ∃ before' rest', replaceBytes key bytes (before ++ b :: rest) = before' ++ b :: rest' ∧
      before'.map CrashAttachment.key = before.map CrashAttachment.key := by
  by_cases hk : key ∈ before.map CrashAttachment.key
  · exact ⟨_, _, replaceBytes_append_mem bytes hk _, replaceBytes_keys bytes before⟩
  · have hb : b.key ≠ key := fun hb => hk (hb ▸ h)
    refine ⟨before, replaceBytes key bytes rest, ?_, rfl⟩
    rw [replaceBytes_append_notMem bytes hk, replaceBytes, if_neg hb]

end Replace

/-! ### The loop over the attachments -/

/-- What the loop says of an attachment. -/
def ShipConfig.label (config : ShipConfig) (a : CrashAttachment) : PartEncoding :=
  if config.compresses a then PartEncoding.zstd else PartEncoding.default

/-- An attachment and what is sent for it. -/
structure Sent (compress : Compress) (config : ShipConfig) (a b : CrashAttachment) : Prop where
  key : b.key = a.key
  contentType : b.contentType = a.contentType
  bytes : Labelled compress config.dumpCompressionLevel a.bytes (config.label a) b.bytes

section Loop
variable {compress : Compress} {config : ShipConfig} {r : List CrashAttachment × List PartEncoding}
  {encodings : List PartEncoding}

/-- One attachment of the loop, with what comes after it. -/
theorem compressAttachments_cons {a : CrashAttachment} {rest copies : List CrashAttachment}
    (h : compressAttachments compress config (a :: rest) copies encodings = .ok r) :
    ∃ copies', compressAttachments compress config rest copies' (encodings ++ [config.label a]) = .ok r ∧
      (config.compresses a = false ∧ copies' = copies ∨ config.compresses a = true ∧
        ∃ bytes, compress config.dumpCompressionLevel a.bytes = .ok bytes ∧
          copies' = replaceBytes a.key bytes copies) := by
  unfold compressAttachments at h
  unfold ShipConfig.label
  split at h
  · next ha =>
    obtain ⟨bytes, hbytes, h⟩ := of_bind_ok h
    exact ⟨_, by rwa [if_pos ha], .inr ⟨ha, bytes, hbytes, rfl⟩⟩
  · next ha => exact ⟨_, by rwa [if_neg ha], .inl ⟨by simpa using ha, rfl⟩⟩

theorem compressAttachments_labels {rest copies : List CrashAttachment}
    (h : compressAttachments compress config rest copies encodings = .ok r) :
    r.2 = encodings ++ rest.map config.label := by
  induction rest generalizing copies encodings with
  | nil =>
    obtain rfl := Except.ok.inj h
    simp
  | cons a rest ih =>
    obtain ⟨copies', h, -⟩ := compressAttachments_cons h
    rw [ih h, List.map_cons, List.append_assoc, List.singleton_append]

/-- The copies that have been dealt with are `before`, the rest are still the originals. -/
theorem compressAttachments_sent {rest before : List CrashAttachment}
    (hpairs : rest.Pairwise fun a b => config.compresses b = true → a.key ≠ b.key)
    (hbefore : ∀ b ∈ rest, config.compresses b = true → b.key ∉ before.map CrashAttachment.key)
    (h : compressAttachments compress config rest (before ++ rest) encodings = .ok r) :
    ∃ sent, r.1 = before ++ sent ∧ List.Forall₂ (Sent compress config) rest sent := by
  induction rest generalizing before encodings with
  | nil =>
    obtain rfl := Except.ok.inj h
    exact ⟨[], rfl, .nil⟩
  | cons a rest ih =>
    obtain ⟨copies', h, hcopies⟩ := compressAttachments_cons h
    rw [List.pairwise_cons] at hpairs
    -- In both cases one attachment joins those before, under the key of the original.
    suffices hone : ∃ b, copies' = before ++ b :: rest ∧ Sent compress config a b by
      obtain ⟨b, rfl, hb⟩ := hone
      have hnext : ∀ c ∈ rest, config.compresses c = true → c.key ∉ (before ++ [b]).map CrashAttachment.key := by
        intro c hc hcompressed
        rw [List.map_append, List.mem_append, not_or]
        refine ⟨hbefore c (.tail _ hc) hcompressed, ?_⟩
        rw [List.map_singleton, List.mem_singleton, hb.key]
        exact Ne.symm (hpairs.1 c hc hcompressed)
      rw [List.append_cons] at h
      obtain ⟨sent, hr, hsent⟩ := ih hpairs.2 hnext h
      exact ⟨b :: sent, by rw [hr, List.append_assoc]; rfl, .cons hb hsent⟩
    rcases hcopies with ⟨ha, rfl⟩ | ⟨ha, bytes, hbytes, rfl⟩
    · refine ⟨a, rfl, rfl, rfl, ?_⟩
      rw [ShipConfig.label, if_neg (by simp [ha])]
      rfl
    · refine ⟨{a with bytes}, ?_, rfl, rfl, ?_⟩
      · rw [replaceBytes_append_notMem bytes (hbefore a (.head _) ha), replaceBytes, if_pos rfl]
      · rw [ShipConfig.label, if_pos ha]
        exact hbytes

/-- A copy that stands after another of its key stays as it is. -/
theorem compressAttachments_later {rest before after : List CrashAttachment} {b : CrashAttachment}
    (hb : b.key ∈ before.map CrashAttachment.key)
    (h : compressAttachments compress config rest (before ++ b :: after) encodings = .ok r) :
    r.1[before.length]? = some b := by
  induction rest generalizing before after encodings with
  | nil =>
    obtain rfl := Except.ok.inj h
    simp
  | cons a rest ih =>
    obtain ⟨copies', h, ⟨-, rfl⟩ | ⟨-, bytes, -, rfl⟩⟩ := compressAttachments_cons h
    · exact ih hb h
    · obtain ⟨before', after', heq, hkeys⟩ := replaceBytes_later bytes a.key after hb
      have hlength : before'.length = before.length := by
        simpa using congrArg List.length hkeys
      rw [heq] at h
      rw [← hlength]
      exact ih (hkeys ▸ hb) h

theorem compressAttachments_succeeds (htotal : ∀ bytes, ∃ c, compress config.dumpCompressionLevel bytes = .ok c)
    (rest copies : List CrashAttachment) (encodings : List PartEncoding) :
    ∃ r, compressAttachments compress config rest copies encodings = .ok r := by
  induction rest generalizing copies encodings with
  | nil => exact ⟨_, rfl⟩
  | cons a rest ih =>
    unfold compressAttachments
    split
    · obtain ⟨c, hc⟩ := htotal a.bytes
      rw [hc]
      exact ih _ _
    · exact ih _ _

end Loop

/-! ### The whole envelope -/

theorem compressEnvelope_ok {compress : Compress} {config : ShipConfig} {encodings : EnvelopeEncodings}
    (h : compressEnvelope compress config e = .ok (sent, encodings)) :
    compress config.dumpCompressionLevel e.dump = .ok sent.dump ∧ encodings.dump = PartEncoding.zstd ∧
      compressAttachments compress config e.attachments e.attachments [] =
        .ok (sent.attachments, encodings.attachments) := by
  obtain ⟨dump, hdump, h⟩ := of_bind_ok h
  obtain ⟨⟨attachments, labels⟩, hattachments, h⟩ := of_bind_ok h
  obtain ⟨rfl, rfl⟩ := Prod.mk.inj (Except.ok.inj h)
  exact ⟨hdump, rfl, hattachments⟩

theorem forall₂_sent_map {compress : Compress} {config : ShipConfig} {α : Type} {f : CrashAttachment → α}
    (hf : ∀ a b, Sent compress config a b → f b = f a) {l sent : List CrashAttachment}
    (h : List.Forall₂ (Sent compress config) l sent) : sent.map f = l.map f := by
  induction h with
  | nil => rfl
  | cons hab _ ih => rw [List.map_cons, List.map_cons, hf _ _ hab, ih]

theorem compressEnvelope_truthful {compress : Compress} {config : ShipConfig} {encodings : EnvelopeEncodings}
    (hkeys : e.attachments.Pairwise fun a b => config.compresses b = true → a.key ≠ b.key)
    (h : compressEnvelope compress config e = .ok (sent, encodings)) :
    Truthful compress config.dumpCompressionLevel e sent encodings := by
  obtain ⟨hdump, hlabel, h⟩ := compressEnvelope_ok h
  have hlabels : encodings.attachments = e.attachments.map config.label := compressAttachments_labels h
  have hall : compressAttachments compress config e.attachments ([] ++ e.attachments) [] =
      .ok (sent.attachments, encodings.attachments) := h
  obtain ⟨attachments, heq, hsent⟩ := compressAttachments_sent hkeys (fun _ _ _ => List.not_mem_nil) hall
  have heq : sent.attachments = attachments := heq
  rw [← heq] at hsent
  refine ⟨hsent.length_eq.symm, forall₂_sent_map (fun _ _ hab => hab.key) hsent,
    forall₂_sent_map (fun _ _ hab => hab.contentType) hsent, by rw [hlabels, List.length_map], ?_, ?_⟩
  · rw [hlabel]
    exact hdump
  · intro i a b p ha hb hp
    obtain ⟨ha', rfl⟩ := List.getElem?_eq_some_iff.mp ha
    obtain ⟨hb', rfl⟩ := List.getElem?_eq_some_iff.mp hb
    have hlab : p = config.label e.attachments[i] := by
      rw [hlabels, List.getElem?_map, ha] at hp
      exact (Option.some.inj hp).symm
    rw [hlab]
    exact (hsent.get ha' hb').bytes

/-- A byte in front, to have a compression that never fails. -/
def marked : Compress := fun _ bytes => .ok (0 :: bytes)

theorem marked_injective : marked.Injective := by
  intro level a b c ha hb
  exact (List.cons.inj ((Except.ok.inj ha).trans (Except.ok.inj hb).symm)).2

/-- The later of two attachments of one key is sent as it was. -/
theorem marked_later {config : ShipConfig} {e : CrashEnvelope} {i j : Nat} (hi : i < e.attachments.length)
    (hj : j < e.attachments.length) (hij : i < j) (hkey : e.attachments[i].key = e.attachments[j].key) :
    ∃ sent encodings, compressEnvelope marked config e = .ok (sent, encodings) ∧
      sent.attachments[j]? = some e.attachments[j] := by
  have htotal : ∀ bytes, ∃ c, marked config.dumpCompressionLevel bytes = .ok c := fun bytes => ⟨0 :: bytes, rfl⟩
  obtain ⟨⟨sent, encodings⟩, h⟩ :=
    compressAttachments_succeeds htotal e.attachments e.attachments []
  refine ⟨⟨e.metadata, 0 :: e.dump, sent⟩, ⟨PartEncoding.zstd, encodings⟩, ?_, ?_⟩
  · unfold compressEnvelope
    rw [h]
    rfl
  · have hsplit : e.attachments = e.attachments.take j ++ e.attachments[j] :: e.attachments.drop (j + 1) := by
      rw [List.getElem_cons_drop, List.take_append_drop]
    have hbefore : e.attachments[j].key ∈ (e.attachments.take j).map CrashAttachment.key := by
      rw [← hkey]
      exact List.mem_map_of_mem (List.mem_take_iff_getElem.mpr ⟨i, by omega, rfl⟩)
    have hcopies : compressAttachments marked config e.attachments
        (e.attachments.take j ++ e.attachments[j] :: e.attachments.drop (j + 1)) [] = .ok (sent, encodings) := by
      rw [← hsplit]
      exact h
    have hlater := compressAttachments_later hbefore hcopies
    rwa [List.length_take_of_le (by omega)] at hlater

/-- **The encodings are truthful**, under every compression, just when no attachment that is to be compressed
comes after another of its key. -/
theorem encodings_truthful_iff (config : ShipConfig) (e : CrashEnvelope) :
    (∀ compress : Compress, compress.Injective → ∀ sent encodings,
      compressEnvelope compress config e = .ok (sent, encodings) →
        Truthful compress config.dumpCompressionLevel e sent encodings ∧
          ∀ decompress : Bytes → Bytes,
            (∀ b c, compress config.dumpCompressionLevel b = .ok c → decompress c = b) →
              Decodes decompress e sent encodings) ↔
      e.attachments.Pairwise fun a b => config.compresses b = true → a.key ≠ b.key := by
  constructor
  · intro h
    rw [List.pairwise_iff_getElem]
    intro i j hi hj hij hcompressed hkey
    obtain ⟨sent, encodings, hsent, hlater⟩ := marked_later hi hj hij hkey
    have hlabels : encodings.attachments = e.attachments.map config.label :=
      compressAttachments_labels (compressEnvelope_ok hsent).2.2
    have hlabel : encodings.attachments[j]? = some PartEncoding.zstd := by
      rw [hlabels, List.getElem?_map, List.getElem?_eq_getElem hj, Option.map_some, ShipConfig.label,
        if_pos hcompressed]
    have hmarked : marked config.dumpCompressionLevel e.attachments[j].bytes = .ok e.attachments[j].bytes :=
      (h marked marked_injective sent encodings hsent).1.attachments j _ _ _ (List.getElem?_eq_getElem hj)
        hlater hlabel
    exact List.cons_ne_self _ _ (Except.ok.inj hmarked)
  · intro hkeys compress _ sent encodings h
    have htruthful := compressEnvelope_truthful hkeys h
    exact ⟨htruthful, fun decompress hd => htruthful.decodes hd⟩

/-! Two logs under one key. -/

def twoLogs : CrashEnvelope :=
  {CrashEnvelope.abcReport with
    attachments := [⟨"log", "text/plain", [1]⟩, ⟨"log", "text/plain", [2]⟩]}

/-- The first goes out as the second, compressed, and the second uncompressed under the label of a
compressed one. -/
theorem twoLogs_mislabelled : marked.Injective ∧ ∃ sent encodings,
    compressEnvelope marked .default twoLogs = .ok (sent, encodings) ∧
      sent.attachments.map CrashAttachment.bytes = [[0, 2], [2]] ∧
      encodings.attachments.map PartEncoding.contentEncoding = [some "zstd", some "zstd"] ∧
      ¬ Truthful marked DEFAULT_COMPRESSION_LEVEL twoLogs sent encodings := by
  refine ⟨marked_injective, ⟨CrashEnvelope.abcReport.metadata, 0 :: twoLogs.dump,
    [⟨"log", "text/plain", [0, 2]⟩, ⟨"log", "text/plain", [2]⟩]⟩,
    ⟨PartEncoding.zstd, [PartEncoding.zstd, PartEncoding.zstd]⟩, ?_, rfl, rfl, ?_⟩
  · rfl
  · intro h
    have hsecond : marked DEFAULT_COMPRESSION_LEVEL [2] = .ok [2] := h.attachments 1 _ _ _ rfl rfl rfl
    exact absurd hsecond (by decide)

end Detritus.Client
