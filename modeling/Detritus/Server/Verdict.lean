import Detritus.Server.Agreement

/-! The crash endpoint without its effects.

`verdict` is what the endpoint says of a body: a function of the parts, the token, the
limiter's answer and the registered schema. `pointers` is what its index says of the
parts: a function of the parts and of the blobs that are there. -/
namespace Detritus.Server
open Files Protocol Process
variable {taken taken' : Option Bytes × List CrashAttachment} {f : Field} {max : Nat} {a : CrashAttachment}

/-! ### The verdict -/

/-- Bytes that have come in, with the error that ended them, against a limit. -/
def limited (max : Nat) (failure : Option MultipartError) (bytes : Bytes) : Except CrashError Bytes :=
  if max < bytes.length then .error (.payloadTooLarge max)
  else match failure with
    | some error => .error (.multipart error)
    | none => .ok bytes

/-- The dump and the attachments so far, and one part more. -/
def takePart (max : Nat) (taken : Option Bytes × List CrashAttachment) (f : Field) :
    Except CrashError (Option Bytes × List CrashAttachment) :=
  match f.name with
  | none => .error (.badRequest "multipart part is missing a name")
  | some name =>
    if name = "metadata" then .error (.badRequest "metadata part must appear exactly once")
    else if name = "dump" then
      if taken.1.isSome then .error (.badRequest "dump part must appear exactly once")
      else (limited max f.failure f.bytes).map fun bytes => (some bytes, taken.2)
    else if "attach:".toList <+: name.toList then
      (limited max f.failure f.bytes).map fun bytes => (taken.1, taken.2 ++
        [⟨String.ofList (name.toList.drop 7), f.contentType.getD "application/octet-stream", bytes⟩])
    else .error (.badRequest ("unexpected part `" ++ name ++ "`"))

/-- The report that a body is, or why it is refused. -/
def verdict (C : Crates) (state : AppState) (token : TokenContext) (admits : SourceKey → Bool) (m : Multipart) :
    Except CrashError CrashEnvelope := do
  let (metadata, fields) ← readFirst C m
  let source ← admitSource token metadata
  if !admits source then throw .rateLimited
  else match state.schemaRegistry.validate metadata.source.project .crashMetadata metadata.toJson with
    | .error error => throw (.fromSchemaError error)
    | .ok () =>
      let (dump, attachments) ← fields.foldlM (takePart state.maxDumpBytes) (none, [])
      match m.failure with
      | some error => throw (.multipart error)
      | none => match dump with
        | none => throw (.missingPart "dump")
        | some dump => return ⟨metadata, dump, attachments⟩

/-! ### Parts -/

/-- The attachment that a part is. -/
def attachmentOf (f : Field) : Option CrashAttachment :=
  if f.isAttachment then some ⟨attachKey f, f.contentType.getD "application/octet-stream", f.bytes⟩ else none

/-- A part that has come whole and within a limit. -/
structure Whole (max : Nat) (f : Field) : Prop where
  failure : f.failure = none
  size : f.bytes.length ≤ max

/-- The bytes pass if they ended well and are not too many. -/
theorem limited_ok_iff {failure : Option MultipartError} {bytes b : Bytes} :
    limited max failure bytes = .ok b ↔ failure = none ∧ bytes.length ≤ max ∧ b = bytes := by
  unfold limited
  by_cases h : max < bytes.length
  · rw [if_pos h]
    exact ⟨fun he => (by cases he), fun hb => absurd h (Nat.not_lt.mpr hb.2.1)⟩
  · rw [if_neg h]
    cases failure with
    | some error => exact ⟨fun he => (by cases he), fun hb => (by cases hb.1)⟩
    | none => exact ⟨fun he => ⟨rfl, Nat.not_lt.mp h, (Except.ok.inj he).symm⟩, fun hb => hb.2.2 ▸ rfl⟩

theorem limited_map_ok_iff {β : Type} {g : Bytes → β} {b : β} :
    (limited max f.failure f.bytes).map g = .ok b ↔ Whole max f ∧ b = g f.bytes := by
  cases hl : limited max f.failure f.bytes with
  | error e =>
    constructor
    · intro h
      cases h
    · intro ⟨hf, _⟩
      rw [limited_ok_iff.mpr ⟨hf.failure, hf.size, rfl⟩] at hl
      cases hl
  | ok bytes =>
    obtain ⟨hfailure, hsize, rfl⟩ := limited_ok_iff.mp hl
    constructor
    · intro h
      exact ⟨⟨hfailure, hsize⟩, (Except.ok.inj h).symm⟩
    · intro ⟨_, h⟩
      rw [h]
      rfl

theorem isAttachment_iff : f.isAttachment = true ↔ ∃ a, attachmentOf f = some a := by
  unfold attachmentOf
  cases f.isAttachment <;> simp

/-- A part, put with those before. -/
def keepPart (f : Field) (bytes : Bytes) (taken : Option Bytes × List CrashAttachment) :
    Option Bytes × List CrashAttachment :=
  if f.isDump then (some bytes, taken.2)
  else (taken.1, taken.2 ++ [⟨attachKey f, f.contentType.getD "application/octet-stream", bytes⟩])

/-- Parts are refused here for the reasons of the loop over them, and for their size or their end. -/
theorem takePart_eq : takePart max taken f = match refusal taken.1.isSome f with
    | some e => .error e
    | none => (limited max f.failure f.bytes).map fun bytes => keepPart f bytes taken := by
  unfold takePart refusal keepPart Field.isDump attachKey
  cases hname : f.name with
  | none => rfl
  | some name =>
    dsimp only
    by_cases hmetadata : name = "metadata"
    · simp only [if_pos hmetadata]
    by_cases hdump : name = "dump"
    · cases taken.1 <;> simp [hdump]
    by_cases hattach : "attach:".toList <+: name.toList
    · simp only [if_neg hmetadata, if_neg hdump, if_pos hattach]
      simp [hdump]
    · simp only [if_neg hmetadata, if_neg hdump, if_neg hattach]

/-- What is taken: a first dump, or an attachment. -/
theorem takePart_ok_iff :
    takePart max taken f = .ok taken' ↔ Whole max f ∧
      ((f.isDump = true ∧ taken.1 = none ∧ taken' = (some f.bytes, taken.2)) ∨
        ∃ a, attachmentOf f = some a ∧ taken' = (taken.1, taken.2 ++ [a])) := by
  rw [takePart_eq]
  cases hrefusal : refusal taken.1.isSome f with
  | some e =>
    have hnot : ¬ Storable taken.1.isSome f := fun h => by
      rw [refusal_eq_none_iff.mpr h] at hrefusal
      cases hrefusal
    refine ⟨fun h => (by cases h), ?_⟩
    rintro ⟨-, ⟨hdump, hnone, -⟩ | ⟨a, ha, -⟩⟩
    · exact absurd (.inl ⟨hdump, by rw [hnone]; rfl⟩) hnot
    · exact absurd (.inr (isAttachment_iff.mpr ⟨a, ha⟩)) hnot
  | none =>
    have hf := refusal_eq_none_iff.mp hrefusal
    rw [limited_map_ok_iff]
    refine and_congr_right fun _ => ?_
    unfold keepPart attachmentOf
    by_cases hdump : f.isDump = true
    · have hnone : taken.1 = none := by simpa using hf.first hdump
      simp [hdump, Field.isAttachment_of_isDump hdump, hnone]
    · simp [hdump, hf.attachment hdump]

theorem isDump_of_attachment (h : attachmentOf f = some a) : f.isDump = false := by
  by_contra hdump
  have his := isAttachment_iff.mpr ⟨a, h⟩
  rw [Field.isAttachment_of_isDump (Bool.eq_true_of_not_eq_false hdump)] at his
  cases his

theorem attachmentOf_eq (h : attachmentOf f = some a) :
    a = ⟨attachKey f, f.contentType.getD "application/octet-stream", f.bytes⟩ := by
  unfold attachmentOf at h
  split at h
  · exact (Option.some.inj h).symm
  · cases h

theorem attachmentOf_name (h : attachmentOf f = some a) :
    ∃ name, f.name = some name ∧ "attach:".toList <+: name.toList :=
  Field.isAttachment_iff.mp (isAttachment_iff.mpr ⟨a, h⟩)

/-! ### What is stored -/

/-- The digests whose blob is there. -/
def knows (P : StoragePaths) (d : Disk) (s : Sha256) : Bool := d.occupied (P.blobPath s.hex)

/-- The pointer to a part, where some blobs are there already. -/
def blobPointer (C : Crates) (P : StoragePaths) (known : Sha256 → Bool) (f : Field) : BlobPointer where
  sha256 := (C.sha256 f.bytes).hex
  len := f.bytes.length
  path := Path.display (P.relativeToDataDir (P.blobPath (C.sha256 f.bytes).hex))
  dedup := known (C.sha256 f.bytes)
  contentEncoding := f.contentEncoding

/-- A part in its place, and the blobs that are there then. -/
def pointTo (C : Crates) (P : StoragePaths) (known : Sha256 → Bool) (f : Field)
    (r : Option BlobPointer × List AttachmentPointer) : Option BlobPointer × List AttachmentPointer :=
  if f.isDump then (some (blobPointer C P known f), r.2)
  else (r.1, r.2 ++ [attachmentPointer (attachKey f) f (blobPointer C P known f)])

/-- The pointers to parts, each stored after those before it. -/
def pointers (C : Crates) (P : StoragePaths) : (Sha256 → Bool) → List Field →
    Option BlobPointer × List AttachmentPointer → Option BlobPointer × List AttachmentPointer
  | _, [], r => r
  | known, f :: rest, r =>
    pointers C P (fun s => known s || s = C.sha256 f.bytes) rest (pointTo C P known f r)

section Kept
variable {C : Crates}

/-- What was taken, as an index has it. -/
abbrev Kept (C : Crates) (r : Option BlobPointer × List AttachmentPointer)
    (taken : Option Bytes × List CrashAttachment) : Prop :=
  Mirrors C r.1 r.2 ⟨none, taken.1, taken.2⟩

/-- One part more, on both sides. -/
theorem Kept.pointTo (P : StoragePaths) (known : Sha256 → Bool) {r : Option BlobPointer × List AttachmentPointer}
    (hk : Kept C r taken) (h : takePart max taken f = .ok taken') : Kept C (pointTo C P known f r) taken' := by
  obtain ⟨-, ⟨hdump, -, rfl⟩ | ⟨a, ha, rfl⟩⟩ := takePart_ok_iff.mp h
  · rw [Server.pointTo, if_pos hdump]
    exact ⟨.some ⟨rfl, rfl⟩, hk.attachments⟩
  · rw [Server.pointTo, if_neg (by simp [isDump_of_attachment ha])]
    refine ⟨hk.dump, List.rel_append hk.attachments (.cons ?_ .nil)⟩
    obtain rfl := attachmentOf_eq ha
    exact ⟨rfl, rfl, rfl, rfl⟩

/-- The pointers to parts stand for what is taken of them. -/
theorem Kept.pointers (P : StoragePaths) (known : Sha256 → Bool) (fs : List Field)
    {r : Option BlobPointer × List AttachmentPointer} (hk : Kept C r taken)
    (h : fs.foldlM (takePart max) taken = .ok taken') : Kept C (pointers C P known fs r) taken' := by
  induction fs generalizing known r taken with
  | nil =>
    obtain rfl := Except.ok.inj h
    exact hk
  | cons f rest ih =>
    rw [List.foldlM_cons] at h
    obtain ⟨next, htake, hrest⟩ := of_bind_ok h
    exact ih _ (hk.pointTo P known htake) hrest

end Kept

end Detritus.Server
