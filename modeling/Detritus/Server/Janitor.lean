import Detritus.Files.Walk
import Detritus.Process.Rely
import Detritus.Server.Crashes

/-! The janitor: log files and crash indexes past their time, and the blobs that no
index points to any more.

A cycle takes the list of blobs first, then goes through the indexes, and removes
those of the listed blobs whose digest it did not meet. Its listings are walks of a
directory tree, with a stack of the directories still to be read. Others may add
directories while one is walked, so `fuel` bounds the number that is read: a walk
that needs more has not ended (`ServerOp.unended`). Counts and lengths are in 64 bits
and wrap. -/
namespace Detritus.Server
open Files Protocol Process Contract

/-- How many days logs and crashes are kept. -/
structure RetentionConfig where
  logsTtlDays : UInt64
  crashesTtlDays : UInt64
  deriving DecidableEq

/-- What one cycle has removed. -/
structure JanitorStats where
  logsDeleted : UInt64
  indexesDeleted : UInt64
  blobsDeleted : UInt64
  bytesFreed : UInt64
  deriving DecidableEq

/-- Why a cycle ended early. -/
inductive JanitorError where
  | io (error : IoError)
  deriving DecidableEq

/-! ### What the janitor reads of an index -/

/-- The value of a key that occurs at most once; `none` when it occurs more often. -/
def uniqueMember (key : String) (members : List (String × Json)) : Option (Option Json) :=
  match members.filter (·.1 = key) with
  | [] => some none
  | [m] => some (some m.2)
  | _ => none

/-- A record with the field `sha256`, by name or by position. -/
def dumpRef : Json → Option String
  | .object members => match uniqueMember "sha256" members with
    | some (some (.string s)) => some s
    | _ => none
  | .array [.string s] => some s
  | _ => none

/-- The digests of the attachments. -/
def attachmentRefs : Json → Option (List String)
  | .array items => items.mapM dumpRef
  | _ => none

/-- The digests an index points to, as `CrashIndexRef` reads them. -/
def indexRef : Json → Option (List String)
  | .object members => match uniqueMember "dump" members, uniqueMember "attachments" members with
    | some (some dump), some none => (dumpRef dump).map fun d => [d]
    | some (some dump), some (some attachments) =>
      (dumpRef dump).bind fun d => (attachmentRefs attachments).map fun as => d :: as
    | _, _ => none
  | .array [dump] => (dumpRef dump).map fun d => [d]
  | .array [dump, attachments] =>
    (dumpRef dump).bind fun d => (attachmentRefs attachments).map fun as => d :: as
  | _ => none

theorem dumpRef_blobPointer (p : BlobPointer) : dumpRef p.toJson = some p.sha256 := by
  cases h : p.contentEncoding <;> simp [BlobPointer.toJson, dumpRef, uniqueMember, encodingField, h]

theorem dumpRef_attachmentPointer (p : AttachmentPointer) : dumpRef p.toJson = some p.sha256 := by
  cases h : p.contentEncoding <;> simp [AttachmentPointer.toJson, dumpRef, uniqueMember, encodingField, h]

/-- The janitor reads of an index what an upload wrote. -/
theorem indexRef_toJson (i : CrashIndex) : indexRef i.toJson = some i.hashes := by
  have hattach : attachmentRefs (.array (i.attachments.map (·.toJson))) =
      some (i.attachments.map (·.sha256)) := by
    induction i.attachments with
    | nil => rfl
    | cons a rest ih =>
      simp only [attachmentRefs] at ih
      simp [attachmentRefs, dumpRef_attachmentPointer, ih]
  simp [CrashIndex.toJson, indexRef, uniqueMember, dumpRef_blobPointer, hattach, CrashIndex.hashes]

/-- What is assumed of `serde_json`: an index is read in a pretty-printed document as it
is in the document itself, whatever becomes of its numbers, and the text of no object
starts with the text of another. -/
structure PrettyLawful (J : SerdeJson) : Prop where
  read : ∀ v, (J.read (J.writePretty v)).bind indexRef = indexRef v
  separate : ∀ a b, J.writePretty (.object a) <+: J.writePretty (.object b) → a = b

theorem PrettyLawful.nonempty {J : SerdeJson} (h : PrettyLawful J) (a : List (String × Json)) :
    J.writePretty (.object a) ≠ [] := by
  intro he
  have hp : J.writePretty (.object a) <+: J.writePretty (.object (("", .null) :: a)) := by
    rw [he]
    exact List.nil_prefix
  have hl := congrArg List.length (h.separate _ _ hp)
  rw [List.length_cons] at hl
  omega

/-! ### The files below a directory -/

/-- The loop over the stack, whose top is the head of the list: the directories of a listing are pushed one by one, so
the last of them is read next. -/
def collectFrom : Nat → List Path → List Path → Handler JanitorError (List Path)
  | _, [], files => return files
  | 0, _ :: _, _ => do
    let never : Empty ← call .unended
    nomatch never
  | fuel + 1, dir :: dirs, files => do
    let entries : List (Path × Bool) ← file .io (.readDir dir)
    collectFrom fuel ((subdirectories entries).reverse ++ dirs) (files ++ plainFiles entries)

/-- All files below a directory; none if it is not there. -/
def collectFiles (fuel : Nat) (root : Path) : Handler JanitorError (List Path) := do
  let found : Bool ← file .io (.tryExists root)
  if !found then return []
  else collectFrom fuel [root] []

section Walk
variable {σ : Type} {K : Contract serverInterface σ} {E : JanitorError → σ → Prop} {fuel : Nat} {s : σ}

/-- The rule for a walk: `W dirs files` at each turn of the loop, with the stack and what was found. -/
theorem collectFrom_rule {W : List Path → List Path → σ → Prop} (hE : ∀ e, K.Stable (E e))
    (hW : ∀ dirs files, K.Stable (W dirs files))
    (hstep : ∀ dir dirs files t x u, W (dir :: dirs) files t → K.allows (.file (.readDir dir)) t →
      K.exec (.file (.readDir dir)) t = some (x, u) → K.guarantee t u ∧ match x with
        | .ok entries => W ((subdirectories entries).reverse ++ dirs) (files ++ plainFiles entries) u
        | .error e => E (.io e) u)
    {dirs files : List Path} (hs : W dirs files s) :
    K.Yields (fun files => W [] files) E (collectFrom fuel dirs files) s := by
  induction fuel generalizing dirs files s with
  | zero =>
    cases dirs with
    | nil => exact Yields.pure (hW [] files) hs
    | cons dir dirs => exact Yields.step hE _ (hW _ files) hs fun _ never => never.elim
  | succ fuel ih =>
    cases dirs with
    | nil => exact Yields.pure (hW [] files) hs
    | cons dir dirs =>
      refine Yields.step hE _ (hW _ files) hs fun t x u ht ha hx => ?_
      obtain ⟨hg, hnext⟩ := hstep dir dirs files t x u ht ha hx
      refine ⟨hg, ?_⟩
      cases x with
      | ok entries => exact ih hnext
      | error e => exact hnext

/-- The same from the beginning: the root may not be there. -/
theorem collectFiles_rule {W : List Path → List Path → σ → Prop} {root : Path} {A : σ → Prop}
    (hE : ∀ e, K.Stable (E e)) (hW : ∀ dirs files, K.Stable (W dirs files)) (hA : K.Stable A)
    (hbegin : ∀ t x u, A t → K.allows (.file (.tryExists root)) t → K.exec (.file (.tryExists root)) t = some (x, u) →
      K.guarantee t u ∧ match x with
        | .ok found => W (if found then [root] else []) [] u
        | .error e => E (.io e) u)
    (hstep : ∀ dir dirs files t x u, W (dir :: dirs) files t → K.allows (.file (.readDir dir)) t →
      K.exec (.file (.readDir dir)) t = some (x, u) → K.guarantee t u ∧ match x with
        | .ok entries => W ((subdirectories entries).reverse ++ dirs) (files ++ plainFiles entries) u
        | .error e => E (.io e) u)
    (hs : A s) : K.Yields (fun files => W [] files) E (collectFiles fuel root) s := by
  refine Yields.step hE A hA hs fun t x u ht ha hx => ?_
  obtain ⟨hg, hnext⟩ := hbegin t x u ht ha hx
  refine ⟨hg, ?_⟩
  cases x with
  | error e => exact hnext
  | ok found =>
    cases found with
    | false => exact Yields.pure (hW [] []) hnext
    | true => exact collectFrom_rule hE hW hstep hnext

end Walk

/-! ### A cycle -/

/-- The extension of the file name is the one given. -/
def hasExtension (path : Path) (ext : String) : Bool := path.fileName.bind Path.extension = some ext

theorem hasExtension_indexPath (P : StoragePaths) {source : SourceKey} (h : source.Valid) (t : DateTime)
    (d : Sha256) : hasExtension (P.indexPath source t.format d.hex) "json" = true := by
  have hne : t.format ++ "-" ++ d.hex ≠ "" := by
    intro he
    have hl := congrArg (fun s : String => s.toList.length) he
    simp at hl
  have hx : Path.extension (t.format ++ "-" ++ d.hex ++ "." ++ "json") = some "json" :=
    extension_append hne (by decide)
  rw [hasExtension, P.indexPath_eq h, Path.fileName, List.getLast?_append_of_ne_nil _ (by simp)]
  simpa [String.append_assoc] using hx

/-- What remains of a string before a suffix. -/
def stripSuffix (suffix s : String) : Option String :=
  if suffix.toList <:+ s.toList then
    some (String.ofList (s.toList.take (s.toList.length - suffix.toList.length)))
  else none

theorem stripSuffix_append (suffix s : String) : stripSuffix suffix (s ++ suffix) = some s := by
  have hs : suffix.toList <:+ (s ++ suffix).toList := by
    rw [String.toList_append]
    exact List.suffix_append ..
  rw [stripSuffix, if_pos hs, String.toList_append, List.length_append, Nat.add_sub_cancel,
    List.take_left, String.ofList_toList]

/-- The moment `ttlDays` before `now`, in nanoseconds. Days are turned into seconds
in 64 bits; a moment that is not representable is a panic. -/
def cutoff (now : Time) (ttlDays : UInt64) : Option Int :=
  let seconds := (ttlDays * 24 * 60 * 60).toNat
  if (now / 1000000000 : Nat) - (seconds : Int) < -2 ^ 63 then none
  else some ((now : Int) - seconds * 1000000000)

/-- Zero days are no time at all, whatever the clock says. -/
def isOlderThan (path : Path) (ttlDays : UInt64) : Handler JanitorError Bool := do
  let metadata : Metadata ← file .io (.metadata path)
  if ttlDays = 0 then return true
  else
    let now : Time ← call .now
    match cutoff now ttlDays with
    | none =>
      let gone : Empty ← call .panic
      nomatch gone
    | some moment => return (metadata.modified : Int) ≤ moment

/-- A file whose length cannot be told counts for nothing. -/
def fileLen (path : Path) : Handler JanitorError UInt64 := do
  let metadata : Except IoError Metadata ← attempt (.metadata path)
  return match metadata with
    | .ok m => .ofNat m.len
    | .error _ => 0

section Cycle
variable (fuel : Nat) (json : SerdeJson) (storage : StoragePaths)

/-- The log files among those found, one after the other. -/
def pruneLogFiles (ttlDays : UInt64) : List Path → JanitorStats → Handler JanitorError JanitorStats
  | [], stats => return stats
  | path :: rest, stats => do
    if !hasExtension path "ndjson" then pruneLogFiles ttlDays rest stats
    else
      let old ← isOlderThan path ttlDays
      if old then
        let len ← fileLen path
        file .io (.removeFile path)
        pruneLogFiles ttlDays rest
          {stats with logsDeleted := stats.logsDeleted + 1, bytesFreed := stats.bytesFreed + len}
      else pruneLogFiles ttlDays rest stats

def pruneLogs (ttlDays : UInt64) (stats : JanitorStats) : Handler JanitorError JanitorStats := do
  let files ← collectFiles fuel storage.logsDir
  pruneLogFiles ttlDays files stats

/-- What an index file adds to the digests that are in use. -/
def references (bytes : Bytes) : List String := ((json.read bytes).bind indexRef).getD []

/-- An index that is kept is read for the digests it points to. -/
def pruneIndexFiles (ttlDays : UInt64) : List Path → List String → JanitorStats →
    Handler JanitorError (List String × JanitorStats)
  | [], referenced, stats => return (referenced, stats)
  | path :: rest, referenced, stats => do
    if !hasExtension path "json" then pruneIndexFiles ttlDays rest referenced stats
    else
      let old ← isOlderThan path ttlDays
      if old then
        let len ← fileLen path
        file .io (.removeFile path)
        pruneIndexFiles ttlDays rest referenced
          {stats with indexesDeleted := stats.indexesDeleted + 1, bytesFreed := stats.bytesFreed + len}
      else
        let bytes : Bytes ← file .io (.read path)
        pruneIndexFiles ttlDays rest (referenced ++ references json bytes) stats

def pruneIndexesAndCollectReferences (ttlDays : UInt64) (stats : JanitorStats) :
    Handler JanitorError (List String × JanitorStats) := do
  let files ← collectFiles fuel storage.bySource
  pruneIndexFiles json ttlDays files [] stats

/-- A blob that nothing points to goes. One that is gone already is no error. -/
def sweepBlobs (referenced : List String) : List Path → JanitorStats → Handler JanitorError JanitorStats
  | [], stats => return stats
  | blob :: rest, stats => match blob.fileName.bind (stripSuffix ".bin") with
    | none => sweepBlobs referenced rest stats
    | some hash =>
      if hash ∈ referenced then sweepBlobs referenced rest stats
      else do
        let len ← fileLen blob
        let removed : Except IoError Unit ← attempt (.removeFile blob)
        match removed with
        | .ok () =>
          sweepBlobs referenced rest
            {stats with blobsDeleted := stats.blobsDeleted + 1, bytesFreed := stats.bytesFreed + len}
        | .error .notFound => sweepBlobs referenced rest stats
        | .error error => throw (.io error)

/-- The blobs at the beginning of the cycle. Later ones are not swept. -/
def snapshotBlobs : Handler JanitorError (List Path) := do
  let files ← collectFiles fuel storage.byHash
  return files.filter (hasExtension · "bin")

/-- The snapshot comes first, and is swept by what the indexes point to after it. -/
def runJanitorCycle (config : RetentionConfig) : Handler JanitorError JanitorStats := do
  let snapshot ← snapshotBlobs fuel storage
  let stats ← pruneLogs fuel storage config.logsTtlDays ⟨0, 0, 0, 0⟩
  let (referenced, stats) ← pruneIndexesAndCollectReferences fuel json storage config.crashesTtlDays stats
  sweepBlobs referenced snapshot stats

end Cycle

end Detritus.Server
