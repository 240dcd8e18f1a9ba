import Detritus.Server.UploadRun
import Mathlib.Data.Set.Basic

/-! What an upload leaves in `tmp`.

A part's temporary file goes when the part has its place among the blobs, and when the part
is too long. It stays when the bytes of the part break off: `write_part_to_blob` then
returns the error of the stream as it is. `temps_kept_iff` says that this is the only way in
which a file is left behind. -/
namespace Detritus.Server
open Files Protocol Process

/-- The files in `tmp`. -/
def tempFiles (P : StoragePaths) (d : Disk) : Set Path := {p | P.tmpDir <+: p ∧ d.file p ≠ none}

/-- Bodies that end well do not break off. -/
theorem BreaksOff.failed {max : Nat} {dumped : Bool} {fields : List Field} (h : BreaksOff max dumped fields) :
    ∃ f ∈ fields, f.failure ≠ none := by
  induction h with
  | here _ hcut => exact ⟨_, List.mem_cons_self .., hcut.failure⟩
  | later _ _ _ ih =>
    obtain ⟨f, hf, hfailure⟩ := ih
    exact ⟨f, List.mem_cons_of_mem _ hf, hfailure⟩

theorem SameTemps.tempFiles_eq {P : StoragePaths} {d e : Disk} (h : SameTemps P d e) :
    tempFiles P e = tempFiles P d := by
  ext p
  exact and_congr_right fun hp => by rw [h p hp]

theorem LeftBehind.tempFiles_ne {P : StoragePaths} {d e : Disk} (h : LeftBehind P d e) : tempFiles P e ≠ tempFiles P d := by
  obtain ⟨u, hnone, hsome⟩ := h
  intro heq
  have hmem : P.tempPath u ∈ tempFiles P e := ⟨P.tmpDir_tempPath u, hsome⟩
  rw [heq] at hmem
  exact hmem.2 hnone

section Upload
variable {ι : Type} {env : Env} {i : ι} {C : Crates} {state : AppState}

/-- Identifiers to come whose temporary files are not there. -/
def Unused (env : Env) (P : StoragePaths) (w : ServerState ι) : Prop :=
  ∀ n u, w.history.length ≤ n → env.uuid n = some u → w.state.disk.file (P.tempPath u) = none

/-- **An upload leaves `tmp` as it was, unless a part that is to be stored breaks off.** Its identifiers
are to be new ones, and as many as it may need. -/
theorem temps_kept_iff (token : TokenContext) (headers : Headers) (body : Body) (w : ServerState ι)
    (hnumbered : w.state.disk.Numbered) (hunused : Unused env state.storage w)
    (henough : ∀ m, openMultipart C headers body = .ok m →
      ∀ n, w.history.length ≤ n → n < w.history.length + uploadCalls m → env.uuid n ≠ none) :
    ∃ r t, (crashesInner C state token headers body).alone env i w = some (r, t) ∧
      (tempFiles state.storage t.state.disk = tempFiles state.storage w.state.disk ↔
        ¬ Interrupted C state token (admits env state token w) headers body) := by
  obtain ⟨r, t, hrun, hleft⟩ : ∃ r t, (crashesInner C state token headers body).alone env i w = some (r, t) ∧
      TempsLeft state.storage (Interrupted C state token (admits env state token w) headers body) w.state.disk
        t.state.disk := by
    cases hm : openMultipart C headers body with
    | error e =>
      refine ⟨.error e, w, ?_, .refl (by simp [Interrupted, hm])⟩
      unfold crashesInner
      rw [hm, alone_lift_error]
    | ok m =>
      have hsupply : Supply env state.storage (w.history.length + uploadCalls m) w := by
        intro n hn hnN
        obtain ⟨u, hu⟩ := Option.ne_none_iff_exists'.mp (henough m hm n hn hnN)
        exact ⟨u, hu, hunused n u hn hu⟩
      obtain ⟨r, t, hrun, -, -, hleft⟩ := crashesInner_alone token hm w ⟨hnumbered, hsupply⟩ (Nat.le_refl _)
      exact ⟨r, t, hrun, hleft⟩
  refine ⟨r, t, hrun, ?_⟩
  rcases hleft with ⟨hsame, hnot⟩ | ⟨hleft, hinterrupted⟩
  · exact iff_of_true hsame.tempFiles_eq hnot
  · exact iff_of_false hleft.tempFiles_ne (not_not.mpr hinterrupted)

end Upload

/-! ### A dump that breaks off after a byte -/

open CrashSystem

/-- The crates for a body that stops inside its dump. -/
def cutCrates : Crates := {abcCrates with
  multipart := fun _ _ => ⟨[⟨some "metadata", none, none,
      [JsonText.print .compact 0 abcMetadata.toJson], none⟩,
    {abcField with chunks := [[0x61]], failure := some ⟨"incomplete field data"⟩}], none⟩}

/-- All of the body up to the `a` of its dump. -/
def cutBody : Body := ⟨[abcBody.take (abcBody.length - 11)], false⟩

/-- The request is answered with an error, and its temporary file is still there. -/
theorem cutDump_left : ∃ e t, (crashesInner cutCrates abcApp abcToken abcHeaders cutBody).alone
      abcEnv () emptyState = some (.error e, t) ∧
    tempFiles abcApp.storage t.state.disk ≠ tempFiles abcApp.storage emptyState.state.disk := by
  have hrun : ((crashesInner cutCrates abcApp abcToken abcHeaders cutBody).alone
      abcEnv () emptyState).any (fun x => decide (x.1 = .error (.multipart ⟨"incomplete field data"⟩)) &&
        (x.2.state.disk.file (abcApp.storage.tempPath ⟨2 :: List.replicate 15 0, rfl⟩)).isSome) = true := by
    decide +kernel
  obtain ⟨⟨r, t⟩, ht, hx⟩ := (Option.any_eq_true _ _).mp hrun
  rw [Bool.and_eq_true, decide_eq_true_eq] at hx
  obtain ⟨rfl, hsome⟩ := hx
  refine ⟨_, t, ht, LeftBehind.tempFiles_ne ⟨⟨2 :: List.replicate 15 0, rfl⟩, rfl, fun hnone => ?_⟩⟩
  rw [hnone] at hsome
  cases hsome

theorem abc_uninterrupted (admits : SourceKey → Bool) : ¬ Interrupted abcCrates abcApp
    abcToken admits abcHeaders ⟨[abcBody], false⟩ := by
  rintro ⟨m, metadata, fields, source, hm, hfirst, -, -, -, hbreaks⟩
  obtain rfl := Except.ok.inj hm
  obtain ⟨f, hf, hfailure⟩ := hbreaks.failed
  have hf := readFirst_fields _ hfirst hf
  simp only [abcCrates, List.mem_cons, List.not_mem_nil, or_false] at hf
  rcases hf with rfl | rfl
  · exact hfailure rfl
  · exact hfailure rfl

theorem temps_kept_iff_abc : ∃ r t, (crashesInner abcCrates abcApp abcToken
      abcHeaders ⟨[abcBody], false⟩).alone abcEnv () emptyState = some (r, t) ∧
    tempFiles abcApp.storage t.state.disk = tempFiles abcApp.storage emptyState.state.disk := by
  have henough : ∀ m, openMultipart abcCrates abcHeaders ⟨[abcBody], false⟩ = .ok m →
      ∀ n, 0 ≤ n → n < 0 + uploadCalls m → abcEnv.uuid n ≠ none := by
    intro m hm n _ hn
    obtain rfl := Except.ok.inj hm
    have hn : n < 256 := Nat.lt_trans hn (by decide)
    show (if n < 256 then _ else _) ≠ none
    rw [if_pos hn]
    exact Option.some_ne_none _
  obtain ⟨r, t, hrun, hiff⟩ := temps_kept_iff (i := ()) abcToken abcHeaders
    ⟨[abcBody], false⟩ emptyState nofun (fun _ _ _ _ => rfl) henough
  exact ⟨r, t, hrun, hiff.mpr (abc_uninterrupted _)⟩

end Detritus.Server
