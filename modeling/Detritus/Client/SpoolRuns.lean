import Detritus.Process.Conduct
import Detritus.Client.SpoolSteps

/-! Runs of the shipper among the other processes of a spool.

While a run holds the lock, the entries that it listed are in two parts: those that it has
moved, and those it has not come to, which are still pending. `Progress` says so; a run
keeps it up from the lock to the unlock, whatever the others do and wherever it fails. -/
namespace Detritus.Client
open Files Protocol Process Contract Discipline

section Contract
variable {τ : Type}

def spoolContract (spool : Path) (C : Crates) (env : Env) (start : Disk) (i : τ) :
    Contract clientInterface (ClientState τ) where
  exec := execAs env i
  allows _ _ := True
  rely := Relies spool env start i
  guarantee := Guarantees spool C env start i
  refl := Relies.refl i
  trans := Relies.trans

variable {spool : Path} {C : Crates} {env : Env} {start : Disk} {i : τ} {s t : ClientState τ}
  {h h' : List (ClientEvent τ)} {A : ClientState τ → Prop} {ε α : Type}

/-- What follows from the invariant and what the others do, they cannot make false. -/
theorem spoolContract_stable (hinv : ∀ w, A w → SpoolInv spool env start w)
    (h : ∀ s t, A s → SpoolInv spool env start t → Elsewhere spool i s t → A t) :
    (spoolContract spool C env start i).Stable A := by
  intro s t hr hs
  obtain ⟨ht, he⟩ := hr (hinv s hs)
  exact h s t hs ht he

/-! ### Code that only looks -/

/-- Calls that only look, and what a listing looks like. -/
def looking (spool : Path) : Discipline clientInterface τ where
  fits
    | .file (.readDir p), .ok l => ∀ q ∈ l, ∃ x, q.1 = p ++ [x]
    | _, _ => True
  may _ op _ := Looks spool op
  grows _ h := h

theorem looking_fits (n : Nat) (op : ClientOp) (w : World τ) (x : op.Answer) (w' : World τ)
    (h : World.exec env i n op w = some (x, w')) : (looking spool : Discipline clientInterface τ).fits op x := by
  cases op with
  | file op =>
    cases op with
    | readDir p =>
      cases x with
      | error e => trivial
      | ok l =>
        have hx : (execFile env n (.readDir p) w.disk).1 = .ok l := (result_eq h).1
        have heq := (execFile_ok hx).2.2
        intro q hq
        rw [heq] at hx
        rw [← Except.ok.inj hx] at hq
        obtain ⟨q', hq', rfl⟩ := List.mem_map.mp hq
        exact Disk.eq_append_of_mem_children (((env.order n).perm _).mem_iff.mp hq')
    | _ => trivial
  | _ => trivial

/-- A part of a program that only looks keeps what such calls keep. -/
theorem yields_looks (hinv : ∀ w, A w → SpoolInv spool env start w)
    (hA : (spoolContract spool C env start i).Stable A)
    (hpass : ∀ (op : ClientOp) (x : op.Answer) s t, A s → Passes spool C env op x i s t → A t)
    {Q : α → List (ClientEvent τ) → Prop} (hQ : ∀ a h h', h ⊆ h' → Q a h → Q a h') {p : Action ε α}
    (hp : (looking spool).Minds i Q p s.history) (hs : A s) :
    (spoolContract spool C env start i).Yields (fun a t => A t ∧ Q a t.history) (fun _ => A) p s := by
  refine Yields.of_minds (M := World.exec env i) rfl hA ?_ looking_fits ?_ hQ hp hs
  · intro s t hs hr
    exact (hr (hinv s hs)).2.apart.subset
  · intro op s x t hs hop _ hx
    have hpassed : Passes spool C env op x i s t := passes_looks hop hx
    exact ⟨fun _ => hpassed.step, hpass op x s t hs hpassed⟩

theorem readAttachments_looks (entry : Path) (manifests : List AttachmentManifest) (h : List (ClientEvent τ)) :
    (looking spool).Minds i (fun _ _ => True) (readAttachments entry manifests) h := by
  induction manifests generalizing h with
  | nil => exact .pure trivial
  | cons manifest rest ih =>
    unfold readAttachments
    cases manifest.filename with
    | none => exact ih h
    | some filename =>
      exact minds_file trivial fun _ _ => Minds.bind (ih _) fun _ _ _ _ => .pure trivial

theorem readEnvelope_looks (entry : Path) (h : List (ClientEvent τ)) :
    (looking spool).Minds i (fun _ _ => True) (readEnvelope C entry) h :=
  minds_file trivial fun _ _ => minds_lift fun _ _ => minds_file trivial fun _ _ =>
    Minds.bind (readAttachments_looks _ _ _) fun _ _ _ _ => .pure trivial

theorem Resolved.mono {x : String} {days : UInt64} (hh : h ⊆ h') (hr : Resolved spool C i x days h) :
    Resolved spool C i x days h' := by
  obtain ⟨bytes, config, hmem, hconfig, hdays⟩ := hr
  exact ⟨bytes, config, hh hmem, hconfig, hdays⟩

/-- The retention of an entry is what was read from it. -/
theorem resolveStoredEndpoint_looks (x : String) (h : List (ClientEvent τ)) :
    (looking spool).Minds i (fun r => Resolved spool C i x r.2) (resolveStoredEndpoint C (pendingAt spool x)) h := by
  have hread : (looking spool).Minds i (fun stored h => ∀ config, stored = some config →
      Resolved spool C i x config.sentRetentionDays h) (readStoredUploadConfig C (pendingAt spool x)) h := by
    unfold readStoredUploadConfig
    refine minds_call trivial fun there _ => ?_
    split
    · refine minds_file trivial fun bytes _ => minds_lift fun config hconfig => .pure fun config' heq => ?_
      obtain rfl := Option.some.inj heq
      have hpath : (pendingAt spool x).join "sdk-config.json" = pendingAt spool x ++ ["sdk-config.json"] :=
        component_names.2.2.join _
      refine ⟨bytes, config, ?_, ?_, rfl⟩
      · rw [← hpath]
        exact List.mem_cons_self ..
      · cases hparse : C.uploadConfig bytes with
        | error e =>
          rw [hparse] at hconfig
          cases hconfig
        | ok config' =>
          rw [hparse] at hconfig
          exact congrArg Except.ok (Except.ok.inj hconfig)
    · exact .pure nofun
  refine Minds.bind hread fun stored h' _ hstored => ?_
  cases stored with
  | none => exact .throw _
  | some config =>
    dsimp only
    cases C.parseUrl config.endpoint with
    | none => exact .throw _
    | some endpoint => exact .pure (hstored config rfl)

theorem mem_sortedDirs {l : List (Path × Bool)} {q : Path} (h : q ∈ sortedDirs l) : ∃ b, (q, b) ∈ l := by
  obtain ⟨⟨q', b⟩, hq, rfl⟩ := List.mem_map.mp ((List.mergeSort_perm _ _).mem_iff.mp h)
  exact ⟨b, (List.mem_filter.mp hq).1⟩

theorem sentEntries_looks (h : List (ClientEvent τ)) :
    (looking spool).Minds i (fun entries _ => ∀ q ∈ entries, ∃ x, q = sentAt spool x)
      (pendingEntries (sentDir spool)) h := by
  have hne : sentDir spool ≠ pendingDir spool := by simp [sentDir, pendingDir]
  refine minds_call hne fun listing hfits => ?_
  cases listing with
  | ok l =>
    refine .pure fun q hq => ?_
    obtain ⟨b, hb⟩ := mem_sortedDirs hq
    exact hfits (q, b) hb
  | error e => cases e with
    | notFound => exact .pure fun _ hq => absurd hq List.not_mem_nil
    | _ => exact .throw _

theorem lift_ok_bind {ε α β : Type} (a : α) (f : α → Action ε β) : (liftExcept (.ok a) >>= f) = f a := rfl

/-! ### The entries of a run -/

/-- The entries that a run has listed, if it has. -/
def Listing (spool : Path) (i : τ) (names : Option (List String)) (h : List (ClientEvent τ)) : Prop :=
  ∀ entries, Did spool i (.listed entries) h ↔ names.map (List.map (pendingAt spool)) = some entries

/-- How far a run has come: the names it has read, those done with and those to come. -/
structure Progress (spool : Path) (env : Env) (start : Disk) (i : τ) (names : Option (List String))
    (done rest : List String) (w : ClientState τ) : Prop where
  inv : SpoolInv spool env start w
  held : holder spool w = some i
  moved : ∀ x, Did spool i (.moved x) w.history ↔ x ∈ done
  pending : ∀ x ∈ rest, IsPending spool w x
  nodup : (done ++ rest).Nodup
  split : done ++ rest = names.getD []
  listing : Listing spool i names w.history

/-- Where a run that holds the lock may fail. -/
def Halted (spool : Path) (env : Env) (start : Disk) (i : τ) (w : ClientState τ) : Prop :=
  ∃ names done rest, Progress spool env start i names done rest w

variable {names : Option (List String)} {done rest : List String} {x : String} {op : ClientOp} {v : op.Answer}

/-- What a run has listed is known by its marks. -/
theorem Listing.congr (hl : Listing spool i names h)
    (hdid : ∀ entries, Did spool i (.listed entries) h' ↔ Did spool i (.listed entries) h) :
    Listing spool i names h' :=
  fun entries => (hdid entries).trans (hl entries)

theorem Progress.stable : (spoolContract spool C env start i).Stable (Progress spool env start i names done rest) := by
  refine spoolContract_stable (fun w h => h.inv) fun s t h ht he => ?_
  obtain ⟨hheld, -, hpending⟩ := he.held h.held
  exact ⟨ht, hheld, fun x => (did_apart he.apart).trans (h.moved x), fun x hx => hpending x (h.pending x hx), h.nodup,
    h.split, h.listing.congr fun _ => did_apart he.apart⟩

theorem Halted.stable : (spoolContract spool C env start i).Stable (Halted spool env start i) := by
  rintro s t hr ⟨names, done, rest, h⟩
  exact ⟨names, done, rest, Progress.stable s t hr h⟩

theorem Progress.passes (hstart : Orderly spool env start) (hp : Passes spool C env op v i s t)
    (h : Progress spool env start i names done rest s) : Progress spool env start i names done rest t := by
  have hdid : ∀ m, m ≠ .other → (Did spool i m t.history ↔ Did spool i m s.history) := by
    intro m hm
    rw [hp.history]
    exact did_cons_ne fun heq => hm (heq.symm.trans hp.unmarked)
  refine ⟨h.inv.step hstart hp.step, hp.holder_eq.trans h.held, fun x => (hdid (.moved x) nofun).trans (h.moved x),
    fun x hx => (hp.idle.isPending x).mpr (h.pending x hx), h.nodup, h.split,
    h.listing.congr fun l => hdid (.listed l) nofun⟩

theorem Progress.halted (h : Progress spool env start i names done rest s) : Halted spool env start i s :=
  ⟨names, done, rest, h⟩

/-- A part that only looks, in a run. -/
theorem progress_looks {α : Type} (hstart : Orderly spool env start) {Q : α → List (ClientEvent τ) → Prop}
    (hQ : ∀ a h h', h ⊆ h' → Q a h → Q a h') {p : Action ShipError α} (hp : (looking spool).Minds i Q p s.history)
    (h : Progress spool env start i names done rest s) : (spoolContract spool C env start i).Yields
      (fun a t => Progress spool env start i names done rest t ∧ Q a t.history) (fun _ => Halted spool env start i) p s :=
  (yields_looks (fun _ h => h.inv) Progress.stable (fun _ _ _ _ hs hpass => hs.passes hstart hpass) hQ hp h).mono
    (fun _ _ h => h) fun _ _ h => h.halted

/-- A call that leaves the entries alone and is no move and no listing. -/
theorem Progress.kept (hstart : Orderly spool env start) (h : Progress spool env start i names done rest s)
    (hstep : SpoolStep spool C env i s t) (hheld : holder spool t = some i)
    (hpending : ∀ x ∈ rest, IsPending spool t x)
    (hmoved : ∀ x, Did spool i (.moved x) t.history ↔ Did spool i (.moved x) s.history)
    (hlisted : ∀ l, Did spool i (.listed l) t.history ↔ Did spool i (.listed l) s.history) :
    Progress spool env start i names done rest t :=
  ⟨h.inv.step hstart hstep, hheld, fun x => (hmoved x).trans (h.moved x), hpending, h.nodup, h.split,
    h.listing.congr hlisted⟩

theorem Progress.stable_and {F : List (ClientEvent τ) → Prop} (hF : ∀ h h', h ⊆ h' → F h → F h') :
    (spoolContract spool C env start i).Stable fun w => Progress spool env start i names done rest w ∧ F w.history := by
  rintro s t hr ⟨hs, hf⟩
  exact ⟨Progress.stable s t hr hs, hF _ _ (hr hs.inv).2.apart.subset hf⟩

section Steps
variable (hstart : Orderly spool env start)
include hstart

/-- A success is noted. -/
theorem postEnvelope_yields (endpoint : Url) (token : String) (envelope : CrashEnvelope) (config : ShipConfig)
    (h : Progress spool env start i names done (x :: rest) s) : (spoolContract spool C env start i).Yields
      (fun _ t => Progress spool env start i names done (x :: rest) t ∧ Did spool i (.acked x) t.history)
      (fun _ => Halted spool env start i) (postEnvelope C (pendingAt spool x) endpoint token envelope config) s := by
  unfold postEnvelope
  cases (compressEnvelope C.compress config envelope).mapError ShipError.io with
  | error e => exact .throw Halted.stable h.halted
  | ok compressed =>
    rw [lift_ok_bind]
    dsimp only
    cases headerValue ("Bearer " ++ token) with
    | none => exact .throw Halted.stable h.halted
    | some authorization =>
      refine Yields.step (fun _ => Halted.stable) _ Progress.stable h fun u answer v hu _ hx => ?_
      obtain ⟨hstep, hstate, hh⟩ := step_post hu.held (hu.pending x (.head _)) hx
      have hv : Progress spool env start i names done (x :: rest) v := by
        have hmark : ∀ m, (∀ y, m ≠ .acked y) → m ≠ .other →
            (Did spool i m v.history ↔ Did spool i m u.history) := by
          intro m hacked hother
          rw [hh]
          refine did_cons_ne fun hm => ?_
          rcases mark_post_cases i (pendingAt spool x) _ answer with heq | ⟨y, heq⟩
          · exact hother (hm.symm.trans heq)
          · exact hacked y (hm.symm.trans heq)
        refine hu.kept hstart hstep ((holder_of_state hstate).trans hu.held) (fun y hy => ?_) (fun y => ?_) fun l => ?_
        · exact ((Idle.of_state hstate).isPending y).mpr (hu.pending y hy)
        · exact hmark _ nofun nofun
        · exact hmark _ nofun nofun
      refine ⟨fun _ => hstep, ?_⟩
      dsimp only
      cases answer with
      | error e => exact .throw Halted.stable hv.halted
      | ok response =>
        dsimp only
        cases hsuccess : response.isSuccess with
        | false => exact .throw Halted.stable hv.halted
        | true =>
          cases response.failure with
          | some e => exact .throw Halted.stable hv.halted
          | none =>
            have hacked : Did spool i (.acked x) v.history := by
              rw [hh]
              exact did_cons.mpr (.inl ⟨rfl, mark_post hsuccess⟩)
            exact .pure (Progress.stable_and fun _ _ => Did.mono) ⟨hv, hacked⟩

/-- One entry more has been moved. -/
theorem Progress.move {v : Unit} (h : Progress spool env start i names done (x :: rest) s)
    (hacked : Did spool i (.acked x) s.history)
    (hx : execAs env i (.file (.renameDir (pendingAt spool x) (sentAt spool x))) s =
      some ((.ok v : Except IoError Unit), t)) :
    SpoolStep spool C env i s t ∧ Progress spool env start i names (done ++ [x]) rest t := by
  obtain ⟨hstep, hmoves, hholder, hh⟩ := step_rename (C := C) h.held hacked hx
  have hnodup : (done ++ [x] ++ rest).Nodup := by
    rw [List.append_assoc]
    exact h.nodup
  refine ⟨hstep, h.inv.step hstart hstep, hholder.trans h.held, fun y => ?_, fun y hy => ?_, hnodup, ?_, ?_⟩
  · rw [hh, did_cons, mark_rename, h.moved, List.mem_append, List.mem_singleton, or_comm]
    refine or_congr_right ⟨fun hy => (Mark.moved.inj hy.2).symm, fun hy => ⟨rfl, hy ▸ rfl⟩⟩
  · have hyx : y ≠ x := by
      rintro rfl
      exact (List.nodup_append.mp hnodup).2.2 y (List.mem_append_right _ (List.mem_singleton_self y)) y hy rfl
    rw [IsPending, (hmoves.others y hyx).pending]
    exact h.pending y (.tail _ hy)
  · rw [List.append_assoc]
    exact h.split
  · refine h.listing.congr fun l => ?_
    rw [hh]
    refine did_cons_ne ?_
    rw [mark_rename]
    exact fun h => by cases h

theorem moveEntry_yields (h : Progress spool env start i names done (x :: rest) s)
    (hacked : Did spool i (.acked x) s.history) : (spoolContract spool C env start i).Yields
      (fun _ => Progress spool env start i names (done ++ [x]) rest) (fun _ => Halted spool env start i)
      (moveEntry (pendingAt spool x) (sentAt spool x)) s := by
  have hrename : ∀ u, Progress spool env start i names done (x :: rest) u ∧ Did spool i (.acked x) u.history →
      (spoolContract spool C env start i).Yields (fun _ => Progress spool env start i names (done ++ [x]) rest)
        (fun _ => Halted spool env start i) (file ShipError.io (.renameDir (pendingAt spool x) (sentAt spool x))) u := by
    intro u hu
    rw [← bind_pure (file ..)]
    refine Yields.attempt (fun _ => Halted.stable) _ (Progress.stable_and fun _ _ => Did.mono) hu
      fun t (r : Except IoError Unit) v ht _ hx => ?_
    cases r with
    | ok r =>
      obtain ⟨hstep, hv⟩ := ht.1.move hstart ht.2 hx
      exact ⟨fun _ => hstep, .inl ⟨r, rfl, .pure Progress.stable hv⟩⟩
    | error e =>
      have hpass : Passes spool C env _ _ i t v := passes_error (by simp) hx
      exact ⟨fun _ => hpass.step, .inr ⟨e, rfl, (ht.1.passes hstart hpass).halted⟩⟩
  unfold moveEntry
  refine Yields.step (fun _ => Halted.stable) _ (Progress.stable_and fun _ _ => Did.mono) ⟨h, hacked⟩
    fun u (there : Except IoError Bool) v hu _ hx => ?_
  have hlooks : Looks spool (.file (.tryExists (sentAt spool x))) := trivial
  have hpass : Passes spool C env (.file (.tryExists (sentAt spool x))) there i u v := passes_looks hlooks hx
  have hv := hu.1.passes hstart hpass
  have hacked' : Did spool i (.acked x) v.history := hpass.history ▸ hu.2.cons
  refine ⟨fun _ => hpass.step, ?_⟩
  dsimp only
  split
  · -- a pending entry has no namesake among those that were sent, so there is nothing to remove
    refine Yields.step (fun _ => Halted.stable) _ (Progress.stable_and fun _ _ => Did.mono) ⟨hv, hacked'⟩
      fun a r b ha _ hx => ?_
    cases r with
    | ok r => exact absurd (isSent_of_remove hx) (ha.1.inv.apart x (ha.1.pending x (.head _)))
    | error e =>
      have hpass : Passes spool C env _ _ i a b := passes_error (by simp) hx
      exact ⟨fun _ => hpass.step, (ha.1.passes hstart hpass).halted⟩
  · exact hrename v ⟨hv, hacked'⟩

/-- One entry is shipped, or the run halts with it still pending. -/
theorem shipOne_yields (endpoint : Url) (token : String) (config : ShipConfig)
    (h : Progress spool env start i names done (x :: rest) s) : (spoolContract spool C env start i).Yields
      (fun _ => Progress spool env start i names (done ++ [x]) rest) (fun _ => Halted spool env start i)
      (shipOne C (sentDir spool) endpoint token config (pendingAt spool x)) s := by
  have hname : (pendingAt spool x).fileName = some x := List.getLast?_concat
  refine .bind (fun _ => Halted.stable) ?_
  refine (progress_looks hstart (fun _ _ _ _ h => h) (readEnvelope_looks _ _) h).mono (fun envelope u hu => ?_)
    fun _ _ h => h
  refine .bind (fun _ => Halted.stable) ?_
  refine (postEnvelope_yields hstart endpoint token envelope config hu.1).mono (fun _ v hv => ?_) fun _ _ h => h
  have hcomponent : Component x := hv.1.inv.named x (hv.1.pending x (.head _))
  rw [hname]
  dsimp only
  rw [hcomponent.join]
  exact moveEntry_yields hstart hv.1 hv.2

theorem shipEntries_yields (endpoint : Url) (token : String) (config : ShipConfig) (shipped : Nat)
    (h : Progress spool env start i names done rest s) : (spoolContract spool C env start i).Yields
      (fun n t => Progress spool env start i names (done ++ rest) [] t ∧ n = shipped + rest.length)
      (fun _ => Halted spool env start i)
      (shipEntries (shipOne C (sentDir spool) endpoint token config) shipped (rest.map (pendingAt spool))) s := by
  induction rest generalizing done shipped s with
  | nil =>
    rw [List.append_nil]
    exact .pure (fun u v hr hu => ⟨Progress.stable u v hr hu.1, hu.2⟩) ⟨h, rfl⟩
  | cons x rest ih =>
    refine .bind (fun _ => Halted.stable) ?_
    refine (shipOne_yields hstart endpoint token config h).mono (fun _ u hu => ?_) fun _ _ h => h
    refine (ih (shipped + 1) hu).mono (fun n v hv => ?_) fun _ _ h => h
    rw [List.append_assoc] at hv
    rw [List.length_cons]
    exact ⟨hv.1, by omega⟩

/-! ### Cleaning up -/

omit hstart in
theorem Uses.congr {days : UInt64} (hh : h ⊆ h')
    (hmoved : ∀ x, Did spool i (.moved x) h' ↔ Did spool i (.moved x) h) (hu : Uses spool C i days h) :
    Uses spool C i days h' := by
  unfold Uses
  simp only [hmoved]
  refine hu.imp_right fun ⟨⟨x, hx, hr⟩, hall⟩ => ⟨⟨x, hx, hr.mono hh⟩, fun y hy => ?_⟩
  obtain ⟨d, hd, hr⟩ := hall y hy
  exact ⟨d, hd, hr.mono hh⟩

/-- A run that cleans up. -/
structure Cleaning (spool : Path) (C : Crates) (env : Env) (start : Disk) (i : τ) (names : Option (List String))
    (done rest : List String) (now : Time) (days : UInt64) (w : ClientState τ) : Prop where
  progress : Progress spool env start i names done rest w
  now : (⟨i, .now, now⟩ : ClientEvent τ) ∈ w.history
  uses : Uses spool C i days w.history

variable {now : Time} {days : UInt64} {longest : Option UInt64}

omit hstart in
theorem Cleaning.stable :
    (spoolContract spool C env start i).Stable (Cleaning spool C env start i names done rest now days) := by
  intro s t hr h
  have he := (hr h.progress.inv).2
  exact ⟨Progress.stable s t hr h.progress, he.apart.subset h.now, h.uses.congr he.apart.subset fun _ => did_apart he.apart⟩

omit hstart in
theorem Expired.apart (ha : Apart i h h') (he : Expired spool C i x h) : Expired spool C i x h' := by
  obtain ⟨days, metadata, now, ⟨since, before, rfl, hsince, huses⟩, hnow, hold⟩ := he
  obtain ⟨new, rfl, hnew⟩ := ha
  refine ⟨days, metadata, now, ⟨new ++ since, before, (List.append_assoc ..).symm, fun e he => ?_, huses⟩,
    List.mem_append_right _ hnow, hold⟩
  exact (List.mem_append.mp he).elim (hnew e) (hsince e)

theorem Cleaning.passes (hp : Passes spool C env op v i s t)
    (h : Cleaning spool C env start i names done rest now days s) :
    Cleaning spool C env start i names done rest now days t := by
  have hsubset : s.history ⊆ t.history := hp.history ▸ List.subset_cons_self ..
  refine ⟨h.progress.passes hstart hp, hsubset h.now, h.uses.congr hsubset fun x => ?_⟩
  rw [hp.history]
  refine did_cons_ne ?_
  rw [hp.unmarked]
  nofun

/-- An entry that is too old is removed. -/
theorem Cleaning.remove {v : Unit} (h : Cleaning spool C env start i names done rest now days s)
    (hexpired : Expired spool C i x s.history)
    (hx : execAs env i (.file (.removeDirAll (sentAt spool x))) s = some ((.ok v : Except IoError Unit), t)) :
    SpoolStep spool C env i s t ∧ Cleaning spool C env start i names done rest now days t := by
  obtain ⟨hstep, hremoves, hholder, hh⟩ := step_remove h.progress.held hexpired hx
  have hsubset : s.history ⊆ t.history := hh ▸ List.subset_cons_self ..
  have hdid : ∀ m, m ≠ .removed x → (Did spool i m t.history ↔ Did spool i m s.history) := by
    intro m hm
    rw [hh]
    refine did_cons_ne ?_
    rw [mark_remove]
    exact hm.symm
  refine ⟨hstep, ?_, hsubset h.now, h.uses.congr hsubset fun y => hdid _ nofun⟩
  refine h.progress.kept hstart hstep (hholder.trans h.progress.held) (fun y hy => ?_) (fun y => hdid _ nofun)
    fun l => hdid _ nofun
  rw [IsPending, hremoves.pending_eq]
  exact h.progress.pending y hy

theorem removeOld_yields {entries : List Path} (hentries : ∀ q ∈ entries, ∃ x, q = sentAt spool x)
    (h : Cleaning spool C env start i names done rest now days s) : (spoolContract spool C env start i).Yields
      (fun _ => Progress spool env start i names done rest) (fun _ => Halted spool env start i)
      (removeOld (now - retentionSpan days) entries) s := by
  induction entries generalizing s with
  | nil => exact .pure Progress.stable h.progress
  | cons q more ih =>
    obtain ⟨x, rfl⟩ := hentries q (.head _)
    have ih := fun {s} => ih (s := s) fun q hq => hentries q (.tail _ hq)
    unfold removeOld
    refine Yields.step (fun _ => Halted.stable) _ Cleaning.stable h
      fun u (answer : Except IoError Metadata) v hu _ hx => ?_
    have hlooks : Looks spool (.file (.metadata (sentAt spool x))) := trivial
    have hpass : Passes spool C env (.file (.metadata (sentAt spool x))) answer i u v := passes_looks hlooks hx
    have hv := hu.passes hstart hpass
    refine ⟨fun _ => hpass.step, ?_⟩
    cases answer with
    | error e => exact hv.progress.halted
    | ok metadata =>
      show (spoolContract spool C env start i).Yields _ _ _ v
      dsimp only
      split
      · next hold =>
        have hexpired : Expired spool C i x v.history := by
          rw [hpass.history]
          exact ⟨days, metadata, now, ⟨[], u.history, rfl, nofun, hu.uses⟩, List.mem_cons_of_mem _ hu.now, hold⟩
        refine Yields.step (fun _ => Halted.stable)
          (fun w => Cleaning spool C env start i names done rest now days w ∧ Expired spool C i x w.history)
          ?_ ⟨hv, hexpired⟩
          fun a (r : Except IoError Unit) b ha _ hx => ?_
        · rintro a b hr ⟨ha, hexpired⟩
          exact ⟨Cleaning.stable a b hr ha, hexpired.apart (hr ha.progress.inv).2.apart⟩
        · cases r with
          | ok r =>
            obtain ⟨hstep, hb⟩ := ha.1.remove hstart ha.2 hx
            exact ⟨fun _ => hstep, ih hb⟩
          | error e =>
            have hpass : Passes spool C env _ _ i a b := passes_error (by simp) hx
            exact ⟨fun _ => hpass.step, (ha.1.progress.passes hstart hpass).halted⟩
      · exact ih hv

theorem cleanupSent_yields (h : Progress spool env start i names done rest s) (huses : Uses spool C i days s.history) :
    (spoolContract spool C env start i).Yields (fun _ => Progress spool env start i names done rest)
      (fun _ => Halted spool env start i) (cleanupSent (sentDir spool) days) s := by
  unfold cleanupSent
  refine Yields.step (fun _ => Halted.stable)
    (fun w => Progress spool env start i names done rest w ∧ Uses spool C i days w.history) ?_ ⟨h, huses⟩
    fun u (now : Time) v hu _ hx => ?_
  · rintro a b hr ⟨ha, huses⟩
    have he := (hr ha.inv).2
    exact ⟨Progress.stable a b hr ha, huses.congr he.apart.subset fun _ => did_apart he.apart⟩
  · have hpass : Passes spool C env .now now i u v := passes_looks trivial hx
    refine ⟨fun _ => hpass.step, ?_⟩
    have hsubset : u.history ⊆ v.history := hpass.history ▸ List.subset_cons_self ..
    have hclean : Cleaning spool C env start i names done rest now days v := by
      refine ⟨hu.1.passes hstart hpass, hpass.history ▸ List.mem_cons_self .., hu.2.congr hsubset fun x => ?_⟩
      rw [hpass.history]
      exact did_cons_ne nofun
    refine .bind (fun _ => Halted.stable) ?_
    refine (yields_looks (fun _ h => h.progress.inv) Cleaning.stable (fun _ _ _ _ hs hp => hs.passes hstart hp)
      (fun _ _ _ _ h => h) (sentEntries_looks _) hclean).mono (fun entries w hw => ?_) fun _ _ h => h.progress.halted
    exact removeOld_yields hstart hw.2 hw.1

/-! ### What a run has read and listed -/

/-- What a history says and goes on saying as it grows is carried along. -/
theorem spool_frame {F : List (ClientEvent τ) → Prop} (hF : ∀ h h', h ⊆ h' → F h → F h')
    {Q : α → ClientState τ → Prop} {E : ε → ClientState τ → Prop} {p : Action ε α}
    (h : (spoolContract spool C env start i).Yields Q E p s) (hs : SpoolInv spool env start s) (hf : F s.history) :
    (spoolContract spool C env start i).Yields (fun a t => Q a t ∧ F t.history) E p s := by
  have hkept : ∀ u v : ClientState τ, SpoolInv spool env start u ∧ F u.history → SpoolStep spool C env i u v →
      SpoolInv spool env start v ∧ F v.history := by
    intro u v hu hstep
    refine ⟨hu.1.step hstart hstep, hF _ _ ?_ hu.2⟩
    rcases hstep.effect with ⟨hsame, -⟩ | ⟨e, -, hcons, -⟩
    · rw [hsame]
      exact List.Subset.refl _
    · rw [hcons]
      exact List.subset_cons_self ..
  refine (Yields.frame (B := fun w => SpoolInv spool env start w ∧ F w.history) ?_ ?_ h ⟨hs, hf⟩).mono
    (fun a t ht => ⟨ht.1, ht.2.2⟩) fun e t ht => ht.1
  · rintro u v hr ⟨hu, hf⟩
    exact ⟨(hr hu).1, hF _ _ (hr hu).2.apart.subset hf⟩
  · exact fun u v hg hu => hkept u v hu (hg hu.1)

/-- The pending entries are listed. -/
theorem listPending_yields (h : Progress spool env start i none [] [] s) : (spoolContract spool C env start i).Yields
    (fun entries t => ∃ names : Option (List String), entries = (names.getD []).map (pendingAt spool) ∧
      Progress spool env start i names [] (names.getD []) t)
    (fun _ => Halted spool env start i) (pendingEntries (pendingDir spool)) s := by
  have hstable : ∀ entries : List Path, (spoolContract spool C env start i).Stable fun t =>
      ∃ names : Option (List String), entries = (names.getD []).map (pendingAt spool) ∧
        Progress spool env start i names [] (names.getD []) t := by
    rintro entries u v hr ⟨names, hentries, hu⟩
    exact ⟨names, hentries, Progress.stable u v hr hu⟩
  unfold pendingEntries
  refine Yields.step (fun _ => Halted.stable) _ Progress.stable h
    fun u (answer : Except IoError (List (Path × Bool))) v hu _ hx => ?_
  cases answer with
  | ok l =>
    obtain ⟨hstep, hstate, hh, hmark⟩ := step_listing hu.held hx
    obtain ⟨names, hnames, hnodup, hpending⟩ := listing_names (execAs_file hx).1
    refine ⟨fun _ => hstep, .pure (hstable _) ⟨some names, hnames, ?_⟩⟩
    refine ⟨hu.inv.step hstart hstep, (holder_of_state hstate).trans hu.held, fun x => ?_, fun x hx => ?_, hnodup, rfl,
      fun entries => ?_⟩
    · rw [hh, ← hu.moved x]
      refine did_cons_ne ?_
      rw [hmark]
      nofun
    · rw [IsPending, hstate]
      exact hpending x hx
    · rw [hh, did_cons, hmark, hu.listing entries, hnames]
      simp
  | error e =>
    have hpass : Passes spool C env (.file (.readDir (pendingDir spool))) (.error e : Except IoError _) i u v :=
      passes_error (by simp) hx
    have hv := hu.passes hstart hpass
    refine ⟨fun _ => hpass.step, ?_⟩
    cases e with
    | notFound => exact .pure (hstable _) ⟨none, rfl, hv⟩
    | _ => exact .throw Halted.stable hv.halted

/-- The longest of the retentions read from the entries that were moved. -/
def Tracks (spool : Path) (C : Crates) (i : τ) (longest : Option UInt64) (done : List String)
    (h : List (ClientEvent τ)) : Prop :=
  longest = none ∧ done = [] ∨ ∃ days, longest = some days ∧ (∃ x ∈ done, Resolved spool C i x days h) ∧
    ∀ x ∈ done, ∃ d ≤ days, Resolved spool C i x d h

omit hstart in
theorem Tracks.mono (hh : h ⊆ h') (ht : Tracks spool C i longest done h) : Tracks spool C i longest done h' := by
  refine ht.imp_right fun ⟨days, hdays, ⟨x, hx, hr⟩, hall⟩ => ⟨days, hdays, ⟨x, hx, hr.mono hh⟩, fun y hy => ?_⟩
  obtain ⟨d, hd, hr⟩ := hall y hy
  exact ⟨d, hd, hr.mono hh⟩

omit hstart in
theorem Tracks.record {h : List (ClientEvent τ)} (ht : Tracks spool C i longest done h)
    (hr : Resolved spool C i x days h) : Tracks spool C i (recordRetention longest days) (done ++ [x]) h := by
  right
  rcases ht with ⟨rfl, rfl⟩ | ⟨most, rfl, ⟨y, hy, hry⟩, hall⟩
  · refine ⟨days, rfl, ⟨x, List.mem_singleton_self x, hr⟩, fun z hz => ⟨days, UInt64.le_refl _, ?_⟩⟩
    rwa [List.mem_singleton.mp hz]
  · -- the longer of the two is one of them and no shorter than either
    obtain ⟨hmost, hdays, hchosen⟩ : most ≤ max most days ∧ days ≤ max most days ∧
        (max most days = most ∨ max most days = days) := by
      show most ≤ ite _ _ _ ∧ days ≤ ite _ _ _ ∧ (ite _ _ _ = most ∨ ite _ _ _ = days)
      split
      · next hle => exact ⟨hle, UInt64.le_refl _, .inr rfl⟩
      · next hle => exact ⟨UInt64.le_refl _, (UInt64.le_total most days).resolve_left hle, .inl rfl⟩
    refine ⟨max most days, rfl, ?_, fun z hz => ?_⟩
    · rcases hchosen with heq | heq <;> rw [heq]
      · exact ⟨y, List.mem_append_left _ hy, hry⟩
      · exact ⟨x, List.mem_append_right _ (List.mem_singleton_self x), hr⟩
    · rcases List.mem_append.mp hz with hz | hz
      · obtain ⟨d, hd, hrd⟩ := hall z hz
        exact ⟨d, UInt64.le_trans hd hmost, hrd⟩
      · rw [List.mem_singleton.mp hz]
        exact ⟨days, hdays, hr⟩

omit hstart in
theorem Tracks.uses {h : List (ClientEvent τ)} (ht : Tracks spool C i longest done h)
    (hmoved : ∀ x, Did spool i (.moved x) h ↔ x ∈ done) : Uses spool C i (retentionOrDefault longest) h := by
  unfold Uses
  simp only [hmoved]
  rcases ht with ⟨rfl, rfl⟩ | ⟨days, rfl, hchosen, hall⟩
  · exact .inl ⟨fun _ => List.not_mem_nil, rfl⟩
  · exact .inr ⟨hchosen, hall⟩

theorem shipStoredEntries_yields (token : String) (config : ShipConfig) (shipped : Nat) (longest : Option UInt64)
    (h : Progress spool env start i names done rest s) (ht : Tracks spool C i longest done s.history) :
    (spoolContract spool C env start i).Yields
      (fun r t => (Progress spool env start i names (done ++ rest) [] t ∧ r.1 = shipped + rest.length) ∧
        Tracks spool C i r.2 (done ++ rest) t.history)
      (fun _ => Halted spool env start i)
      (shipStoredEntries C (sentDir spool) token config shipped longest (rest.map (pendingAt spool))) s := by
  induction rest generalizing done shipped longest s with
  | nil =>
    rw [List.append_nil]
    refine .pure (fun u v hr hu => ?_) ⟨⟨h, rfl⟩, ht⟩
    exact ⟨⟨Progress.stable u v hr hu.1.1, hu.1.2⟩, hu.2.mono (hr hu.1.1.inv).2.apart.subset⟩
  | cons x rest ih =>
    refine .bind (fun _ => Halted.stable) ?_
    have hresolve := progress_looks (C := C) hstart (Q := fun r : Url × UInt64 => Resolved spool C i x r.2)
      (fun _ _ _ hh => Resolved.mono hh) (resolveStoredEndpoint_looks x _) h
    refine (spool_frame hstart (fun _ _ => Tracks.mono) hresolve h.inv ht).mono (fun resolved u hu => ?_) fun _ _ h => h
    obtain ⟨⟨hu, hread⟩, htracks⟩ := hu
    refine .bind (fun _ => Halted.stable) ?_
    refine (spool_frame hstart (fun _ _ => Tracks.mono) (shipOne_yields hstart resolved.1 token config hu) hu.inv
      (htracks.record hread)).mono (fun _ v hv => ?_) fun _ _ h => h
    refine (ih (shipped + 1) _ hv.1 hv.2).mono (fun r w hw => ?_) fun _ _ h => h
    rw [List.append_assoc] at hw
    rw [List.length_cons]
    exact ⟨⟨hw.1.1, by omega⟩, hw.2⟩

/-! ### From the lock to the unlock -/

/-- A process that has done nothing yet that the spool shows. -/
structure Blank (spool : Path) (env : Env) (start : Disk) (i : τ) (w : ClientState τ) : Prop where
  inv : SpoolInv spool env start w
  none : ∀ m, m ≠ .other → ¬ Did spool i m w.history

/-- A run that has released the lock. What it had listed and not moved nobody had, and since
then only another run can have moved it. -/
structure Ended (spool : Path) (env : Env) (start : Disk) (i : τ) (names : Option (List String))
    (done rest : List String) (w : ClientState τ) : Prop where
  inv : SpoolInv spool env start w
  moved : ∀ x, Did spool i (.moved x) w.history ↔ x ∈ done
  nodup : (done ++ rest).Nodup
  split : done ++ rest = names.getD []
  listing : Listing spool i names w.history
  left : ∃ since before, w.history = since ++ (⟨i, .unlock (lockPath spool), ()⟩ : ClientEvent τ) :: before ∧
    ∀ x ∈ rest, (∀ j, ¬ Did spool j (.moved x) before) ∧ (IsPending spool w x ∨ ∃ j, Did spool j (.moved x) since)

/-- How a run can end. -/
def RunResult (spool : Path) (env : Env) (start : Disk) (i : τ) : Except ShipError Nat → ClientState τ → Prop
  | .ok n, w => ∃ names done, Ended spool env start i names done [] w ∧ n = done.length
  | .error _, w => Blank spool env start i w ∨ ∃ names done rest, Ended spool env start i names done rest w

omit hstart in
theorem Blank.stable : (spoolContract spool C env start i).Stable (Blank spool env start i) := by
  refine spoolContract_stable (fun w h => h.inv) fun s t h ht he => ⟨ht, fun m hm => ?_⟩
  rw [did_apart he.apart]
  exact h.none m hm

theorem Blank.passes (hp : Passes spool C env op v i s t) (h : Blank spool env start i s) :
    Blank spool env start i t := by
  refine ⟨h.inv.step hstart hp.step, fun m hm => ?_⟩
  rw [hp.history, did_cons_ne fun heq => hm (heq.symm.trans hp.unmarked)]
  exact h.none m hm

omit hstart in
theorem Ended.stable : (spoolContract spool C env start i).Stable (Ended spool env start i names done rest) := by
  refine spoolContract_stable (fun w h => h.inv) fun s t h ht he => ?_
  obtain ⟨new, hnew, -, hpending⟩ := he.grown
  obtain ⟨since, before, hh, hleft⟩ := h.left
  refine ⟨ht, fun x => (did_apart he.apart).trans (h.moved x), h.nodup, h.split,
    h.listing.congr fun _ => did_apart he.apart, new ++ since, before, ?_, fun x hx => ⟨(hleft x hx).1, ?_⟩⟩
  · rw [hnew, hh, List.append_assoc]
  · rcases (hleft x hx).2 with hx | ⟨j, hj⟩
    · exact (hpending x hx).imp_right fun ⟨j, hj⟩ => ⟨j, did_append.mpr (.inl hj)⟩
    · exact .inr ⟨j, did_append.mpr (.inr hj)⟩

omit hstart in
theorem RunResult.stable (r : Except ShipError Nat) :
    (spoolContract spool C env start i).Stable (RunResult spool env start i r) := by
  intro s t hr h
  cases r with
  | ok n =>
    obtain ⟨names, done, h, hn⟩ := h
    exact ⟨names, done, Ended.stable s t hr h, hn⟩
  | error e =>
    refine h.imp (Blank.stable s t hr) fun ⟨names, done, rest, h⟩ => ?_
    exact ⟨names, done, rest, Ended.stable s t hr h⟩

/-- The lock is released. -/
theorem Progress.unlock {v : Unit} (h : Progress spool env start i names done rest s)
    (hx : execAs env i (.unlock (lockPath spool)) s = some (v, t)) :
    SpoolStep spool C env i s t ∧ Ended spool env start i names done rest t := by
  obtain ⟨hstep, hdisk, hh⟩ := step_unlock h.held hx
  have hdid : ∀ m, m ≠ .unlocked → (Did spool i m t.history ↔ Did spool i m s.history) := by
    intro m hm
    rw [hh]
    refine did_cons_ne ?_
    rw [mark_unlock]
    exact hm.symm
  refine ⟨hstep, h.inv.step hstart hstep, fun x => (hdid (.moved x) nofun).trans (h.moved x), h.nodup,
    h.split, h.listing.congr fun l => hdid (.listed l) nofun, [], s.history, hh, fun x hx => ?_⟩
  have hpending := h.pending x hx
  refine ⟨fun j hj => h.inv.moved j x hj hpending, .inl ?_⟩
  rw [IsPending, hdisk]
  exact hpending

theorem guarded_yields {p : Action ShipError Nat} (h : (spoolContract spool C env start i).Yields
      (fun n t => ∃ names done, Progress spool env start i names done [] t ∧ n = done.length)
      (fun _ => Halted spool env start i) p s) :
    (spoolContract spool C env start i).Holds (RunResult spool env start i) (guarded spool p).run s := by
  refine Holds.andThen h fun r u hu => ?_
  cases r with
  | ok n =>
    refine Holds.call
      (fun t => ∃ names done, Progress spool env start i names done [] t ∧ n = done.length) ?_ hu
      fun t v w ⟨names, done, ht, hn⟩ _ hx => ?_
    · rintro t v hr ⟨names, done, ht, hn⟩
      exact ⟨names, done, Progress.stable t v hr ht, hn⟩
    · obtain ⟨hstep, hended⟩ := ht.unlock hstart hx
      exact ⟨fun _ => hstep, .done (RunResult.stable _) ⟨names, done, hended, hn⟩⟩
  | error e =>
    refine Holds.call _ Halted.stable hu fun t v w ⟨names, done, rest, ht⟩ _ hx => ?_
    obtain ⟨hstep, hended⟩ := ht.unlock hstart hx
    exact ⟨fun _ => hstep, .done (RunResult.stable _) (.inr ⟨names, done, rest, hended⟩)⟩

omit hstart in
/-- A call at the start of a program that leaves everything as it was. -/
theorem yields_passes {op : FileOp} {wrap : IoError → ε} {f : op.Value → Action ε α} {Q : α → ClientState τ → Prop}
    {E : ε → ClientState τ → Prop} (hA : (spoolContract spool C env start i).Stable A)
    (hE : ∀ e, (spoolContract spool C env start i).Stable (E e)) (hAE : ∀ e w, A w → E e w)
    (hpass : ∀ t (x : op.Answer) u, A t → execAs env i (.file op) t = some (x, u) →
      Passes spool C env (.file op) x i t u ∧ A u) (hs : A s)
    (hf : ∀ v t, A t → (spoolContract spool C env start i).Yields Q E (f v) t) :
    (spoolContract spool C env start i).Yields Q E (file wrap op >>= f) s := by
  refine Yields.step hE A hA hs fun t (x : op.Answer) u ht _ hx => ?_
  obtain ⟨hpassed, hu⟩ := hpass t x u ht hx
  refine ⟨fun _ => hpassed.step, ?_⟩
  cases x with
  | ok v => exact hf v u hu
  | error e => exact hAE _ u hu

theorem acquire_yields (h : Blank spool env start i s) : (spoolContract spool C env start i).Yields
    (fun _ => Progress spool env start i none [] []) (fun _ => Blank spool env start i)
    (acquire ShipError.io spool) s := by
  have hdir : spool.length ≤ spool.length + 1 := Nat.le_succ _
  refine yields_passes Blank.stable (fun _ => Blank.stable) (fun _ _ h => h) (fun t x u ht hx => ?_) h
    fun _ t ht => ?_
  · have hpass : Passes spool C env (.file (.createDirAll spool)) x i t u := passes_createDirAll hdir hx
    exact ⟨hpass, ht.passes hstart hpass⟩
  refine yields_passes Blank.stable (fun _ => Blank.stable) (fun _ _ h => h) (fun t x u ht hx => ?_) ht
    fun _ t ht => ?_
  · have hpass : Passes spool C env (.file (.openAppend (lockPath spool))) x i t u := passes_openAppend ht.inv.tidy hx
    exact ⟨hpass, ht.passes hstart hpass⟩
  intro u hu _ v w hx
  have hu := Blank.stable t u hu ht
  obtain ⟨hstep, hheld, -, hh⟩ := step_lock (hu.none .locked nofun) hx
  refine ⟨fun _ => hstep, fun z hz => Progress.stable w z hz ?_⟩
  have hdid : ∀ m, m ≠ .locked → m ≠ .other → ¬ Did spool i m w.history := by
    intro m hm hother
    rw [hh, did_cons_ne (by rw [mark_lock]; exact hm.symm)]
    exact hu.none m hother
  refine ⟨hu.inv.step hstart hstep, hheld, fun x => iff_of_false (hdid _ nofun nofun) List.not_mem_nil,
    fun x hx => absurd hx List.not_mem_nil, .nil, rfl, fun l => iff_of_false (hdid _ nofun nofun) nofun⟩

/-- The two directories are made, at the start of every run. -/
theorem layout_yields {α : Type} {f : Action ShipError α} {Q : α → ClientState τ → Prop}
    (h : Progress spool env start i none [] [] s)
    (hf : ∀ t, Progress spool env start i none [] [] t →
      (spoolContract spool C env start i).Yields Q (fun _ => Halted spool env start i) f t) :
    (spoolContract spool C env start i).Yields Q (fun _ => Halted spool env start i) (do
      file .io (.createDirAll (pendingDir spool))
      file .io (.createDirAll (sentDir spool))
      f) s := by
  have hmake : ∀ {p : Path} t (x : Except IoError Unit) u, p.length ≤ spool.length + 1 →
      Progress spool env start i none [] [] t → execAs env i (.file (.createDirAll p)) t = some (x, u) →
      Passes spool C env (.file (.createDirAll p)) x i t u ∧ Progress spool env start i none [] [] u := by
    intro p t x u hp ht hx
    have hpass : Passes spool C env (.file (.createDirAll p)) x i t u := passes_createDirAll hp hx
    exact ⟨hpass, ht.passes hstart hpass⟩
  have hlength : (pendingDir spool).length ≤ spool.length + 1 ∧ (sentDir spool).length ≤ spool.length + 1 := by
    simp [pendingDir, sentDir]
  refine yields_passes Progress.stable (fun _ => Halted.stable) (fun _ _ h => h.halted)
    (fun t x u => hmake t x u hlength.1) h fun _ t ht => ?_
  exact yields_passes Progress.stable (fun _ => Halted.stable) (fun _ _ h => h.halted)
    (fun t x u => hmake t x u hlength.2) ht fun _ => hf

/-- A run takes the lock, goes through its body and releases it. -/
theorem run_holds {p : Action ShipError Nat} (h : Blank spool env start i s)
    (hp : ∀ t, Progress spool env start i none [] [] t → (spoolContract spool C env start i).Yields
      (fun n t => ∃ names done, Progress spool env start i names done [] t ∧ n = done.length)
      (fun _ => Halted spool env start i) p t) :
    (spoolContract spool C env start i).Holds (RunResult spool env start i)
      (acquire ShipError.io spool >>= fun _ => guarded spool p).run s := by
  refine Holds.andThen (acquire_yields hstart h) fun r t ht => ?_
  cases r with
  | ok _ => exact guarded_yields hstart (hp t ht)
  | error e => exact .done (RunResult.stable _) (.inl ht)

/-- **A run to one endpoint.** -/
theorem shipPending_holds (endpoint : Url) (token : String) (config : ShipConfig) (h : Blank spool env start i s) :
    (spoolContract spool C env start i).Holds (RunResult spool env start i)
      (shipPending C spool endpoint token config).run s := by
  unfold shipPending
  simp only [join_pending, join_sent]
  refine run_holds hstart h fun t ht => layout_yields hstart ht fun t ht => ?_
  have huses : Uses spool C i DEFAULT_SENT_RETENTION_DAYS t.history :=
    .inl ⟨fun x hx => List.not_mem_nil ((ht.moved x).mp hx), rfl⟩
  refine .bind (fun _ => Halted.stable) ?_
  refine (cleanupSent_yields hstart ht huses).mono (fun _ u hu => ?_) fun _ _ h => h
  refine .bind (fun _ => Halted.stable) ?_
  refine (listPending_yields hstart hu).mono (fun entries v hv => ?_) fun _ _ h => h
  obtain ⟨names, rfl, hv⟩ := hv
  refine (shipEntries_yields hstart endpoint token config 0 hv).mono (fun n w hw => ?_) fun _ _ h => h
  exact ⟨names, _, hw.1, by rw [hw.2, Nat.zero_add, List.nil_append]⟩

/-- **A run to the stored endpoints.** -/
theorem shipStored_holds (token : String) (config : ShipConfig) (h : Blank spool env start i s) :
    (spoolContract spool C env start i).Holds (RunResult spool env start i) (shipStored C spool token config).run s := by
  unfold shipStored
  simp only [join_pending, join_sent]
  refine run_holds hstart h fun t ht => layout_yields hstart ht fun t ht => ?_
  refine .bind (fun _ => Halted.stable) ?_
  refine (listPending_yields hstart ht).mono (fun entries u hu => ?_) fun _ _ h => h
  obtain ⟨names, rfl, hu⟩ := hu
  refine .bind (fun _ => Halted.stable) ?_
  refine (shipStoredEntries_yields hstart token config 0 none hu (.inl ⟨rfl, rfl⟩)).mono (fun r v hv => ?_)
    fun _ _ h => h
  obtain ⟨⟨hv, hshipped⟩, htracks⟩ := hv
  refine .bind (fun _ => Halted.stable) ?_
  refine (cleanupSent_yields hstart hv (htracks.uses hv.moved)).mono (fun _ w hw => ?_) fun _ _ h => h
  refine .pure ?_ ⟨names, _, hw, by rw [hshipped, Nat.zero_add, List.nil_append]⟩
  rintro a b hr ⟨names, done, ha, hn⟩
  exact ⟨names, done, Progress.stable a b hr ha, hn⟩

end Steps

end Contract

end Detritus.Client
