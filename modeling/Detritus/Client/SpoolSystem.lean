import Detritus.Process.Habits
import Detritus.Client.Manifest
import Detritus.Client.SpoolEntries
import Detritus.Client.SpoolHooks

/-! A spool directory, its shippers and its panic hooks.

Any number of runs, to one endpoint or to the stored ones, and any number of captures share
a directory. Each makes its calls one by one in any order with the others', gets any answer
from the server and any fault from the disk, and may be stopped before any call; a process
that is stopped lets go of the lock. -/
namespace Detritus.Client
open Files Protocol Process Contract Discipline

/-- One shipping run. -/
inductive Run where
  | pending (endpoint : Url) (token : String) (config : ShipConfig)
  | stored (token : String) (config : ShipConfig)

/-- What a run executes. -/
def Run.program (C : Crates) (dir : Path) : Run → Action ShipError Nat
  | pending endpoint token config => shipPending C dir endpoint token config
  | stored token config => shipStored C dir token config

/-- Runs and hooks on one spool. -/
structure SpoolSystem (ι κ : Type) where
  crates : Crates
  env : Env
  dir : Path
  run : ι → Run
  hook : κ → PanicHookConfig × Capture
  shared : ∀ k, (hook k).1.spoolDir = dir

namespace SpoolSystem
variable {ι κ : Type} [DecidableEq ι] [DecidableEq κ]

@[reducible] def Result : ι ⊕ κ → Type
  | .inl _ => Except ShipError Nat
  | .inr _ => Except IoError Unit

variable (Y : SpoolSystem ι κ)

/-- Tasks are runs or hooks. -/
def program : (i : ι ⊕ κ) → Program clientInterface (Result i)
  | .inl i => ((Y.run i).program Y.crates Y.dir).run
  | .inr k => ((Y.hook k).2.write Y.crates (Y.hook k).1).run

def pool : Pool clientInterface (ι ⊕ κ) (ClientState (ι ⊕ κ)) Result where
  task i := Task.once (Y.program i)
  exec := execAs Y.env
  stop i w := some ⟨w.state.release i, w.history⟩

/-- Nobody has called yet, and no lock is held. -/
def start (disk : Disk) : Config Y.pool := Y.pool.start ⟨⟨disk, fun _ => none⟩, []⟩

/-! ### Habits -/

section Habits
variable {τ : Type} {i : τ} {Q : Unit → List (ClientEvent τ) → Prop} {h : List (ClientEvent τ)}

/-- What a run does between the lock and the unlock: it neither unlocks nor asks for an identifier. -/
def inside (spool : Path) : Discipline clientInterface τ where
  fits := (looking spool : Discipline clientInterface τ).fits
  may _ op _ := op ≠ .newUuid ∧ ∀ p, op ≠ .unlock p
  grows _ h := h

variable {spool : Path} {C : Crates}

theorem inside_of_looks {ε α : Type} {Q : α → List (ClientEvent τ) → Prop} {p : Action ε α}
    (hp : (looking spool).Minds i Q p h) : (inside spool).Minds i (fun _ _ => True) p h := by
  have hinside : (inside spool).Minds i Q p h := by
    refine Obeys.weaken (D := looking spool) (fun _ _ h => h) (fun op h hop => ?_) hp
    cases op with
    | newUuid => exact hop.elim
    | unlock p => exact hop.elim
    | _ => exact ⟨nofun, nofun⟩
  exact hinside.mono fun _ _ _ _ => trivial

theorem inside_file {ε β : Type} {op : FileOp} {wrap : IoError → ε} {f : op.Value → Action ε β}
    (hf : ∀ v h, (inside spool).Minds i (fun _ _ => True) (f v) h) :
    (inside spool).Minds i (fun _ _ => True) (file wrap op >>= f) h :=
  minds_file ⟨nofun, nofun⟩ fun v _ => hf v _

theorem inside_call {ε β : Type} {op : ClientOp} {f : op.Answer → Action ε β} (hop : op ≠ .newUuid ∧ ∀ p, op ≠ .unlock p)
    (hf : ∀ x h, (inside spool).Minds i (fun _ _ => True) (f x) h) :
    (inside spool).Minds i (fun _ _ => True) (call op >>= f) h :=
  minds_call hop fun x _ => hf x _

theorem inside_bind {ε α β : Type} {p : Action ε α} {f : α → Action ε β}
    (hp : (inside spool).Minds i (fun _ _ => True) p h) (hf : ∀ a h, (inside spool).Minds i (fun _ _ => True) (f a) h) :
    (inside spool).Minds i (fun _ _ => True) (p >>= f) h :=
  Minds.bind hp fun a h _ _ => hf a h

theorem inside_shipOne (endpoint : Url) (token : String) (config : ShipConfig) (sent entry : Path)
    (h : List (ClientEvent τ)) :
    (inside spool).Minds i (fun _ _ => True) (shipOne C sent endpoint token config entry) h := by
  refine inside_bind (inside_of_looks (readEnvelope_looks entry h)) fun envelope h => inside_bind ?_ fun _ h => ?_
  · refine minds_lift fun compressed _ => ?_
    dsimp only
    split
    · exact .throw _
    · refine inside_call ⟨nofun, nofun⟩ fun answer h => ?_
      cases answer with
      | error e => exact .throw _
      | ok response =>
        dsimp only
        split
        · split
          · exact .throw _
          · exact .pure trivial
        · exact .throw _
  · split
    · exact .throw _
    · refine inside_call ⟨nofun, nofun⟩ fun there h => ?_
      have hrename : ∀ (src dst : Path) (h : List (ClientEvent τ)),
          (inside spool).Minds i (fun _ _ => True) (file ShipError.io (.renameDir src dst)) h :=
        fun _ _ _ => ⟨⟨nofun, nofun⟩, fun _ _ _ _ => trivial⟩
      dsimp only
      split
      · exact inside_file fun _ h => hrename _ _ h
      · exact hrename _ _ h

theorem inside_removeOld (cutoff : Time) (entries : List Path) (h : List (ClientEvent τ)) :
    (inside spool).Minds i (fun _ _ => True) (removeOld cutoff entries) h := by
  induction entries generalizing h with
  | nil => exact .pure trivial
  | cons entry rest ih =>
    refine inside_file fun metadata h => ?_
    dsimp only
    split
    · exact inside_file fun _ h => ih h
    · exact ih h

theorem inside_pendingEntries (dir : Path) (h : List (ClientEvent τ)) :
    (inside spool).Minds i (fun _ _ => True) (pendingEntries dir) h := by
  refine inside_call ⟨nofun, nofun⟩ fun listing h => ?_
  cases listing with
  | ok l => exact .pure trivial
  | error e => cases e with
    | notFound => exact .pure trivial
    | _ => exact .throw _

theorem inside_cleanupSent (sent : Path) (days : UInt64) (h : List (ClientEvent τ)) :
    (inside spool).Minds i (fun _ _ => True) (cleanupSent sent days) h :=
  inside_call ⟨nofun, nofun⟩ fun _ h => inside_bind (inside_pendingEntries sent h) fun _ h => inside_removeOld _ _ h

theorem inside_shipEntries {ship : Path → Action ShipError Unit}
    (hship : ∀ entry h, (inside spool).Minds i (fun _ _ => True) (ship entry) h) (shipped : Nat) (entries : List Path)
    (h : List (ClientEvent τ)) : (inside spool).Minds i (fun _ _ => True) (shipEntries ship shipped entries) h := by
  induction entries generalizing shipped h with
  | nil => exact .pure trivial
  | cons entry rest ih => exact inside_bind (hship entry h) fun _ h => ih _ h

theorem inside_resolveStoredEndpoint (entry : Path) (h : List (ClientEvent τ)) :
    (inside spool).Minds i (fun _ _ => True) (resolveStoredEndpoint C entry) h := by
  refine inside_bind (inside_call ⟨nofun, nofun⟩ fun there h => ?_) fun stored h => ?_
  · split
    · exact inside_file fun bytes h => minds_lift fun config _ => .pure trivial
    · exact .pure trivial
  · cases stored with
    | none => exact .throw _
    | some config =>
      dsimp only
      split
      · exact .throw _
      · exact .pure trivial

theorem inside_shipStoredEntries (token : String) (config : ShipConfig) (sent : Path) (shipped : Nat)
    (longest : Option UInt64) (entries : List Path) (h : List (ClientEvent τ)) :
    (inside spool).Minds i (fun _ _ => True) (shipStoredEntries C sent token config shipped longest entries) h := by
  induction entries generalizing shipped longest h with
  | nil => exact .pure trivial
  | cons entry rest ih =>
    refine inside_bind (inside_resolveStoredEndpoint entry h) fun resolved h => ?_
    exact inside_bind (inside_shipOne _ _ _ _ _ h) fun _ h => ih _ _ h

/-- A run asks for no identifier, and the unlock is its last call. -/
def runHabits (spool : Path) : Habits clientInterface where
  fits := (looking spool : Discipline clientInterface Unit).fits
  never op := op = .newUuid
  last op := ∃ p, op = .unlock p

/-- A capture takes no lock. -/
def hookHabits (spool : Path) : Habits clientInterface where
  fits := (looking spool : Discipline clientInterface Unit).fits
  never op := ∃ p, op = .lock p
  last _ := False

theorem keeps_run {α : Type} {p : Action ShipError α} (hp : ∀ h, (inside spool).Minds () (fun _ _ => True) p h) :
    (runHabits spool).Keeps (acquire ShipError.io spool >>= fun _ => guarded spool p).run := by
  have hinside : ∀ (op : ClientOp) (h : List (ClientEvent Unit)), (inside spool).may () op h →
      ¬ (runHabits spool).never op ∧ ¬ (runHabits spool).last op :=
    fun op _ hop => ⟨hop.1, fun ⟨p, heq⟩ => hop.2 p heq⟩
  have hacquire : (inside spool).Minds () (fun _ _ => True) (acquire ShipError.io spool) ([] : List (ClientEvent Unit)) :=
    inside_file fun _ h => inside_file fun _ h => ⟨⟨nofun, nofun⟩, fun _ _ _ _ => trivial⟩
  refine Habits.Keeps.bind hacquire (fun _ _ h => h) hinside fun r => ?_
  cases r with
  | error e => trivial
  | ok _ =>
    refine Habits.Keeps.bind (hp []) (fun _ _ h => h) hinside fun r => ?_
    exact ⟨nofun, fun _ _ => ⟨r, rfl⟩, fun _ _ => trivial⟩

theorem run_keeps (run : Run) : (runHabits spool).Keeps (run.program C spool).run := by
  cases run with
  | pending endpoint token config =>
    refine keeps_run fun h => inside_file fun _ h => inside_file fun _ h => ?_
    refine inside_bind (inside_cleanupSent _ _ h) fun _ h => inside_bind (inside_pendingEntries _ h) fun entries h => ?_
    exact inside_shipEntries (fun entry h => inside_shipOne _ _ _ _ _ h) 0 entries h
  | stored token config =>
    refine keeps_run fun h => inside_file fun _ h => inside_file fun _ h => ?_
    refine inside_bind (inside_pendingEntries _ h) fun entries h => ?_
    refine inside_bind (inside_shipStoredEntries _ _ _ _ _ _ h) fun shipped h => ?_
    exact inside_bind (inside_cleanupSent _ _ h) fun _ h => .pure trivial

/-- Code that takes no lock. -/
def lockless : Discipline clientInterface Unit := ⟨fun _ _ => True, fun _ op _ => ∀ p, op ≠ .lock p, fun _ h => h⟩

theorem hook_keeps {config : PanicHookConfig} (hdir : config.spoolDir = spool) (capture : Capture) :
    (hookHabits spool).Keeps (capture.write C config).run := by
  have hfill : ∀ (u : Uuid) (h : List (ClientEvent Unit)),
      lockless.Minds () (fun _ _ => True) (capture.fill C config (pendingAt spool u.toString)) h := by
    intro u h
    refine Obeys.weaken (D := writing spool u.toString) (fun _ _ _ => trivial) (fun op h hop => ?_)
      (fill_minds config capture h)
    rcases hop with hlooks | ⟨name, rfl⟩ | ⟨p, g, bytes, rfl, -⟩
    · cases op with
      | lock p => exact hlooks.elim
      | _ => exact nofun
    · exact nofun
    · exact nofun
  have hwrite : lockless.Minds () (fun _ _ => True) (capture.write C config) [] := by
    rw [capture.write_eq, config.entry_pendingAt hdir]
    exact minds_call nofun fun u _ => minds_file nofun fun _ _ => hfill u _
  exact Habits.Keeps.of_obeys hwrite (fun _ _ _ => trivial) fun op _ hop => ⟨fun ⟨p, heq⟩ => hop p heq, id⟩

end Habits

/-! ### Together -/

def habits : ι ⊕ κ → Habits clientInterface
  | .inl _ => runHabits Y.dir
  | .inr _ => hookHabits Y.dir

theorem straight : Y.pool.Straight (fun i => World.exec Y.env i) where
  exec := rfl
  stop _ w w' h := by rw [← Option.some.inj h]
  once _ := inferInstanceAs (IsEmpty Empty)

theorem start_habitual (disk : Disk) : Pool.Straight.Habitual Y.habits (Y.start disk) := by
  refine ⟨fun i p hp => ?_, nofun⟩
  obtain rfl := Option.some.inj hp
  cases i with
  | inl i => exact (run_keeps _).map _
  | inr k => exact (hook_keeps (Y.shared k) _).map _

theorem habitual {disk : Disk} {allows : ι ⊕ κ → ClientOp → ClientState (ι ⊕ κ) → Prop} {c : Config Y.pool}
    (hr : (Y.start disk).Reach allows c) : Pool.Straight.Habitual Y.habits c := by
  refine Y.straight.reach_habitual (fun i n op w x w' hx => ?_) hr (Y.start_habitual disk)
  have hfits : (looking Y.dir : Discipline clientInterface (ι ⊕ κ)).fits op x := looking_fits n op w x w' hx
  cases i with
  | inl i => exact hfits
  | inr k => exact hfits

theorem release_holder {τ : Type} [DecidableEq τ] (spool : Path) (i : τ) (w : ClientState τ) :
    holder spool ⟨w.state.release i, w.history⟩ = if holder spool w = some i then none else holder spool w := rfl

theorem stop_guarantee {disk : Disk} {i : ι ⊕ κ} {s t : ClientState (ι ⊕ κ)} (h : Y.pool.stop i s = some t) :
    Guarantees Y.dir Y.crates Y.env disk i s t := by
  obtain rfl := Option.some.inj h
  have hidle : Idle Y.dir s ⟨s.state.release i, s.history⟩ := fun _ => ⟨rfl, rfl, fun _ => rfl, fun _ => rfl⟩
  refine fun _ => ⟨.inl ⟨rfl, hidle, ?_⟩, fun h => h, Nat.le_refl _, fun _ _ _ h => .inl h⟩
  rw [release_holder]
  by_cases hi : holder Y.dir s = some i
  · exact .inl ⟨hi, if_pos hi⟩
  · exact .inr ⟨hi, if_neg hi⟩

variable {Y} {disk : Disk} (hstart : Orderly Y.dir Y.env disk)

/-- What each process is proved to do. -/
def specification : Y.pool.Specification (fun _ _ _ => True) where
  rely := Relies Y.dir Y.env disk
  guarantee := Guarantees Y.dir Y.crates Y.env disk
  refl := Relies.refl
  trans _ := Relies.trans
  head _ := Empty.elim
  result
    | .inl i, r => RunResult Y.dir Y.env disk (.inl i) r
    | .inr _, _ => SpoolInv Y.dir Y.env disk
  within _ _ hij _ _ hg := hg.relies hstart hij
  stops _ _ _ h := Y.stop_guarantee h

include hstart

theorem turns : (specification hstart).Turns := fun _ v => v.elim

theorem start_inv : SpoolInv Y.dir Y.env disk (Y.start disk).world := .initial hstart _ rfl

theorem start_at : (specification hstart).At (Y.start disk) := by
  intro i p hp
  obtain rfl := Option.some.inj hp
  have hsilent : Silent Y.dir Y.env disk i (Y.start disk).world := ⟨start_inv hstart, nofun⟩
  refine Holds.bind ?_
  cases i with
  | inl i =>
    have hrun : (spoolContract Y.dir Y.crates Y.env disk (.inl i)).Holds (RunResult Y.dir Y.env disk (.inl i))
        ((Y.run i).program Y.crates Y.dir).run (Y.start disk).world := by
      cases hi : Y.run i with
      | pending endpoint token config => exact shipPending_holds hstart endpoint token config hsilent.blank
      | stored token config => exact shipStored_holds hstart token config hsilent.blank
    exact hrun.mono fun r t ht => Holds.done (RunResult.stable r) ht
  | inr k =>
    refine (capture_holds hstart (Y.shared k) (Y.hook k).2 hsilent).mono fun r t ht => ?_
    exact Holds.done (fun _ _ hr h => (hr h).1) ht

variable {c d : Config Y.pool} (hc : (Y.start disk).Reach (fun _ _ _ => True) c)
include hc

theorem reach_at : (specification hstart).At c :=
  (specification hstart).reach_at (turns hstart) hc (start_at hstart)

theorem reach_inv : SpoolInv Y.dir Y.env disk c.world :=
  (specification hstart).reach_invariant (turns hstart) (SpoolInv Y.dir Y.env disk)
    (fun _ _ _ hs hg => hs.step hstart (hg hs)) hc (start_at hstart) (start_inv hstart)

/-- One move, as the spool sees it: nothing, a stop, or a call of a process that is not over. -/
theorem step_cases (hs : c.Step (fun _ _ _ => True) d) : d.world = c.world ∨
    ∃ i, SpoolStep Y.dir Y.crates Y.env i c.world d.world ∧
      (d.world.history = c.world.history ∧ d.thread i = none ∨
        ∃ e : ClientEvent (ι ⊕ κ), e.task = i ∧ d.world.history = e :: c.world.history ∧ ¬ c.Over i) := by
  have hinv := reach_inv hstart hc
  cases hs with
  | @call i op next x s ht ha hx =>
    refine .inr ⟨i, (reach_at hstart hc i _ ht c.world (Relies.refl i _) trivial x s hx).1 hinv, .inr ?_⟩
    refine ⟨⟨i, op, x⟩, rfl, (record_eq_some.mp hx).2, ?_⟩
    rintro (hnone | ⟨a, ha⟩)
    · rw [ht] at hnone
      cases hnone
    · rw [Config.Finished, ht] at ha
      cases ha
  | turn _ => exact .inl rfl
  | @stop i q s ht hs =>
    exact .inr ⟨i, Y.stop_guarantee hs hinv, .inl ⟨Y.straight.stop _ _ _ hs, Config.set_self ..⟩⟩

omit hstart hc in
theorem reach_subset (hd : c.Reach (fun _ _ _ => True) d) : c.world.history ⊆ d.world.history := by
  induction hd with
  | refl => exact List.Subset.refl _
  | step _ hs ih =>
    rcases Y.straight.step_history hs with hsame | ⟨e, hcons, -⟩
    · rw [hsame]
      exact ih
    · rw [hcons]
      exact fun e he => List.mem_cons_of_mem _ (ih he)

omit hstart in
/-- A run owns no name. -/
theorem not_owns_run (i : ι) (x : String) : ¬ Owns Y.dir (.inl i) x c.world.history := by
  rintro ⟨u, -, e, he, htask, hmark⟩
  have hnever := ((Y.habitual hc).2 e he).1
  have hop := mark_from Y.dir e
  rw [hmark] at hop
  rw [htask] at hnever
  exact hnever hop

omit hstart in
/-- A capture takes no lock. -/
theorem not_locked_hook (k : κ) : ¬ Did Y.dir (.inr k) .locked c.world.history := by
  rintro ⟨e, he, htask, hmark⟩
  have hnever := ((Y.habitual hc).2 e he).1
  have hop := mark_from Y.dir e
  rw [hmark] at hop
  rw [htask] at hnever
  exact hnever ⟨_, hop⟩

omit hstart in
/-- A run that has released the lock is over. -/
theorem over_of_unlocked {i : ι} (h : Did Y.dir (.inl i) .unlocked c.world.history) : c.Over (.inl i) := by
  obtain ⟨e, he, htask, hmark⟩ := h
  have hlast := ((Y.habitual hc).2 e he).2
  have hop := mark_from Y.dir e
  rw [hmark] at hop
  rw [htask] at hlast
  exact hlast ⟨_, hop⟩

/-- Who has taken the lock holds it or is over. -/
theorem locked_over (i : ι ⊕ κ) (h : Did Y.dir i .locked c.world.history) :
    c.Over i ∨ holder Y.dir c.world = some i := by
  induction hc with
  | refl =>
    obtain ⟨e, he, -⟩ := h
    cases he
  | @step c d hc hs ih =>
    rcases step_cases hstart hc hs with hsame | ⟨j, hstep, hmove⟩
    · rw [hsame] at h ⊢
      exact (ih h).imp_left (Y.straight.step_over hs)
    rcases hmove with ⟨hhistory, hnone⟩ | ⟨e, htask, hcons, -⟩
    · rw [hhistory] at h
      refine (ih h).elim (fun hover => .inl (Y.straight.step_over hs hover)) fun hheld => ?_
      rcases hstep.stopped hhistory with ⟨hj, -⟩ | ⟨-, hsame⟩
      · obtain rfl := Option.some.inj (hheld.symm.trans hj)
        exact .inl (.inl hnone)
      · exact .inr (hsame.trans hheld)
    · have heffect := hstep.called hcons
      by_cases hlocked : mark Y.dir e = .locked
      · rw [hlocked] at heffect
        rw [hcons] at h
        rcases did_cons.mp h with ⟨hi, -⟩ | h
        · exact .inr (hi ▸ htask ▸ heffect.2.1)
        · refine (ih h).elim (fun hover => .inl (Y.straight.step_over hs hover)) fun hheld => ?_
          rw [heffect.1] at hheld
          cases hheld
      · have hi := h
        rw [hcons, did_cons_ne hlocked] at h
        refine (ih h).elim (fun hover => .inl (Y.straight.step_over hs hover)) fun hheld => ?_
        by_cases hunlocked : mark Y.dir e = .unlocked
        · -- only the holder unlocks, and then it is over
          rw [hunlocked] at heffect
          obtain rfl := Option.some.inj (hheld.symm.trans heffect.1)
          cases i with
          | inr k => exact absurd hi (not_locked_hook (hc.step hs) k)
          | inl i =>
            refine .inl (over_of_unlocked (hc.step hs) ?_)
            rw [hcons]
            exact did_cons.mpr (.inl ⟨htask, hunlocked⟩)
        · exact .inr ((heffect.holder_eq hlocked hunlocked).trans hheld)

/-- Where two runs got a success for one entry, the earlier was over before, and had not moved it. -/
theorem acked_twice {since before : List (ClientEvent (ι ⊕ κ))} {e : ClientEvent (ι ⊕ κ)} {i : ι ⊕ κ} {x : String}
    (hh : c.world.history = since ++ e :: before) (hacked : mark Y.dir e = .acked x) (hne : e.task ≠ i)
    (hbefore : Did Y.dir i (.acked x) before) :
    c.Over i ∧ (∀ e' ∈ since, e'.task ≠ i) ∧ ¬ Did Y.dir i (.moved x) c.world.history := by
  induction hc generalizing since with
  | refl =>
    have hnil : ([] : List (ClientEvent (ι ⊕ κ))) = since ++ e :: before := hh
    simp at hnil
  | @step c d hc hs ih =>
    rcases Y.straight.step_history hs with hsame | ⟨new, hcons, hnot⟩
    · rw [hsame] at hh ⊢
      obtain ⟨hover, hrest⟩ := ih hh
      exact ⟨Y.straight.step_over hs hover, hrest⟩
    · rw [hcons] at hh ⊢
      cases since with
      | nil =>
        obtain ⟨rfl, rfl⟩ := List.cons.inj hh
        rcases step_cases hstart hc hs with hsame | ⟨j, hstep, ⟨hhistory, -⟩ | ⟨e', htask, hcons', -⟩⟩
        · exact absurd (hcons.symm.trans (congrArg Recorded.history hsame)) (List.cons_ne_self _ _)
        · exact absurd (hcons.symm.trans hhistory) (List.cons_ne_self _ _)
        · obtain rfl := (List.cons.inj (hcons.symm.trans hcons')).1
          have heffect := hstep.called hcons
          rw [hacked] at heffect
          obtain ⟨hheld, -, hpending, -⟩ := heffect
          have hinv := reach_inv hstart hc
          have hover : c.Over i := by
            refine (locked_over hstart hc i (hinv.locked i (.inr ⟨x, hbefore⟩))).resolve_right fun hi => hne ?_
            exact htask.trans (Option.some.inj (hheld.symm.trans hi))
          refine ⟨Y.straight.step_over hs hover, nofun, ?_⟩
          rw [did_cons_ne (by rw [hacked]; nofun)]
          exact fun hmoved => hinv.moved i x hmoved hpending
      | cons e' since =>
        obtain ⟨rfl, hrest⟩ := List.cons.inj hh
        obtain ⟨hover, hsince, hmoved⟩ := ih hrest
        have htask : new.task ≠ i := fun heq => hnot (heq ▸ hover)
        refine ⟨Y.straight.step_over hs hover, fun e' he' => ?_, fun hm => ?_⟩
        · rcases List.mem_cons.mp he' with rfl | he'
          · exact htask
          · exact hsince e' he'
        · rcases did_cons.mp hm with ⟨heq, -⟩ | hm
          · exact htask heq
          · exact hmoved hm

/-- **What becomes of an entry from one moment to a later one.** -/
theorem reach_entry (hd : c.Reach (fun _ _ _ => True) d) {x : String} (hx : Present Y.dir c.world x) :
    (Present Y.dir d.world x ∧ ((∀ k, Owns Y.dir (.inr k) x c.world.history → c.Over (.inr k)) →
        entryFiles Y.dir d.world x = entryFiles Y.dir c.world x)) ∨
      ¬ Present Y.dir d.world x ∧ CleanedUp Y.dir Y.crates x d.world.history := by
  have hused : Used Y.dir disk x c.world.history :=
    (reach_inv hstart hc).known x (hx.imp_right .inl)
  induction hd with
  | refl => exact .inl ⟨hx, fun _ => rfl⟩
  | @step d e hd hs ih =>
    have hreach := hc.trans hd
    have hinv := reach_inv hstart hreach
    have hsubset := reach_subset hd
    rcases step_cases hstart hreach hs with hsame | ⟨j, hstep, -⟩
    · rw [hsame]
      exact ih
    rcases ih with ⟨hpresent, hfiles⟩ | ⟨hgone, hcleaned⟩
    · refine (hstep.entry hinv hstart hpresent).imp_left fun ⟨hpresent', hfiles'⟩ => ⟨hpresent', fun hover => ?_⟩
      refine (hfiles' fun new hcons howns => ?_).trans (hfiles hover)
      -- only its owner could change the entry, and that one is over
      rcases Y.straight.step_history hs with hsame | ⟨new', hcons', hnot⟩
      · exact absurd (hcons.symm.trans hsame) (List.cons_ne_self _ _)
      · obtain rfl := (List.cons.inj (hcons.symm.trans hcons')).1
        cases htask : new.task with
        | inl i =>
          rw [htask] at howns
          exact not_owns_run hreach i x howns
        | inr k =>
          rw [htask] at howns hnot
          have howned := (hinv.owner_of_used hstart hsubset hused howns).1
          exact hnot (Y.straight.reach_over hd (hover k howned)).1
    · have hmono : ∀ i m, Did Y.dir i m c.world.history → Did Y.dir i m d.world.history := fun _ _ h => h.mono hsubset
      refine .inr ⟨hstep.gone hinv hstart (hused.mono hmono) hgone, ?_⟩
      rcases Y.straight.step_history hs with hsame | ⟨new, hcons, -⟩
      · rw [hsame]
        exact hcleaned
      · rw [hcons]
        exact hcleaned.append [new]

/-! ### Safety -/

omit hstart hc

/-- What holds of a spool from one moment to a later one. -/
structure Safe (Y : SpoolSystem ι κ) (disk : Disk) (c d : Config Y.pool) : Prop where
  /-- An entry that is there stays in one place, with its files as they are once its capture has
  come to an end, unless a clean-up removes it. -/
  kept : ∀ x, Present Y.dir c.world x →
    (Xor (IsPending Y.dir d.world x) (IsSent Y.dir d.world x) ∧
      ((∀ k, Owns Y.dir (.inr k) x c.world.history → c.Over (.inr k)) →
        entryFiles Y.dir d.world x = entryFiles Y.dir c.world x)) ∨
    ¬ Present Y.dir d.world x ∧ CleanedUp Y.dir Y.crates x d.world.history
  /-- What was sent, some run has got a success for. -/
  sent : ∀ x, IsSent Y.dir d.world x → (disk.dir (sentAt Y.dir x)).isSome = true ∨
    ∃ i, Did Y.dir (.inl i) (.acked x) d.world.history
  /-- A run that ends well has moved all that it listed. -/
  shipped : ∀ i n, d.Finished (.inl i) (.ok n) → ∃ names, Listing Y.dir (.inl i) names d.world.history ∧
    (names.getD []).Nodup ∧ n = (names.getD []).length ∧
    ∀ x, Did Y.dir (.inl i) (.moved x) d.world.history ↔ x ∈ names.getD []
  /-- One that fails has moved the first of them; the others were pending when it let go of the
  lock, and since then only another run can have moved them. -/
  left : ∀ i e, d.Finished (.inl i) (.error e) → ∃ names done rest, Listing Y.dir (.inl i) names d.world.history ∧
    names.getD [] = done ++ rest ∧ (∀ x, Did Y.dir (.inl i) (.moved x) d.world.history ↔ x ∈ done) ∧
    ∀ x ∈ rest, ∃ since before,
      d.world.history = since ++ (⟨.inl i, .unlock (lockPath Y.dir), ()⟩ : ClientEvent (ι ⊕ κ)) :: before ∧
        (∀ j, ¬ Did Y.dir j (.moved x) before) ∧ (IsPending Y.dir d.world x ∨ ∃ j, Did Y.dir j (.moved x) since)
  /-- Of two runs that get a success for an entry the earlier has ended before the later does, and
  has not moved it. -/
  once : ∀ since before e i j x, d.world.history = since ++ e :: before → e.task = .inl j → mark Y.dir e = .acked x →
    i ≠ j → Did Y.dir (.inl i) (.acked x) before →
    d.Over (.inl i) ∧ (∀ e' ∈ since, e'.task ≠ .inl i) ∧ ¬ Did Y.dir (.inl i) (.moved x) d.world.history

/-- **A spool is safe in every execution.** -/
theorem spool_safe (Y : SpoolSystem ι κ) {disk : Disk} (hstart : Orderly Y.dir Y.env disk) {c d : Config Y.pool}
    (hc : (Y.start disk).Reach (fun _ _ _ => True) c) (hd : c.Reach (fun _ _ _ => True) d) : Safe Y disk c d := by
  have hreach := hc.trans hd
  have hinv := reach_inv hstart hreach
  have hat := reach_at hstart hreach
  refine ⟨fun x hx => ?_, fun x hx => ?_, fun i n hf => ?_, fun i e hf => ?_, ?_⟩
  · refine (reach_entry hstart hc hd hx).imp_left fun ⟨hpresent, hfiles⟩ => ⟨?_, hfiles⟩
    rcases hpresent with hpending | hsent
    · exact .inl ⟨hpending, hinv.apart x hpending⟩
    · exact .inr ⟨hsent, fun hpending => hinv.apart x hpending hsent⟩
  · refine (hinv.acked x hx).imp_right fun ⟨i, hi⟩ => ?_
    cases i with
    | inl i => exact ⟨i, hi⟩
    | inr k => exact absurd (hinv.locked _ (.inr ⟨x, hi⟩)) (not_locked_hook hreach k)
  · obtain ⟨names, done, hended, hn⟩ := (specification hstart).finished_result hat hf
    have hsplit : done = names.getD [] := (List.append_nil done).symm.trans hended.split
    have hnodup := hended.nodup
    rw [List.append_nil] at hnodup
    exact ⟨names, hended.listing, hsplit ▸ hnodup, hsplit ▸ hn, hsplit ▸ hended.moved⟩
  · rcases (specification hstart).finished_result hat hf with hblank | ⟨names, done, rest, hended⟩
    · refine ⟨none, [], [], fun l => ?_, rfl, fun x => ?_, fun x hx => absurd hx List.not_mem_nil⟩
      · exact iff_of_false (hblank.none _ nofun) nofun
      · exact iff_of_false (hblank.none _ nofun) List.not_mem_nil
    · obtain ⟨since, before, hh, hleft⟩ := hended.left
      exact ⟨names, done, rest, hended.listing, hended.split.symm, hended.moved,
        fun x hx => ⟨since, before, hh, hleft x hx⟩⟩
  · intro since before e i j x hh htask hacked hij hbefore
    refine acked_twice hstart hreach hh hacked ?_ hbefore
    rw [htask]
    exact fun heq => hij (Sum.inl.inj heq).symm

/-! A capture and a run, one after the other. -/

/-- Every metadata is read as the one given, and every upload configuration asks for thirty days. -/
def spoolCrates : Crates :=
  {sampleCrates (sampleMetadata []) with
    uploadConfig := fun _ => .ok ⟨"http://localhost/", 30⟩, parseUrl := fun text => some ⟨text⟩}

/-- The server accepts everything. -/
def acceptingEnv (clock : Nat → Time) : Env := {quietEnv with clock, response := fun _ => .ok ⟨201, none⟩}

def oneOfEach (clock : Nat → Time) : SpoolSystem Unit Unit where
  crates := spoolCrates
  env := acceptingEnv clock
  dir := ["spool"]
  run _ := .stored "token" .default
  hook _ := (sampleConfig [], .minidump [7])
  shared _ := rfl

theorem empty_orderly (spool : Path) (env : Env) : Orderly spool env .empty where
  tidy := .of_free nofun fun _ _ => rfl
  apart := nofun
  named := nofun
  fresh _ _ _ := ⟨rfl, rfl⟩

def captureThenShip (calls : Nat) : List (Move (Unit ⊕ Unit)) :=
  List.replicate 9 (.run (.inr ())) ++ List.replicate calls (.run (.inl ()))

theorem spool_safe_shipped : ∃ d : Config (oneOfEach fun _ => 0).pool,
    ((oneOfEach fun _ => 0).start .empty).Reach (fun _ _ _ => True) d ∧ d.Finished (.inl ()) (.ok 1) ∧
      Safe (oneOfEach fun _ => 0) .empty ((oneOfEach fun _ => 0).start .empty) d := by
  obtain ⟨d, hd, hresult⟩ := Config.runs_any (fun _ _ _ _ => trivial) (captureThenShip 17)
    (fun d : Config (oneOfEach fun _ => 0).pool => d.result (.inl ()) = some (.ok 1))
    (show (((oneOfEach fun _ => 0).start .empty).runs (fun _ _ _ => true) _).any _ = true by decide +kernel)
  exact ⟨d, hd, Config.finished_of_result (of_decide_eq_true hresult), spool_safe _ (empty_orderly _ _) .refl hd⟩

end SpoolSystem

end Detritus.Client
