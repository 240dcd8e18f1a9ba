import Detritus.Files.Fault
import Detritus.Process.Solo
import Detritus.Server.World

/-! The server's world where file operations fail. -/
namespace Detritus.Server
open Files Process Contract

/-- The world where open files owe errors and some file operations fail. -/
def World.execFaulty (owes : Handle → Option IoError) (faults : Faults) (env : Env) (n : Nat) :
    Machine serverInterface World := fun op w =>
  match op with
  | .file op =>
    let r := op.execOwing owes (faults n) (env.clock n) (env.order n) w.disk
    some (r.1, {w with disk := r.2})
  | op => World.exec env n op w

/-- The error that an open file owes: its last write was answered, and failed. -/
def owed {ι : Type} (faults : Faults) (inode : Nat) : List (ServerEvent ι) → Option IoError
  | [] => none
  | ⟨_, .file (.openAppend _), .ok g⟩ :: h => if g.inode = inode then none else owed faults inode h
  | ⟨_, .file (.write g _), .ok _⟩ :: h =>
    if g.inode = inode then (faults h.length).map Fault.error else owed faults inode h
  | ⟨_, .file (.write g _), .error _⟩ :: h | ⟨_, .file (.sync g), _⟩ :: h =>
    if g.inode = inode then none else owed faults inode h
  | _ :: h => owed faults inode h

/-- The operations of a task where some fail, with the history. -/
def execFaultyAs {ι : Type} (faults : Faults) (env : Env) (i : ι) : Machine serverInterface (ServerState ι) :=
  fun op w => record (World.execFaulty (fun g => owed faults g.inode w.history) faults env) i op w

theorem owed_none {ι : Type} (inode : Nat) (h : List (ServerEvent ι)) : owed (fun _ => none) inode h = none := by
  fun_induction owed (fun _ => none) inode h <;> simp_all

/-- Without faults the machine is the usual one. -/
theorem execFaultyAs_none {ι : Type} (env : Env) (i : ι) : execFaultyAs (fun _ => none) env i = execAs env i := by
  funext op w
  refine congrArg (fun M : Nat → Machine serverInterface World => record M i op w) ?_
  funext n op v
  cases op with
  | file op =>
    have hnone : op.handle.bind (fun g => owed (fun _ => none) g.inode w.history) = none := by
      simp [owed_none]
    simp only [World.execFaulty, FileOp.execOwing_clear hnone]
    rfl
  | _ => rfl

section Steps
variable {ι ε α β : Type} {faults : Faults} {env : Env} {i : ι} {allows : ServerOp → ServerState ι → Prop}
  {w u : ServerState ι} {Q : β → ServerState ι → Prop} {E : ε → ServerState ι → Prop} {op : FileOp}

/-- A file operation that is not about an open file: hit by a fault, or as on a disk without faults. -/
theorem execFaultyAs_file (hop : op.handle = none) {x : op.Answer}
    (h : execFaultyAs faults env i (.file op) w = some (x, u)) :
    u.history = ⟨i, .file op, x⟩ :: w.history ∧
      ((∃ fault, faults w.history.length = some fault ∧ x = .error fault.error ∧ u.state = w.state) ∨
      faults w.history.length = none ∧
        x = (op.exec (env.clock w.history.length) (env.order w.history.length) w.state.disk).1 ∧
        u.state = {w.state with
          disk := (op.exec (env.clock w.history.length) (env.order w.history.length) w.state.disk).2}) := by
  obtain ⟨hx, hh⟩ := record_eq_some.mp h
  refine ⟨hh, ?_⟩
  obtain ⟨rfl, hu⟩ := result_eq hx
  have hnone : op.handle.bind (fun g => owed faults g.inode w.history) = none := by rw [hop, Option.bind_none]
  cases hfault : faults w.history.length with
  | none =>
    rw [hfault, FileOp.execOwing_clear hnone] at hu
    rw [FileOp.execOwing_clear hnone]
    exact .inr ⟨rfl, rfl, hu.symm⟩
  | some fault =>
    rw [hfault, FileOp.execOwing_hit hnone, FileOp.execAsync_of_handle hop] at hu
    rw [FileOp.execOwing_hit hnone, FileOp.execAsync_of_handle hop]
    exact .inl ⟨fault, rfl, rfl, hu.symm⟩

/-- A flush leaves the disk as it is. -/
theorem execFaultyAs_sync {g : Handle} {x : FileOp.Answer (.sync g)}
    (h : execFaultyAs faults env i (.file (.sync g)) w = some (x, u)) :
    u.history = ⟨i, .file (.sync g), x⟩ :: w.history ∧ u.state = w.state := by
  obtain ⟨hx, hh⟩ := record_eq_some.mp h
  refine ⟨hh, ?_⟩
  obtain ⟨-, hu⟩ := result_eq hx
  cases howed : (FileOp.sync g).handle.bind fun h => owed faults h.inode w.history with
  | some e =>
    rw [FileOp.execOwing_owed howed] at hu
    exact hu.symm
  | none =>
    cases hfault : faults w.history.length with
    | none =>
      rw [hfault, FileOp.execOwing_clear howed] at hu
      exact hu.symm
    | some fault =>
      rw [hfault, FileOp.execOwing_hit howed] at hu
      exact hu.symm

/-- A write is refused for an error that is owed, or is hit by a fault, or is whole. -/
theorem execFaultyAs_write {g : Handle} {bytes : Bytes} {x : FileOp.Answer (.write g bytes)}
    (h : execFaultyAs faults env i (.file (.write g bytes)) w = some (x, u)) :
    u.history = ⟨i, .file (.write g bytes), x⟩ :: w.history ∧
      (∀ g', x = .ok g' → g'.inode = g.inode ∧ g'.append = g.append) ∧
      ((∃ e, owed faults g.inode w.history = some e ∧ x = .error e ∧ u.state = w.state) ∨
      owed faults g.inode w.history = none ∧
        ((∃ fault, faults w.history.length = some fault ∧
          u.state.disk = (w.state.disk.write g (fault.torn bytes) (env.clock w.history.length)).2) ∨
        faults w.history.length = none ∧ ∃ g', x = .ok g' ∧
          (g', u.state.disk) = w.state.disk.write g bytes (env.clock w.history.length))) := by
  obtain ⟨hx, hh⟩ := record_eq_some.mp h
  refine ⟨hh, ?_⟩
  obtain ⟨rfl, hu⟩ := result_eq hx
  cases howed : (FileOp.write g bytes).handle.bind fun h => owed faults h.inode w.history with
  | some e =>
    rw [FileOp.execOwing_owed howed] at hu
    rw [FileOp.execOwing_owed howed]
    exact ⟨nofun, .inl ⟨e, howed, rfl, hu.symm⟩⟩
  | none =>
    cases hfault : faults w.history.length with
    | some fault =>
      rw [hfault, FileOp.execOwing_hit howed] at hu
      rw [FileOp.execOwing_hit howed]
      refine ⟨fun g' hg' => ?_, .inr ⟨howed, .inl ⟨fault, rfl, by rw [← hu]; rfl⟩⟩⟩
      have hg' : (if fault.late bytes then .ok _ else .error fault.error : Except IoError Handle) = .ok g' := hg'
      split at hg'
      · rw [← Except.ok.inj hg']
        exact ⟨rfl, rfl⟩
      · cases hg'
    | none =>
      rw [hfault, FileOp.execOwing_clear howed] at hu
      rw [FileOp.execOwing_clear howed]
      refine ⟨fun g' hg' => ?_, .inr ⟨howed, .inr ⟨rfl, _, rfl, by rw [← hu]; rfl⟩⟩⟩
      rw [← Except.ok.inj hg']
      exact ⟨rfl, rfl⟩

/-- Any other operation is as on a disk without faults. -/
theorem execFaultyAs_other {op : ServerOp} {x : op.Answer} (hop : ∀ o, op ≠ .file o)
    (h : execFaultyAs faults env i op w = some (x, u)) :
    u.history = ⟨i, op, x⟩ :: w.history ∧ World.exec env w.history.length op w.state = some (x, u.state) := by
  obtain ⟨hx, hh⟩ := record_eq_some.mp h
  refine ⟨hh, ?_⟩
  cases op with
  | file o => exact absurd rfl (hop o)
  | _ => exact hx

/-- A file operation whose outcome is looked at. -/
theorem yields_attempt {f : op.Answer → Handler ε β} (hop : op.handle = none)
    (hfault : ∀ fault u, faults w.history.length = some fault → allows (.file op) w → u.state = w.state →
      u.history = ⟨i, .file op, .error fault.error⟩ :: w.history →
      (Contract.solo (execFaultyAs faults env i) allows).Yields Q E (f (.error fault.error)) u)
    (hclear : ∀ x u, faults w.history.length = none →
      x = (op.exec (env.clock w.history.length) (env.order w.history.length) w.state.disk).1 →
      u.state = {w.state with
        disk := (op.exec (env.clock w.history.length) (env.order w.history.length) w.state.disk).2} →
      u.history = ⟨i, .file op, x⟩ :: w.history →
      (Contract.solo (execFaultyAs faults env i) allows).Yields Q E (f x) u) :
    (Contract.solo (execFaultyAs faults env i) allows).Yields Q E (attempt op >>= f) w := by
  refine Yields.solo_step fun x u ha hx => ?_
  obtain ⟨hh, ⟨fault, hf, rfl, hu⟩ | ⟨hf, hx, hu⟩⟩ := execFaultyAs_file hop hx
  · exact hfault fault u hf ha hu hh
  · exact hclear x u hf hx hu hh

/-- A file operation followed by `?`. -/
theorem yields_file {wrap : IoError → ε} {f : op.Value → Handler ε β} (hop : op.handle = none)
    (hfault : ∀ fault u, faults w.history.length = some fault → allows (.file op) w → u.state = w.state →
      u.history = ⟨i, .file op, .error fault.error⟩ :: w.history → E (wrap fault.error) u)
    (hclear : ∀ x u, faults w.history.length = none →
      x = (op.exec (env.clock w.history.length) (env.order w.history.length) w.state.disk).1 →
      u.state = {w.state with
        disk := (op.exec (env.clock w.history.length) (env.order w.history.length) w.state.disk).2} →
      u.history = ⟨i, .file op, x⟩ :: w.history → match x with
        | .ok a => (Contract.solo (execFaultyAs faults env i) allows).Yields Q E (f a) u
        | .error e => E (wrap e) u) :
    (Contract.solo (execFaultyAs faults env i) allows).Yields Q E (file wrap op >>= f) w := by
  refine Yields.solo_step fun x u ha hx => ?_
  obtain ⟨hh, ⟨fault, hf, rfl, hu⟩ | ⟨hf, hx, hu⟩⟩ := execFaultyAs_file hop hx
  · exact hfault fault u hf ha hu hh
  · have h := hclear x u hf hx hu hh
    cases x with
    | ok a => exact h
    | error e => exact h

theorem yields_now {f : Time → Handler ε β}
    (h : ∀ u, u.state = w.state → u.history = ⟨i, .now, env.clock w.history.length⟩ :: w.history →
      (Contract.solo (execFaultyAs faults env i) allows).Yields Q E (f (env.clock w.history.length)) u) :
    (Contract.solo (execFaultyAs faults env i) allows).Yields Q E (call .now >>= f) w := by
  refine Yields.solo_step fun x u _ hx => ?_
  obtain ⟨hh, hx⟩ := execFaultyAs_other (by simp) hx
  obtain ⟨rfl, hu⟩ := result_eq hx
  exact h u hu.symm hh

end Steps

end Detritus.Server
