import BatchInference.Workers.Runs

/-!
# When a terminal status stays

Every job tests the status that it has loaded, and none tests it again when it commits. A
terminal status is thus overwritten by a job that has loaded the row before; and by
finalize_batch, whose test leaves out `failed`. Where neither happens, a terminal status stays.
-/

namespace BatchInference

open JobPool

/-- The status as the job has loaded it and as it writes it. -/
def Commit.statusChange : Commit → Option (BatchStatus × BatchStatus)
  | orchestrate loaded new _ _ | check loaded new _ | finalize loaded new
  | webhook loaded new | cancel loaded new | failure _ _ _ loaded new =>
    if new.status = loaded.status then none else some (loaded.status, new.status)
  | lease .. | success .. | cancelRelease .. | requeue _ | reclaim _ => none

/-- finalize_batch has loaded a failed batch. -/
def Commit.revives : Commit → Bool
  | finalize loaded _ => loaded.status = .failed
  | _ => false

/-- Who changes the status finds the one that it has loaded, and does not revive the batch. -/
def Commit.StatusFresh (committed : BatchStatus) (commit : Commit) : Prop :=
  ∀ change ∈ commit.statusChange, committed = change.1 ∧ commit.revives = false

instance (committed : BatchStatus) (commit : Commit) :
    Decidable (commit.StatusFresh committed) :=
  inferInstanceAs (Decidable (∀ change ∈ commit.statusChange, _))

/-- The condition on a move. -/
def StatusFresh (env : Env) (w : World Shared Frame) (m : Moves) : Prop :=
  ∀ commit ∈ commitOf env w m, commit.StatusFresh w.shared.db.batch.status

instance (env : Env) : DecidableRel (StatusFresh env) := fun w m =>
  inferInstanceAs (Decidable (∀ commit ∈ commitOf env w m, _))

theorem Commit.status_onBatch (commit : Commit) (batch : Batch) :
    (commit.onBatch batch).status =
      commit.statusChange.elim batch.status fun change => change.2 := by
  have flushed (loaded new : Batch) : (loaded.flush new batch).status =
      (if new.status = loaded.status then none
        else some (loaded.status, new.status)).elim batch.status fun change => change.2 := by
    simp only [Batch.flush, column]
    split <;> rfl
  cases commit with
  | orchestrate | check | finalize | webhook | cancel | failure => exact flushed _ _
  | lease i loaded new =>
    simp only [onBatch]
    split <;> rfl
  | success | cancelRelease | requeue | reclaim => rfl

variable {env : Env} {v v' w : World Shared Frame} {m : Moves}

/-- The tests of the jobs: who changes the status has not loaded a terminal one, except
that finalize_batch may have loaded `failed`. -/
theorem Commits.revives_of_terminal {s : Shared} {frame : Frame} {commit : Commit}
    (h : Commits env s frame commit) {loaded new : BatchStatus}
    (hc : commit.statusChange = some (loaded, new)) (ht : loaded.terminal = true) :
    commit.revives = true := by
  have changed {b b' : Batch} (hb : (if b'.status = b.status then none
      else some (b.status, b'.status)) = some (loaded, new)) :
      b.status = loaded ∧ b'.status ≠ b.status := by
    split at hb
    · cases hb
    · rename_i hne
      cases hb
      exact ⟨rfl, hne⟩
  cases h with
  | orchestrate | exhausted | checked =>
    obtain ⟨rfl, -⟩ := changed hc
    exact absurd ht (by simp [OpenBatch.not_terminal])
  | giveUp spent running =>
    obtain ⟨rfl, -⟩ := changed hc
    exact absurd ht (by simp [running, BatchStatus.terminal])
  | @finalize snap =>
    obtain ⟨rfl, -⟩ := changed hc
    have := snap.unfinished
    cases hs : snap.batch.status <;> simp_all [BatchStatus.terminal, Commit.revives]
  | retry | webhook =>
    obtain ⟨-, hne⟩ := changed hc
    exact absurd rfl hne
  | @cancel batch =>
    obtain ⟨rfl, hne⟩ := changed hc
    exact absurd (by simp [cancelBatch, ht]) hne
  | lease | success | cancelRelease | requeue | reclaim => cases hc

theorem Commits.status_kept {s : Shared} {frame : Frame} {commit : Commit}
    (h : Commits env s frame commit) {batch : Batch} (ht : batch.status.terminal = true)
    (hfresh : commit.StatusFresh batch.status) :
    (commit.onBatch batch).status = batch.status := by
  rw [commit.status_onBatch]
  cases hc : commit.statusChange with
  | none => rfl
  | some change =>
    obtain ⟨hloaded, hkept⟩ := hfresh change hc
    have hrevives := h.revives_of_terminal hc (hloaded ▸ ht)
    simp [hrevives] at hkept

theorem status_kept (hf : (workers env).fire v m = some v')
    (ht : v.shared.db.batch.status.terminal = true) (hfresh : StatusFresh env v m) :
    v'.shared.db.batch.status = v.shared.db.batch.status := by
  rw [db_of_fire hf]
  cases hk : commitOf env v m with
  | none => rfl
  | some commit =>
    obtain ⟨frame, -, hcommits⟩ := commits_of_commitOf hk
    exact (congrArg Batch.status (Commit.batch_apply ..)).trans
      (hcommits.status_kept ht (hfresh commit hk))

/-- In a run in which whoever changes the status finds the one that it has loaded, and no
finalize_batch revives a failed batch, a terminal status stays from where it is reached. -/
theorem terminal_status_stays {before later : List Moves}
    (h : (workers env).Along (fun v m _ => StatusFresh env v m) w (before ++ later))
    (hv : (workers env).run (fun _ _ => True) w before = some v)
    (ht : v.shared.db.batch.status.terminal = true) :
    (workers env).Along
      (fun _ _ v' => v'.shared.db.batch.status = v.shared.db.batch.status) v later := by
  refine System.Along.of_invariant
    (Q := fun u => u.shared.db.batch.status = v.shared.db.batch.status) (h.right hv) rfl ?_
  intro u m u' hu hfresh hf
  have hkept := (status_kept hf (hu ▸ ht) hfresh).trans hu
  exact ⟨hkept, hkept⟩

/-- The batch is cancelled while a chunk is under way, which then gives up its lease. -/
def cancelledWhileRunning : List Moves :=
  steps 0 6 ++ steps 1 1 ++ steps 0 1 ++ steps 2 3 ++ [.env (.arrive .cancelBatch)] ++ steps 3 2

/-- The item finds the batch cancelled and its chunk is given back; the other jobs and a
finalize_batch find it so too. -/
def afterCancel : List Moves :=
  replied 2 0 true ++ steps 2 3 ++ steps 0 2 ++ [.env (.arrive .finalizeBatch)] ++ steps 0 1

theorem terminal_status_stays_cancelled : ∃ v v',
    (workers (twoPrompts 1 5)).run (fun _ _ => True) (created (twoPrompts 1 5) 0)
      cancelledWhileRunning = some v ∧ v.shared.db.batch.status = .cancelled ∧
    (workers (twoPrompts 1 5)).run (fun _ _ => True) v afterCancel = some v' ∧
    (workers (twoPrompts 1 5)).Along
      (fun _ _ u => u.shared.db.batch.status = v.shared.db.batch.status) v afterCancel := by
  have hrun : (((workers (twoPrompts 1 5)).run (fun _ _ => True) (created (twoPrompts 1 5) 0)
      cancelledWhileRunning).bind fun v =>
        ((workers (twoPrompts 1 5)).run (fun _ _ => True) v afterCancel).map fun _ =>
          v.shared.db.batch.status) = some .cancelled := by decide +kernel
  have hfresh : ((workers (twoPrompts 1 5)).run (StatusFresh (twoPrompts 1 5))
      (created (twoPrompts 1 5) 0) (cancelledWhileRunning ++ afterCancel)).isSome = true := by
    decide +kernel
  obtain ⟨v, hv, hrest⟩ := Option.bind_eq_some_iff.mp hrun
  obtain ⟨v', hv', hstatus⟩ := Option.map_eq_some_iff.mp hrest
  obtain ⟨u, hu⟩ := Option.isSome_iff_exists.mp hfresh
  exact ⟨v, v', hv, hstatus, hv',
    terminal_status_stays (System.Along.of_run hu) hv (by rw [hstatus]; rfl)⟩

/-- The API cancels the batch after orchestrate_batch has loaded it. -/
def cancelledRun : List Moves := steps 0 1 ++ [.env (.arrive .cancelBatch)] ++ steps 1 2

/-- The orchestration goes on and commits `running` over `cancelled`. -/
theorem cancelled_batch_runs : ∃ w w',
    (workers (twoPrompts 2 5)).Reach (fun _ _ => True) (created (twoPrompts 2 5) 0) w ∧
    w.shared.db.batch.status = .cancelled ∧
    (workers (twoPrompts 2 5)).Reach (fun _ _ => True) w w' ∧
    w'.shared.db.batch.status = .running :=
  System.Reach.of_run_append (fun v : World Shared Frame => v.shared.db.batch.status)
    cancelledRun (steps 0 3) (by decide +kernel) (by decide +kernel)

end BatchInference
