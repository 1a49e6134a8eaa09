import BatchInference.Workers.Atomic

/-!
# What the failure handler leaves

The handler of process_chunk changes the row in every case and commits in two of three: a
chunk whose attempts are spent, of a batch that is not running any more, stays as it was
leased. In every serial run the handler gives its chunk back if and only if it is never in
that case.
-/

namespace BatchInference

open JobPool System

variable {env : Env} {now : Int} {v v' w : World Shared Frame} {m : Moves}

/-- The move ends the handler's transaction: the chunk, its row as leased, the exception. -/
def handlerEnds (w : World Shared Frame) : Moves → Option (Nat × BatchChunk × String)
  | .act k .next => match w.pool[k]? with
    | some (.processChunk i _ (.handler chunk exc (.loadedBatch _ _))) => some (i, chunk, exc)
    | _ => none
  | _ => none

/-- The row is leased, and by the worker whose lease is `chunk`. -/
def BatchChunk.LeasedAs (row chunk : BatchChunk) : Prop :=
  row.status = .leased ∧ row.leasedUntil = chunk.leasedUntil

structure BatchChunk.GivenBack (env : Env) (exc : String) (row : BatchChunk) : Prop where
  leasedUntil : row.leasedUntil = none
  error : row.error = some (errorText exc)
  status : row.status = if env.chunkMaxAttempts ≤ row.attempts then .failed else .pending

/-- A handler that ends on the row that its worker has leased gives it back. What it does
after its commit is to enqueue a job. -/
def HandlerReleases (env : Env) (v : World Shared Frame) (m : Moves) (v' : World Shared Frame) :
    Prop :=
  ∀ i chunk exc, handlerEnds v m = some (i, chunk, exc) →
    ∀ row, v.shared.db.chunks[i]? = some row → row.LeasedAs chunk →
      ∃ row', v'.shared.db.chunks[i]? = some row' ∧ row'.GivenBack env exc

/-- It finds attempts left, or the batch running. -/
def HandlerCommits (env : Env) (v : World Shared Frame) (m : Moves) : Prop :=
  ∀ i chunk exc, handlerEnds v m = some (i, chunk, exc) →
    ∀ row, v.shared.db.chunks[i]? = some row → row.LeasedAs chunk →
      (row.attempts : Int) < env.chunkMaxAttempts ∨ v.shared.db.batch.status = .running

theorem BatchChunk.givenBack_fail (env : Env) (exc : String) (row : BatchChunk) :
    (row.fail env exc).GivenBack env exc := ⟨rfl, rfl, rfl⟩

theorem handlerEnds_iff {i : Nat} {chunk : BatchChunk} {exc : String} :
    handlerEnds v m = some (i, chunk, exc) ↔ ∃ k deferBy row batch, m = .act k .next ∧
      v.pool[k]? = some
        (.processChunk i deferBy (.handler chunk exc (.loadedBatch row batch))) := by
  constructor
  · intro h
    unfold handlerEnds at h
    split at h
    · split at h
      · cases h
        exact ⟨_, _, _, _, rfl, ‹_›⟩
      · cases h
    · cases h
  · rintro ⟨k, deferBy, row, batch, rfl, hk⟩
    simp [handlerEnds, hk]

theorem givenBack_of_failure {i : Nat} {loaded : BatchChunk} {exc : String} {batch batch' : Batch}
    (hf : (workers env).fire v m = some v') (hrow : v.shared.db.chunks[i]? = some loaded)
    (hc : commitOf env v m = some (.failure i loaded (loaded.fail env exc) batch batch')) :
    ∃ row', v'.shared.db.chunks[i]? = some row' ∧ row'.GivenBack env exc := by
  refine ⟨loaded.fail env exc, ?_, loaded.givenBack_fail env exc⟩
  rw [db_of_fire hf, hc, Option.elim_some, Commit.getElem?_apply_of_row hrow]
  simp [Commit.onRow]

theorem handlerReleases_iff (hr : (workers env).Reach Atomic (created env now) v)
    (hf : (workers env).fire v m = some v') :
    HandlerReleases env v m v' ↔ HandlerCommits env v m := by
  refine forall_congr' fun i => forall_congr' fun chunk => forall_congr' fun exc =>
    forall_congr' fun hends => forall_congr' fun row => forall_congr' fun hrow =>
    forall_congr' fun hleased => ?_
  obtain ⟨k, deferBy, loaded, batch, rfl, hk⟩ := handlerEnds_iff.mp hends
  obtain ⟨hloaded, rfl⟩ := snapshot_of_reach hr _ (List.mem_of_getElem? hk)
  obtain rfl := Option.some.inj (hloaded.symm.trans hrow)
  by_cases hspent : env.chunkMaxAttempts ≤ loaded.attempts
  · by_cases hrunning : v.shared.db.batch.status = .running
    · have hc : commitOf env v (.act k .next) = some (.failure i loaded (loaded.fail env exc)
          v.shared.db.batch (ProcessChunk.failBatch v.shared.now i exc v.shared.db.batch)) := by
        simp [commitOf, hk, Frame.step, Frame.next, ProcessChunk.step, ProcessChunk.Handler.step,
          hspent, hrunning]
      exact iff_of_true (givenBack_of_failure hf hrow hc) (.inr hrunning)
    · -- the session is closed without a commit
      have hc : commitOf env v (.act k .next) = none := by
        simp [commitOf, hk, Frame.step, Frame.next, ProcessChunk.step, ProcessChunk.Handler.step,
          hspent, hrunning, Effect.done]
      rw [db_of_fire hf, hc, Option.elim_none, hrow]
      refine iff_of_false ?_ (not_or.mpr ⟨not_lt.mpr hspent, hrunning⟩)
      rintro ⟨row', hrow', hback⟩
      obtain rfl := Option.some.inj hrow'
      have hstatus := hback.status
      rw [hleased.1, if_pos hspent] at hstatus
      cases hstatus
  · have hc : commitOf env v (.act k .next) = some (.failure i loaded (loaded.fail env exc)
        v.shared.db.batch v.shared.db.batch) := by
      simp [commitOf, hk, Frame.step, Frame.next, ProcessChunk.step, ProcessChunk.Handler.step,
        hspent]
    exact iff_of_true (givenBack_of_failure hf hrow hc) (.inl (not_le.mp hspent))

/-- Throughout a serial run the handlers give their chunks back if and only if each of them
finds attempts left or the batch running. -/
theorem lease_released_iff {ms : List Moves}
    (hserial : (workers env).Along (fun v m _ => Atomic v m) (created env now) ms) :
    (workers env).Along (HandlerReleases env) (created env now) ms ↔
      (workers env).Along (fun v m _ => HandlerCommits env v m) (created env now) ms := by
  refine Along.congr (Q := fun v => (workers env).Reach Atomic (created env now) v) hserial
    .refl fun v m v' hr hm hf => ?_
  exact ⟨handlerReleases_iff hr hf, fun _ => hr.step hm hf⟩

/-- One chunk, leased by a worker; the API cancels the batch, and the worker's body raises. -/
def cancelledThenRaised : List Moves :=
  steps 0 7 ++ steps 1 2 ++ [.env (.arrive .cancelBatch)] ++ steps 2 2 ++
    [.act 1 (.raise "timeout")]

theorem lease_released_iff_cancelled : ∃ w,
    (workers (twoPrompts 2 2)).run Atomic (created (twoPrompts 2 2) 0)
      (cancelledThenRaised ++ steps 1 3) = some w ∧
    w.shared.db.chunks.map (fun c => (c.status, c.error)) = [(.pending, some "timeout")] ∧
    ((workers (twoPrompts 2 2)).Along (HandlerReleases (twoPrompts 2 2))
        (created (twoPrompts 2 2) 0) (cancelledThenRaised ++ steps 1 3) ↔
      (workers (twoPrompts 2 2)).Along (fun v m _ => HandlerCommits (twoPrompts 2 2) v m)
        (created (twoPrompts 2 2) 0) (cancelledThenRaised ++ steps 1 3)) := by
  have hrun : ((workers (twoPrompts 2 2)).run Atomic (created (twoPrompts 2 2) 0)
      (cancelledThenRaised ++ steps 1 3)).map
        (fun w => w.shared.db.chunks.map fun c => (c.status, c.error)) =
      some [(.pending, some "timeout")] := by decide +kernel
  obtain ⟨w, hw, hrows⟩ := Option.map_eq_some_iff.mp hrun
  exact ⟨w, hw, hrows, lease_released_iff (.of_run hw)⟩

/-- What a run shows: the jobs, the batch and how its chunks are leased. -/
def leasesOf (v : World Shared Frame) : List Job × BatchStatus × List (ChunkStatus × Option Int) :=
  (v.pool.map Frame.job, v.shared.db.batch.status,
    v.shared.db.chunks.map fun c => (c.status, c.leasedUntil))

/-- With a budget of one: the handler runs to its end and the job returns, and the row is
still leased. -/
theorem spent_chunk_stays_leased : ∃ w v,
    (workers (twoPrompts 2 1)).Reach Atomic (created (twoPrompts 2 1) 0) w ∧
    leasesOf w =
      ([.checkBatchCompletion 2, .processChunk 0 0], .cancelled, [(.leased, some 300)]) ∧
    (workers (twoPrompts 2 1)).Reach Atomic w v ∧
    leasesOf v = ([.checkBatchCompletion 2], .cancelled, [(.leased, some 300)]) :=
  Reach.of_run_append leasesOf cancelledThenRaised (steps 1 3) (by decide +kernel)
    (by decide +kernel)

end BatchInference
