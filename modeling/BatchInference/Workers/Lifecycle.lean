import BatchInference.Workers.Published

/-!
# The life of a batch

The moves of a batch's status in a run with atomic transactions, and the two timestamps.
`started_at` is read by orchestrate_batch before it commits, and kept by every later
orchestration; `completed_at` is the clock of the commit that ends the batch, and changes
only when finalize_batch revives a failed batch.
-/

namespace BatchInference

open JobPool

variable {env : Env} {now : Int} {s : Shared} {frame : Frame} {db : Db} {commit : Commit}
  {w w' v v' : World Shared Frame} {m : Moves}

inductive BatchStatus.Next : BatchStatus → BatchStatus → Prop where
  | started : Next .pending .running
  | withdrawn : Next .pending .cancelled
  | cancelled : Next .running .cancelled
  | failed : Next .running .failed
  | completed : Next .running .completed
  | revived : Next .failed .completed

/-- The statuses in an order that every move follows. -/
def BatchStatus.rank : BatchStatus → Nat
  | .pending => 0
  | .running => 1
  | .failed => 2
  | .cancelled => 3
  | .completed => 4

theorem BatchStatus.Next.rank_lt {a b : BatchStatus} (h : Next a b) : a.rank < b.rank := by
  cases h <;> decide

theorem rank_le_of_reflTransGen {a b : BatchStatus}
    (h : Relation.ReflTransGen BatchStatus.Next a b) : a.rank ≤ b.rank := by
  induction h with
  | refl => exact le_rfl
  | tail _ hnext ih => exact ih.trans hnext.rank_lt.le

/-! ## One transaction -/

/-- The status, the two timestamps and the chunk rows agree. -/
structure Dated (now : Int) (db : Db) : Prop where
  waiting : db.batch.status = .pending → db.chunks = []
  idle : db.chunks = [] → db.batch.status = .pending ∨ db.batch.status = .cancelled
  started_iff : db.batch.startedAt = none ↔ db.chunks = []
  ended_iff : db.batch.completedAt = none ↔ db.batch.status.terminal = false
  started_le : ∀ t ∈ db.batch.startedAt, t ≤ now
  started_le_ended : ∀ t ∈ db.batch.startedAt, ∀ t' ∈ db.batch.completedAt, t ≤ t'
  ended_le : ∀ t ∈ db.batch.completedAt, t ≤ now

theorem Dated.mono {now' : Int} (h : Dated now db) (hnow : now ≤ now') : Dated now' db where
  waiting := h.waiting
  idle := h.idle
  started_iff := h.started_iff
  ended_iff := h.ended_iff
  started_le t ht := (h.started_le t ht).trans hnow
  started_le_ended := h.started_le_ended
  ended_le t ht := (h.ended_le t ht).trans hnow

/-- Chunk rows are never deleted, and only the orchestration of a pending batch adds any. -/
theorem Commit.chunks_apply_eq_nil_iff (hins : commit.inserted = []) :
    (commit.apply db).chunks = [] ↔ db.chunks = [] := by
  simp [Commit.apply, hins]

/-- A commit that leaves the status, the timestamps and the number of rows alone. -/
theorem Dated.same (hd : Dated now db) (hins : commit.inserted = [])
    (hstatus : (commit.onBatch db.batch).status = db.batch.status)
    (hstarted : (commit.onBatch db.batch).startedAt = db.batch.startedAt)
    (hended : (commit.onBatch db.batch).completedAt = db.batch.completedAt) :
    Dated now (commit.apply db) := by
  have hnil : (commit.apply db).chunks = [] ↔ db.chunks = [] :=
    Commit.chunks_apply_eq_nil_iff hins
  constructor
  all_goals simp only [Commit.batch_apply, hstatus, hstarted, hended, hnil]
  · exact hd.waiting
  · exact hd.idle
  · exact hd.started_iff
  · exact hd.ended_iff
  · exact hd.started_le
  · exact hd.started_le_ended
  · exact hd.ended_le

/-- A commit that ends the batch now. -/
theorem Dated.ended (hd : Dated now db) (hins : commit.inserted = [])
    (hstatus : (commit.onBatch db.batch).status.terminal = true)
    (hidle : db.chunks = [] → (commit.onBatch db.batch).status = .cancelled)
    (hstarted : (commit.onBatch db.batch).startedAt = db.batch.startedAt)
    (hended : (commit.onBatch db.batch).completedAt = some now) :
    Dated now (commit.apply db) := by
  have hnil : (commit.apply db).chunks = [] ↔ db.chunks = [] :=
    Commit.chunks_apply_eq_nil_iff hins
  constructor
  all_goals simp only [Commit.batch_apply, hstarted, hended, hnil]
  · intro hp
    rw [hp] at hstatus
    cases hstatus
  · exact fun he => .inr (hidle he)
  · exact hd.started_iff
  · simp [hstatus]
  · exact hd.started_le
  · rintro t ht t' ⟨⟩
    exact hd.started_le t ht
  · rintro t ⟨⟩
    exact le_rfl

theorem Dated.running (hd : Dated now db) (active : db.batch.status.terminal = false)
    (hne : db.chunks ≠ []) : db.batch.status = .running := by
  cases hs : db.batch.status with
  | running => rfl
  | pending => exact absurd (hd.waiting hs) hne
  | completed | failed | cancelled => simp [hs, BatchStatus.terminal] at active

/-- What a row may become. -/
structure Batch.Goes (b b' : Batch) : Prop where
  status : b'.status = b.status ∨ b.status.Next b'.status
  started : ∀ t, b.startedAt = some t → b'.startedAt = some t
  ended : b'.status = b.status → b'.completedAt = b.completedAt

theorem Batch.Goes.of_eq {b b' : Batch} (hstatus : b'.status = b.status)
    (hstarted : b'.startedAt = b.startedAt) (hended : b'.completedAt = b.completedAt) :
    b.Goes b' :=
  ⟨.inl hstatus, fun _ ht => hstarted.trans ht, fun _ => hended⟩

theorem Batch.Goes.of_next {b b' : Batch} (hnext : b.status.Next b'.status)
    (hstarted : ∀ t, b.startedAt = some t → b'.startedAt = some t) : b.Goes b' where
  status := .inr hnext
  started := hstarted
  ended heq := absurd (congrArg BatchStatus.rank heq) hnext.rank_lt.ne'

/-- The orchestration that adds the rows starts the batch. -/
theorem Dated.orchestrate {startedAt t : Int} {rows : List BatchChunk} (hd : Dated now db)
    (active : db.batch.status.terminal = false)
    (hrows : createChunkRows env.spec db.chunks = .ok rows) (hstart : startedAt ≤ now)
    (hcommit : commit = .orchestrate db.batch (Orchestrate.run startedAt db.batch)
      (if db.chunks = [] then rows else []) t) :
    Dated now (commit.apply db) ∧ db.batch.Goes (commit.onBatch db.batch) := by
  have hbatch : commit.onBatch db.batch = Orchestrate.run startedAt db.batch := by
    rw [hcommit, Commit.onBatch, Batch.flush_current]
  by_cases he : db.chunks = []
  · have hpending : db.batch.status = .pending :=
      (hd.idle he).resolve_right fun hc => by simp [hc, BatchStatus.terminal] at active
    have hnone : db.batch.startedAt = none := hd.started_iff.mpr he
    have hended : db.batch.completedAt = none := hd.ended_iff.mpr active
    have hne : (commit.apply db).chunks ≠ [] := by
      have hplan : env.plan ≠ [] := by
        intro hplan
        have hp := (planned_of_createChunkRows (he ▸ hrows)).1
        have hsum := (isPlan_of_planChunks
          (env.spec.totalItems_lt.trans (by norm_num)) hp).sum_limits
        have hone := env.spec.one_le_totalItems
        rw [hplan, List.map_nil, List.sum_nil] at hsum
        omega
      simpa [Commit.apply, hcommit, Commit.inserted, he, eq_of_createChunkRows (he ▸ hrows)]
        using hplan
    refine ⟨?_, .of_next ?_ ?_⟩
    · constructor
      all_goals simp only [Commit.batch_apply, hbatch, Orchestrate.run, hnone, hended,
        Option.none_or, Option.mem_some_iff]
      · simp
      · exact fun h => absurd h hne
      · simp [hne]
      · simp [BatchStatus.terminal]
      · rintro _ rfl
        exact hstart
      · simp
      · simp
    · rw [hbatch, hpending]
      exact .started
    · simp [hnone]
  · have hrunning : db.batch.status = .running := by
      cases hs : db.batch.status with
      | running => rfl
      | pending => exact absurd (hd.waiting hs) he
      | completed | failed | cancelled => simp [hs, BatchStatus.terminal] at active
    have hsome : db.batch.startedAt ≠ none := mt hd.started_iff.mp he
    obtain ⟨t₀, ht₀⟩ := Option.ne_none_iff_exists'.mp hsome
    have hstatus : (commit.onBatch db.batch).status = db.batch.status := by
      rw [hbatch, hrunning]
      rfl
    have hstarted : (commit.onBatch db.batch).startedAt = db.batch.startedAt := by
      rw [hbatch, Orchestrate.run, ht₀, Option.some_or]
    have hended : (commit.onBatch db.batch).completedAt = db.batch.completedAt := by
      rw [hbatch]
      rfl
    exact ⟨hd.same (by rw [hcommit, Commit.inserted, if_neg he]) hstatus hstarted hended,
      .of_eq hstatus hstarted hended⟩

/-- What one transaction does to the status and the timestamps. -/
theorem Transaction.goes (h : Transaction env now db commit) (hd : Dated now db)
    (hstart : ∀ loaded new rows t, commit = .orchestrate loaded new rows t →
      ∃ startedAt ≤ now, new = Orchestrate.run startedAt loaded) :
    Dated now (commit.apply db) ∧ db.batch.Goes (commit.onBatch db.batch) := by
  have ends (hins : commit.inserted = [])
      (hterminal : (commit.onBatch db.batch).status.terminal = true)
      (hnext : db.batch.status.Next (commit.onBatch db.batch).status)
      (hidle : db.chunks = [] → (commit.onBatch db.batch).status = .cancelled)
      (hstarted : (commit.onBatch db.batch).startedAt = db.batch.startedAt)
      (hended : (commit.onBatch db.batch).completedAt = some now) :
      Dated now (commit.apply db) ∧ db.batch.Goes (commit.onBatch db.batch) :=
    ⟨hd.ended hins hterminal hidle hstarted hended,
      .of_next hnext fun t ht => hstarted.trans ht⟩
  have stays (hins : commit.inserted = [])
      (hstatus : (commit.onBatch db.batch).status = db.batch.status)
      (hstarted : (commit.onBatch db.batch).startedAt = db.batch.startedAt)
      (hended : (commit.onBatch db.batch).completedAt = db.batch.completedAt) :
      Dated now (commit.apply db) ∧ db.batch.Goes (commit.onBatch db.batch) :=
    ⟨hd.same hins hstatus hstarted hended, .of_eq hstatus hstarted hended⟩
  cases h with
  | orchestrate active hrows ht =>
    obtain ⟨startedAt, hle, hrun⟩ := hstart _ _ _ _ rfl
    rw [hrun]
    exact hd.orchestrate active hrows hle rfl
  | lease =>
    refine stays rfl ?_ ?_ ?_
    all_goals simp only [Commit.onBatch]; split <;> rfl
  | giveUp hrow spent running =>
    have hne : db.chunks ≠ [] := fun he => by simp [he] at hrow
    refine ends rfl ?_ ?_ (absurd · hne) ?_ ?_
    all_goals simp only [Commit.onBatch, Batch.flush_current, ProcessChunk.failBatch]
    · rfl
    · rw [running]
      exact .failed
  | exhausted active ht hx =>
    have hne : db.chunks ≠ [] := fun he => by
      simp [he, reclaimExpiredLeases, countByStatus, StatusCounts.exhausted] at hx
    refine ends rfl ?_ ?_ (absurd · hne) ?_ ?_
    all_goals simp only [Commit.onBatch, Batch.flush_current, CheckCompletion.failBatch]
    · rfl
    · rw [hd.running active hne]
      exact .failed
  | finalize unfinished complete =>
    have hne : db.chunks ≠ [] := fun he => complete (.inl he)
    refine ends rfl ?_ ?_ (absurd · hne) ?_ ?_
    all_goals simp only [Commit.onBatch, Batch.flush_current, Finalize.complete]
    · rfl
    · cases hs : db.batch.status with
      | running => exact .completed
      | failed => exact .revived
      | pending => exact absurd (hd.waiting hs) hne
      | completed | cancelled => simp [hs] at unfinished
  | cancel =>
    by_cases hended : db.batch.status.terminal = true
    · have hbatch : (Commit.cancel db.batch (cancelBatch now db.batch)).onBatch db.batch =
          db.batch := by rw [Commit.onBatch, Batch.flush_current, cancelBatch, if_pos hended]
      exact stays rfl (by rw [hbatch]) (by rw [hbatch]) (by rw [hbatch])
    · refine ends rfl ?_ ?_ (fun _ => ?_) ?_ ?_
      all_goals simp only [Commit.onBatch, Batch.flush_current, cancelBatch, if_neg hended]
      · rfl
      · cases hs : db.batch.status with
        | pending => exact .withdrawn
        | running => exact .cancelled
        | completed | failed | cancelled => simp [hs, BatchStatus.terminal] at hended
  | retry | checked | webhook =>
    refine stays rfl ?_ ?_ ?_
    all_goals simp [Commit.onBatch, DeliverWebhook.attempt]
  | cancelRelease | success | requeue | reclaim => exact stays rfl rfl rfl rfl

/-! ## Every run -/

/-- When the orchestration has loaded the batch. -/
def Frame.loadedAt : Frame → Option Int
  | .orchestrateBatch (.gotBatch _ startedAt) => some startedAt
  | .orchestrateBatch (.planned _ startedAt _ _) => some startedAt
  | .orchestrateBatch (.reclaimed _ startedAt _ _ _) => some startedAt
  | _ => none

theorem loadedAt_of_step {c : Choice} {e : Effect Frame} {f : Frame}
    (hframe : ∀ t ∈ frame.loadedAt, t ≤ s.now) (h : frame.step env s c = some e)
    (hm : f ∈ e.frames) : ∀ t ∈ f.loadedAt, t ≤ s.now := by
  cases f with
  | orchestrateBatch pc =>
    obtain ⟨-, loaded, rfl⟩ | ⟨pc₀, rfl, hpc⟩ := orchestrateBatch_of_step h hm
    · rintro t ⟨⟩
      exact le_rfl
    · cases pc₀ with
      | gotBatch loaded startedAt =>
        simp only [Orchestrate.step] at hpc
        split at hpc <;> cases hpc
        exact hframe
      | planned => cases hpc; exact hframe
      | reclaimed =>
        simp only [Orchestrate.step] at hpc
        split at hpc <;> cases hpc
        simp [Frame.loadedAt]
      | enqueueing chunkIds => cases chunkIds <;> cases hpc; simp [Frame.loadedAt]
  | _ => simp [Frame.loadedAt]

theorem loadedAt_le (h : (workers env).Reach Atomic (created env now) w) :
    ∀ f ∈ w.pool, ∀ t ∈ f.loadedAt, t ≤ w.shared.now := by
  have hmod : (workers env).Modular Atomic (fun _ => True)
      (fun s f => ∀ t ∈ f.loadedAt, t ≤ s.now) := by
    refine modular_of_steps ?_ ?_ ?_ ?_
    · intro v i c frame e _ hpool _ hk he
      have hframe := hpool frame (List.mem_of_getElem? hk)
      exact ⟨trivial, fun f hf t ht => (loadedAt_of_step hframe he hf t ht : t ≤ v.shared.now)⟩
    · exact fun v i c frame e f _ _ _ _ _ _ hf => hf
    · simp [Frame.loadedAt]
    · exact fun s seconds _ => ⟨trivial, fun f hf t ht =>
        (hf t ht).trans (Int.le_add_of_nonneg_right (by positivity))⟩
  exact (hmod.reach trivial (by simp [created, Frame.loadedAt]) h).2

theorem Commits.orchestrate_run {loaded new : Batch} {rows : List BatchChunk} {t : Int}
    (h : Commits env s frame (.orchestrate loaded new rows t)) :
    ∃ startedAt ∈ frame.loadedAt, new = Orchestrate.run startedAt loaded := by
  cases h
  exact ⟨_, rfl, rfl⟩

/-- Every step of a run follows a move of the status. -/
theorem goes_of_fire (h : (workers env).Reach Atomic (created env now) v)
    (hd : Dated v.shared.now v.shared.db) (hf : (workers env).fire v m = some v') :
    Dated v'.shared.now v'.shared.db ∧ v.shared.db.batch.Goes v'.shared.db.batch := by
  have hnow : v.shared.now ≤ v'.shared.now := by
    rcases fire_cases hf with ⟨_, -, -, -, hnow, -⟩ | ⟨_, _, _, _, -, -, -, -, hshared, -⟩
    · exact hnow
    · rw [hshared]
      exact le_rfl
  rw [db_of_fire hf]
  cases hcommit : commitOf env v m with
  | none => exact ⟨hd.mono hnow, .of_eq rfl rfl rfl⟩
  | some commit =>
    have ⟨hdated, hgoes⟩ := (transaction_of_commitOf h hcommit).goes hd <| by
      rintro loaded new rows t rfl
      obtain ⟨frame, hm, hcommits⟩ := commits_of_commitOf hcommit
      obtain ⟨startedAt, hload, hnew⟩ := hcommits.orchestrate_run
      exact ⟨startedAt, loadedAt_le h frame hm startedAt hload, hnew⟩
    exact ⟨hdated.mono hnow, hgoes⟩

theorem dated_of_reach (h : (workers env).Reach Atomic (created env now) w) :
    Dated w.shared.now w.shared.db := by
  refine System.Reach.invariant (P := fun v => Dated v.shared.now v.shared.db)
    (A := fun v => (workers env).Reach Atomic (created env now) v) (fun _ hv => hv) ?_ ?_ h
  · constructor <;> simp [created, BatchStatus.terminal]
  · exact fun v m v' hr hd _ hf => (goes_of_fire hr hd hf).1

/-- In every reachable state started_at is set exactly when the chunk rows exist, and not later
than completed_at, which is not in the future. What a later state of the run has made of the
batch is a path of status moves; started_at is never changed, and completed_at only with the
status. -/
theorem batch_lifecycle (h : (workers env).Reach Atomic (created env now) w)
    (h' : (workers env).Reach Atomic w w') :
    Dated w.shared.now w.shared.db ∧
      Relation.ReflTransGen BatchStatus.Next w.shared.db.batch.status w'.shared.db.batch.status ∧
      (∀ t, w.shared.db.batch.startedAt = some t → w'.shared.db.batch.startedAt = some t) ∧
      (w'.shared.db.batch.status = w.shared.db.batch.status →
        w'.shared.db.batch.completedAt = w.shared.db.batch.completedAt) := by
  refine ⟨dated_of_reach h, ?_⟩
  induction h' with
  | refl => exact ⟨.refl, fun _ ht => ht, fun _ => rfl⟩
  | @step v v' m hbefore _ hf ih =>
    obtain ⟨hpath, hstarted, hended⟩ := ih
    have hr := h.trans hbefore
    have hgoes := (goes_of_fire hr (dated_of_reach hr) hf).2
    refine ⟨?_, fun t ht => hgoes.started t (hstarted t ht), fun heq => ?_⟩
    · rcases hgoes.status with hsame | hnext
      · rwa [hsame]
      · exact hpath.tail hnext
    · -- the status cannot have left and come back
      have hstep : v'.shared.db.batch.status = v.shared.db.batch.status := by
        rcases hgoes.status with hsame | hnext
        · exact hsame
        · have hle := rank_le_of_reflTransGen hpath
          have hlt := hnext.rank_lt
          rw [heq] at hlt
          omega
      exact (hgoes.ended hstep).trans (hended (hstep.symm.trans heq))

/-- The status and the timestamps. -/
def datesOf (v : World Shared Frame) : BatchStatus × Option Int × Option Int :=
  (v.shared.db.batch.status, v.shared.db.batch.startedAt, v.shared.db.batch.completedAt)

/-- The batch is loaded three seconds before it is started, and ends four seconds later. -/
theorem batch_lifecycle_twoPrompts : ∃ w w' : World Shared Frame,
    (workers (twoPrompts 1 5)).Reach Atomic (created (twoPrompts 1 5) 0) w ∧
    (workers (twoPrompts 1 5)).Reach Atomic w w' ∧
    datesOf w = (.running, some 0, none) ∧ datesOf w' = (.completed, some 0, some 7) ∧
    Dated w.shared.now w.shared.db ∧
    Relation.ReflTransGen BatchStatus.Next w.shared.db.batch.status
      w'.shared.db.batch.status := by
  have hrun : ∃ w w', (workers (twoPrompts 1 5)).Reach Atomic (created (twoPrompts 1 5) 0) w ∧
      datesOf w = (.running, some 0, none) ∧ (workers (twoPrompts 1 5)).Reach Atomic w w' ∧
      datesOf w' = (.completed, some 0, some 7) :=
    System.Reach.of_run_append datesOf (steps 0 1 ++ [.env (.tick 3)] ++ steps 0 3)
      ([.env (.tick 4)] ++ completedRun.drop 4) (by decide +kernel) (by decide +kernel)
  obtain ⟨w, w', h, hw, h', hw'⟩ := hrun
  have hlife := batch_lifecycle h h'
  exact ⟨w, w', h, h', hw, hw', hlife.1, hlife.2.1⟩

end BatchInference
