import BatchInference.Workers.Invariant

/-!
# Atomic transactions

In a serial run nothing is committed between a transaction's first statement and its own
commit, so what a job has loaded is what is committed (`Frame.Snapshot`). A commit is then
one of the operations of `Transaction` on the current rows, and this is all that the proofs
about such runs use of the jobs' statements.
-/

namespace BatchInference

open JobPool

variable {env : Env} {s s' : Shared} {frame : Frame}

/-! ## Loaded rows are the committed ones -/

/-- Inside a transaction: what has been loaded is what is committed. -/
def Frame.Snapshot (env : Env) (db : Db) (t : Int) : Frame → Prop
  | .orchestrateBatch pc => match pc with
    | .gotBatch loaded _ => loaded.row = db.batch
    | .planned loaded _ rows fresh =>
      loaded.row = db.batch ∧ createChunkRows env.spec db.chunks = .ok rows ∧
        fresh = decide (db.chunks = [])
    | .reclaimed loaded _ rows fresh now =>
      loaded.row = db.batch ∧ createChunkRows env.spec db.chunks = .ok rows ∧
        fresh = decide (db.chunks = []) ∧ now ≤ t
    | .enqueueing _ => True
  | .processChunk i _ pc => match pc with
    | .gotBatch => db.batch.status.terminal = false
    | .leased loaded now => db.batch.status.terminal = false ∧
      db.chunks[i]? = some loaded ∧ loaded.refused env now = false ∧ now ≤ t
    | .body _ pc => match pc with
      | .cancelLoaded row | .loaded row _ _ | .flushed row _ _ => db.chunks[i]? = some row
      | .recomputed row ok fail counters => db.chunks[i]? = some row ∧
        counters = recomputeBatchCounters (db.chunks.set i (row.succeed i ok fail))
      | _ => True
    | .handler _ _ pc => match pc with
      | .loadedChunk row => db.chunks[i]? = some row
      | .loadedBatch row batch => db.chunks[i]? = some row ∧ batch = db.batch
      | _ => True
  | .checkBatchCompletion _ pc => match pc with
    | .gotBatch loaded => loaded.row = db.batch
    | .reclaimed loaded now => loaded.row = db.batch ∧ now ≤ t
    | .counted loaded now counts => loaded.row = db.batch ∧ now ≤ t ∧
      counts = countByStatus (reclaimExpiredLeases now db.chunks)
    | .requeueing unleased todo => ∃ now ≤ t,
      (∀ i c, (i, c) ∈ unleased → db.chunks[i]? = some c ∧ c.expired now = true) ∧
      ∀ c ∈ todo, db.chunks[c.chunkIndex]? = some c ∧ CheckCompletion.lost now c = true
    | _ => True
  | .finalizeBatch pc => match pc with
    | .gotBatch loaded _ => loaded = db.batch
    | .gathering snap _ _ | .concatenated snap | .committing snap =>
      snap.batch = db.batch ∧ snap.rows = db.chunks
    | _ => True
  | .deliverBatchWebhook _ _ pc => match pc with
    | .posting loaded | .posted loaded _ => loaded = db.batch
    | .backingOff _ => True
  | .cancelBatch loaded => loaded = db.batch
  | .queued _ => True

theorem Frame.Snapshot.of_not_busy {db : Db} {t : Int} (h : frame.busy = false) :
    frame.Snapshot env db t := by
  cases frame with
  | queued => trivial
  | processChunk i deferBy pc =>
    cases pc with
    | body chunk pc => cases pc <;> trivial
    | handler chunk exc pc => cases pc <;> trivial
    | _ => cases h
  | cancelBatch => cases h
  | orchestrateBatch pc | checkBatchCompletion _ pc | finalizeBatch pc
  | deliverBatchWebhook _ _ pc => cases pc <;> trivial

theorem Frame.Snapshot.mono {db : Db} {t t' : Int} (h : frame.Snapshot env db t) (ht : t ≤ t') :
    frame.Snapshot env db t' := by
  cases frame with
  | orchestrateBatch pc =>
    cases pc with
    | reclaimed => exact ⟨h.1, h.2.1, h.2.2.1, h.2.2.2.trans ht⟩
    | _ => exact h
  | processChunk i deferBy pc =>
    cases pc with
    | leased => exact ⟨h.1, h.2.1, h.2.2.1, h.2.2.2.trans ht⟩
    | _ => exact h
  | checkBatchCompletion deferBy pc =>
    cases pc with
    | reclaimed => exact ⟨h.1, h.2.trans ht⟩
    | counted => exact ⟨h.1, h.2.1.trans ht, h.2.2⟩
    | requeueing => obtain ⟨now, hn, h⟩ := h; exact ⟨now, hn.trans ht, h⟩
    | _ => exact h
  | _ => exact h

theorem Commits.touches {commit : Commit} (h : Commits env s frame commit) :
    frame.touches = true := by
  cases h <;> rfl

theorem BatchChunk.modify_eq_set {chunks : List BatchChunk} {i : Nat} {row : BatchChunk}
    (h : chunks[i]? = some row) (f : BatchChunk → BatchChunk) :
    chunks.modify i f = chunks.set i (f row) := by
  rw [List.modify_eq_set_getElem?, h]
  rfl

theorem Frame.Snapshot.start {job : Job} {f : Frame} (hm : f ∈ (Frame.start env s job).next) :
    f.Snapshot env s.db s.now := by
  cases job with
  | orchestrateBatch =>
    simp only [Frame.start, Orchestrate.start] at hm
    split at hm <;> cases hm
    rfl
  | processChunk =>
    simp only [Frame.start, ProcessChunk.start] at hm
    split at hm <;> cases hm
    exact eq_false_of_ne_true ‹_›
  | checkBatchCompletion =>
    simp only [Frame.start, CheckCompletion.start] at hm
    split at hm <;> cases hm
    rfl
  | finalizeBatch =>
    simp only [Frame.start, Finalize.start] at hm
    split at hm <;> cases hm
    rfl
  | deliverBatchWebhook =>
    simp only [Frame.start, DeliverWebhook.start] at hm
    split at hm <;> cases hm
    rfl
  | reclaimLeasesCron => cases hm
  | cancelBatch => cases hm; rfl

theorem ProcessChunk.snapshot_body {i deferBy : Nat} {chunk : BatchChunk} {pc pc' : Body}
    {e : Effect Body}
    (hs : Frame.Snapshot env s.db s.now (.processChunk i deferBy (.body chunk pc)))
    (h : pc.step env s i chunk = some e) (hm : pc' ∈ e.next) :
    Frame.Snapshot env s.db s.now (.processChunk i deferBy (.body chunk pc')) := by
  have hgoes := Body.goes_of_step h hm
  generalize e.commit = commit, e.put = put at hgoes
  cases hgoes with
  | loadCancelled hrow | load hrow => exact hrow
  | flush => exact hs
  | recompute =>
    refine ⟨hs, ?_⟩
    rw [BatchChunk.modify_eq_set hs, BatchChunk.flush_current]
  | _ => trivial

theorem ProcessChunk.snapshot_next {i deferBy : Nat} {pc pc' : Pc} {e : Effect Pc}
    (hs : Frame.Snapshot env s.db s.now (.processChunk i deferBy pc))
    (h : step env s i pc = some e) (hpc : e.next = some pc') :
    Frame.Snapshot env s.db s.now (.processChunk i deferBy pc') := by
  have hgoes := goes_of_step h hpc
  generalize e.commit = commit at hgoes
  cases hgoes with
  | grant hrow free => exact ⟨hs, hrow, free, le_rfl⟩
  | lease => trivial
  | body h₀ hpc₀ => exact snapshot_body hs h₀ hpc₀
  | @handler chunk exc pc pc' hpc₀ =>
    have hhandler := Handler.goes_of_step hpc₀
    generalize (Handler.step env s i exc pc).commit = commit at hhandler
    cases hhandler with
    | load hrow => exact hrow
    | loadBatch => exact ⟨hs, rfl⟩
    | giveUp | retry => trivial

theorem Orchestrate.snapshot_next {pc pc' : Pc}
    (hs : Frame.Snapshot env s.db s.now (.orchestrateBatch pc))
    (hpc : (step env s pc).next = some pc') :
    Frame.Snapshot env s.db s.now (.orchestrateBatch pc') := by
  cases pc with
  | gotBatch loaded startedAt =>
    simp only [step] at hpc
    split at hpc <;> cases hpc
    exact ⟨hs, ‹_›, rfl⟩
  | planned loaded startedAt rows fresh => cases hpc; exact ⟨hs.1, hs.2.1, hs.2.2, le_rfl⟩
  | reclaimed loaded startedAt rows fresh now =>
    simp only [step] at hpc
    split at hpc <;> cases hpc
    trivial
  | enqueueing chunkIds => cases chunkIds <;> cases hpc; trivial

theorem CheckCompletion.snapshot_next {deferBy : Nat} {pc pc' : Pc} (hv : Valid env s)
    (hs : Frame.Snapshot env s.db s.now (.checkBatchCompletion deferBy pc))
    (hpc : (step s pc).next = some pc') :
    Frame.Snapshot env s.db s.now (.checkBatchCompletion deferBy pc') := by
  cases pc with
  | gotBatch loaded => cases hpc; exact ⟨hs, le_rfl⟩
  | reclaimed loaded now => cases hpc; exact ⟨hs.1, hs.2, rfl⟩
  | counted loaded now counts =>
    simp only [step] at hpc
    split at hpc
    · cases hpc; trivial
    · split at hpc
      · cases hpc; trivial
      · dsimp only at hpc
        split at hpc <;> cases hpc
        trivial
  | selectPending =>
    cases hpc
    refine ⟨s.now, le_rfl, by simp, fun c hc => ?_⟩
    obtain ⟨hm, hl⟩ := List.mem_filter.mp hc
    exact ⟨hv.getElem?_of_mem hm, hl⟩
  | requeueing unleased todo =>
    cases todo with
    | nil => cases hpc; trivial
    | cons c todo =>
      cases hpc
      obtain ⟨now, hn, hun, htodo⟩ := hs
      obtain ⟨⟨hc, hl⟩, htodo⟩ := List.forall_mem_cons.mp htodo
      refine ⟨now, hn, fun i c' hm => ?_, htodo⟩
      split at hm
      · rename_i hleased
        rcases List.mem_append.mp hm with hm | hm
        · exact hun i c' hm
        · obtain ⟨rfl, rfl⟩ := by simpa using hm
          exact ⟨hc, by simpa [lost, hleased] using hl⟩
      · exact hun i c' hm
  | announceFailed | enqueueFinalize | repoll => cases hpc

theorem Finalize.snapshot_next {pc pc' : Pc} {e : Effect Pc}
    (hs : Frame.Snapshot env s.db s.now (.finalizeBatch pc)) (h : step env s pc = some e)
    (hpc : e.next = some pc') : Frame.Snapshot env s.db s.now (.finalizeBatch pc') := by
  have hgoes := goes_of_step h hpc
  generalize e.put = put at hgoes
  cases hgoes with
  | incomplete | commit => trivial
  | load => exact ⟨hs, rfl⟩
  | get | results | manifest => exact hs

/-- Stepping inside a transaction, into one, or out of one. -/
theorem Frame.Snapshot.next {e : Effect Frame} {f : Frame} (hv : Valid env s)
    (hs : frame.Snapshot env s.db s.now) (h : frame.next env s = some e) (hm : f ∈ e.next) :
    f.Snapshot env s.db s.now := by
  cases frame with
  | queued job => cases h; exact .start hm
  | orchestrateBatch pc =>
    cases h
    obtain ⟨pc', hpc, rfl⟩ := Option.map_eq_some_iff.mp hm
    exact Orchestrate.snapshot_next hs hpc
  | processChunk i deferBy pc =>
    obtain ⟨e₁, h₁, rfl⟩ := Option.map_eq_some_iff.mp h
    obtain ⟨pc', hpc, rfl⟩ := Option.map_eq_some_iff.mp hm
    exact ProcessChunk.snapshot_next hs h₁ hpc
  | checkBatchCompletion deferBy pc =>
    cases h
    obtain ⟨pc', hpc, rfl⟩ := Option.map_eq_some_iff.mp hm
    exact CheckCompletion.snapshot_next hv hs hpc
  | finalizeBatch pc =>
    obtain ⟨e₁, h₁, rfl⟩ := Option.map_eq_some_iff.mp h
    obtain ⟨pc', hpc, rfl⟩ := Option.map_eq_some_iff.mp hm
    exact Finalize.snapshot_next hs h₁ hpc
  | deliverBatchWebhook event deferBy pc =>
    obtain ⟨e₁, h₁, rfl⟩ := Option.map_eq_some_iff.mp h
    obtain ⟨pc', hpc, rfl⟩ := Option.map_eq_some_iff.mp hm
    cases pc with
    | posted loaded ok =>
      cases h₁
      dsimp only at hpc
      split at hpc <;> cases hpc
      trivial
    | posting | backingOff => cases h₁
  | cancelBatch loaded => cases h; cases hm

/-- A commit ends the transaction. -/
theorem not_busy_of_commit {commit : Commit} {e : Effect Frame} {f : Frame}
    (hc : Commits env s frame commit) (h : frame.next env s = some e) (hm : f ∈ e.next) :
    f.busy = false := by
  cases hc with
  | orchestrate =>
    cases h
    obtain ⟨pc', hpc, rfl⟩ := Option.map_eq_some_iff.mp hm
    simp only [Orchestrate.step] at hpc
    split at hpc <;> cases hpc
    rfl
  | exhausted | checked =>
    cases h
    obtain ⟨pc', hpc, rfl⟩ := Option.map_eq_some_iff.mp hm
    simp only [CheckCompletion.step] at hpc
    split_ifs at hpc
    all_goals cases hpc; rfl
  | giveUp | retry =>
    cases h
    obtain ⟨pc', hpc, rfl⟩ := Option.map_eq_some_iff.mp hm
    obtain ⟨pc'', hpc', rfl⟩ := Option.map_eq_some_iff.mp hpc
    simp only [ProcessChunk.Handler.step] at hpc'
    split_ifs at hpc'
    all_goals cases hpc'; rfl
  | webhook =>
    cases h
    obtain ⟨pc', hpc, rfl⟩ := Option.map_eq_some_iff.mp hm
    dsimp only at hpc
    split at hpc <;> cases hpc
    rfl
  | lease | success | requeue | finalize => cases h; cases hm; rfl
  | cancelRelease | reclaim | cancel => cases h; cases hm

theorem Frame.Snapshot.frames {c : Choice} {e : Effect Frame} (hv : Valid env s)
    (hs : frame.Snapshot env s.db s.now) (h : frame.step env s c = some e) :
    ∀ f ∈ e.frames, f.Snapshot env (e.shared s).db s.now := by
  refine forall_frames_of_step h (fun _ => trivial) (fun hn f hm => ?_) ?_ ?_ ?_ ?_
  · have hnext := hs.next hv hn hm
    rcases shared_cases h with he | ⟨commit, hc, -⟩ | ⟨put, -, he⟩
    · exact he.symm ▸ hnext
    · exact .of_not_busy (not_busy_of_commit hc hn hm)
    · exact he.symm ▸ hnext
  · intros
    trivial
  · intros
    trivial
  · rintro event deferBy loaded ok rfl
    rcases shared_cases h with he | ⟨commit, hc, -⟩ | ⟨put, hp, -⟩
    · exact he.symm ▸ hs
    · cases hc
    · cases hp
  · intros
    trivial

variable {now : Int} {w : World Shared Frame}

theorem snapshot_of_reach (h : (workers env).Reach Atomic (created env now) w) :
    ∀ f ∈ w.pool, f.Snapshot env w.shared.db w.shared.now := by
  have hmod : (workers env).Modular (fun v m => Atomic v m ∧ Valid env v.shared)
      (fun _ => True) (fun s f => f.Snapshot env s.db s.now) := by
    refine modular_of_steps ?_ ?_ ?_ ?_
    · intro v i c frame e _ hpool hok hk he
      exact ⟨trivial, (hpool frame (List.mem_of_getElem? hk)).frames hok.2 he⟩
    · intro v i c frame e f _ hok hk _ he hf hs
      rcases shared_cases he with hsh | ⟨commit, hc, -⟩ | ⟨put, -, hsh⟩
      · exact hsh.symm ▸ hs
      · -- a commit leaves no other job inside a transaction
        exact .of_not_busy (hok.1 frame hk hc.touches f hf)
      · exact hsh.symm ▸ hs
    · intro v job _
      trivial
    · intro s seconds _
      exact ⟨trivial, fun f hs => hs.mono (Int.le_add_of_nonneg_right (by positivity))⟩
  refine (hmod.reach trivial ?_ (h.and fun v hv => valid_of_reach hv)).2
  simp [created, Frame.Snapshot]

/-! ## The operations -/

/-- What an atomic transaction commits. -/
inductive Transaction (env : Env) (now : Int) (db : Db) : Commit → Prop where
  | orchestrate {startedAt t : Int} {rows : List BatchChunk}
      (active : db.batch.status.terminal = false)
      (hrows : createChunkRows env.spec db.chunks = .ok rows) (ht : t ≤ now) :
      Transaction env now db (.orchestrate db.batch (Orchestrate.run startedAt db.batch)
        (if db.chunks = [] then rows else []) t)
  | lease {i : Nat} {row : BatchChunk} {t : Int} (active : db.batch.status.terminal = false)
      (hrow : db.chunks[i]? = some row) (free : row.refused env t = false) (ht : t ≤ now) :
      Transaction env now db (.lease i row (row.lease env t))
  | cancelRelease {i : Nat} {row : BatchChunk} (hrow : db.chunks[i]? = some row) :
      Transaction env now db (.cancelRelease i row row.cancelRelease)
  | success {i ok fail : Nat} {row : BatchChunk} (hrow : db.chunks[i]? = some row)
      (split : ((ok + fail : Nat) : Int) = row.limit) :
      Transaction env now db (.success i row (row.succeed i ok fail)
        (recomputeBatchCounters (db.chunks.set i (row.succeed i ok fail))))
  | giveUp {i : Nat} {row : BatchChunk} {exc : String} (hrow : db.chunks[i]? = some row)
      (spent : env.chunkMaxAttempts ≤ row.attempts) (running : db.batch.status = .running) :
      Transaction env now db (.failure i row (row.fail env exc) db.batch
        (ProcessChunk.failBatch now i exc db.batch))
  | retry {i : Nat} {row : BatchChunk} {exc : String} (hrow : db.chunks[i]? = some row)
      (left : ¬ env.chunkMaxAttempts ≤ row.attempts) :
      Transaction env now db (.failure i row (row.fail env exc) db.batch db.batch)
  | exhausted {t : Int} (active : db.batch.status.terminal = false) (ht : t ≤ now)
      (h : (countByStatus (reclaimExpiredLeases t db.chunks)).exhausted = true) :
      Transaction env now db (.check db.batch (CheckCompletion.failBatch now
        (countByStatus (reclaimExpiredLeases t db.chunks)).failed db.batch) t)
  | checked {t : Int} (active : db.batch.status.terminal = false) (ht : t ≤ now)
      (h : (countByStatus (reclaimExpiredLeases t db.chunks)).exhausted = false) :
      Transaction env now db (.check db.batch db.batch t)
  | requeue {t : Int} {unleased : List (Nat × BatchChunk)} (ht : t ≤ now)
      (h : ∀ i c, (i, c) ∈ unleased → db.chunks[i]? = some c ∧ c.expired t = true) :
      Transaction env now db (.requeue unleased)
  | finalize (unfinished : ¬ (db.batch.status = .completed ∨ db.batch.status = .cancelled))
      (complete : ¬ (db.chunks = [] ∨ ∃ c ∈ db.chunks, c.status ≠ .succeeded)) :
      Transaction env now db (.finalize db.batch (Finalize.complete now db.batch))
  | webhook {ok : Bool} :
      Transaction env now db (.webhook db.batch (DeliverWebhook.attempt env ok db.batch))
  | reclaim : Transaction env now db (.reclaim now)
  | cancel : Transaction env now db (.cancel db.batch (cancelBatch now db.batch))

theorem Commits.transaction {commit : Commit} (h : Commits env s frame commit)
    (hok : frame.Ok env s) (hs : frame.Snapshot env s.db s.now) :
    Transaction env s.now s.db commit := by
  cases h with
  | @orchestrate loaded startedAt now rows fresh unique =>
    obtain ⟨hb, hrows, rfl, ht⟩ := hs
    have hnot := loaded.not_terminal
    rw [hb] at hnot ⊢
    simpa using Transaction.orchestrate hnot hrows ht
  | lease =>
    obtain ⟨hb, hrow, hfree, ht⟩ := hs
    exact .lease hb hrow hfree ht
  | cancelRelease => exact .cancelRelease hs
  | @success i deferBy ok fail chunk row counters =>
    obtain ⟨hrow, rfl⟩ := hs
    obtain ⟨hchunk, hsplit, -⟩ := hok
    exact .success hrow (hsplit.trans (hchunk.limit_eq hrow).symm)
  | giveUp spent running =>
    obtain ⟨hrow, rfl⟩ := hs
    exact .giveUp hrow spent running
  | retry left =>
    obtain ⟨hrow, rfl⟩ := hs
    exact .retry hrow left
  | @exhausted deferBy loaded now counts hx =>
    obtain ⟨hb, ht, rfl⟩ := hs
    rw [hb]
    exact .exhausted (hb ▸ loaded.not_terminal) ht hx
  | @checked deferBy loaded now counts hx =>
    obtain ⟨hb, ht, rfl⟩ := hs
    rw [hb]
    exact .checked (hb ▸ loaded.not_terminal) ht hx
  | requeue =>
    obtain ⟨now, hn, hun, -⟩ := hs
    exact .requeue hn hun
  | @finalize snap =>
    obtain ⟨hb, hrows⟩ := hs
    rw [hb]
    exact .finalize (hb ▸ snap.unfinished) (hrows ▸ snap.complete)
  | webhook => cases hs; exact .webhook
  | reclaim => exact .reclaim
  | cancel => cases hs; exact .cancel

/-- In a serial run a commit is one of the operations. -/
theorem transaction_of_commitOf {m : Moves} {commit : Commit}
    (h : (workers env).Reach Atomic (created env now) w) (hc : commitOf env w m = some commit) :
    Transaction env w.shared.now w.shared.db commit := by
  obtain ⟨frame, hm, hcommits⟩ := commits_of_commitOf hc
  exact hcommits.transaction ((ok_of_reach h).2 frame hm) (snapshot_of_reach h frame hm)

/-- To show something of the database in every serial run. -/
theorem atomic_invariant {P : Db → Prop} (h : (workers env).Reach Atomic (created env now) w)
    (h₀ : P (created env now).shared.db)
    (hs : ∀ s commit, Valid env s → P s.db → Transaction env s.now s.db commit →
      P (commit.apply s.db)) : P w.shared.db := by
  refine System.Reach.invariant (P := fun v => P v.shared.db)
    (A := fun v => (workers env).Reach Atomic (created env now) v) (fun _ hv => hv) h₀ ?_ h
  intro v m v' hr hP _ hf
  rw [db_of_fire hf]
  cases hc : commitOf env v m with
  | none => exact hP
  | some commit => exact hs _ _ (valid_of_reach hr) hP (transaction_of_commitOf hr hc)

/-! ## One chunk's row -/

/-- What `commit` does to the row with index `i`. -/
inductive RowStep (env : Env) (now : Int) (commit : Commit) (i : Nat) (row : BatchChunk) :
    BatchChunk → Prop where
  | stay : RowStep env now commit i row row
  | lease {t : Int} (h : commit = .lease i row (row.lease env t))
      (free : row.refused env t = false) (ht : t ≤ now) :
      RowStep env now commit i row (row.lease env t)
  | cancelRelease (h : commit = .cancelRelease i row row.cancelRelease) :
      RowStep env now commit i row row.cancelRelease
  | succeed {ok fail : Nat} {counters : Counters}
      (h : commit = .success i row (row.succeed i ok fail) counters)
      (split : ((ok + fail : Nat) : Int) = row.limit) :
      RowStep env now commit i row (row.succeed i ok fail)
  | fail {exc : String} {batch batch' : Batch}
      (h : commit = .failure i row (row.fail env exc) batch batch') :
      RowStep env now commit i row (row.fail env exc)
  | unlease {t : Int} (h : row.expired t = true) (ht : t ≤ now) :
      RowStep env now commit i row row.unlease

theorem RowStep.reclaim {commit : Commit} {t : Int} {i : Nat} (ht : t ≤ now)
    (row : BatchChunk) : RowStep env now commit i row (row.reclaim t) := by
  unfold BatchChunk.reclaim
  split
  · exact .unlease ‹_› ht
  · exact .stay

/-- A commit that writes one row, seen from a row. -/
theorem RowStep.of_ite {commit : Commit} {i j : Nat} {row loaded new : BatchChunk}
    {chunks : List BatchChunk} (hrow : chunks[i]? = some row) (hj : chunks[j]? = some loaded)
    (h : j = i → loaded = row → RowStep env now commit i row new) :
    RowStep env now commit i row (if j = i then loaded.flush new row else row) := by
  split
  · rename_i hij
    subst hij
    obtain rfl := Option.some.inj (hj.symm.trans hrow)
    rw [BatchChunk.flush_current]
    exact h rfl rfl
  · exact .stay

theorem Transaction.row_step {db : Db} {commit : Commit} (h : Transaction env now db commit)
    {i : Nat} {row : BatchChunk} (hrow : db.chunks[i]? = some row) :
    RowStep env now commit i row (commit.onRow i row) := by
  cases h with
  | orchestrate _ _ ht | exhausted _ ht | checked _ ht => exact .reclaim ht row
  | reclaim => exact .reclaim le_rfl row
  | finalize | webhook | cancel => exact .stay
  | lease _ hj free ht =>
    exact .of_ite hrow hj fun hi hr => by subst hi hr; exact .lease rfl free ht
  | cancelRelease hj => exact .of_ite hrow hj fun hi hr => by subst hi hr; exact .cancelRelease rfl
  | success hj split => exact .of_ite hrow hj fun hi hr => by subst hi hr; exact .succeed rfl split
  | giveUp hj | retry hj => exact .of_ite hrow hj fun hi hr => by subst hi hr; exact .fail rfl
  | @requeue t unleased ht h =>
    simp only [Commit.onRow]
    split
    · rename_i loaded hl
      obtain ⟨pre, post, rfl, -⟩ := List.lookup_eq_some_iff.mp hl
      obtain ⟨hc, hx⟩ := h i loaded (by simp)
      obtain rfl := Option.some.inj (hrow.symm.trans hc)
      rw [BatchChunk.flush_current]
      exact .unlease hx ht
    · exact .stay

theorem map_set_of_eq {α β : Type} (g : α → β) {xs : List α} {i : Nat} {a b : α}
    (h : xs[i]? = some a) (hg : g b = g a) : (xs.set i b).map g = xs.map g := by
  refine List.ext_getElem? fun j => ?_
  rw [List.getElem?_map, List.getElem?_map, List.getElem?_set]
  split
  · rename_i hij
    subst hij
    rw [h, if_pos (List.getElem?_eq_some_iff.mp h).1, Option.map_some, Option.map_some, hg]
  · rfl

theorem Commit.chunks_apply_of_row {db : Db} {commit : Commit} {i : Nat}
    {row new : BatchChunk} (hrow : db.chunks[i]? = some row) (hins : commit.inserted = [])
    (h : ∀ j r, commit.onRow j r = if i = j then row.flush new r else r) :
    (commit.apply db).chunks = db.chunks.set i new := by
  refine List.ext_getElem? fun j => ?_
  rw [getElem?_chunks_apply, hins, List.append_nil, List.getElem?_set]
  by_cases hij : i = j
  · subst hij
    rw [hrow, Option.map_some, h, if_pos rfl, if_pos rfl, BatchChunk.flush_current,
      if_pos (List.getElem?_eq_some_iff.mp hrow).1]
  · simp [h, hij]

/-- Where the rows after a transaction come from. -/
theorem Transaction.row_origin {db : Db} {commit : Commit} (h : Transaction env now db commit)
    {i : Nat} {row : BatchChunk} (hrow : (commit.apply db).chunks[i]? = some row) :
    (∃ row₀, db.chunks[i]? = some row₀ ∧ RowStep env now commit i row₀ row) ∨
      db.chunks = [] ∧ ∃ entry, env.plan[i]? = some entry ∧ row = .ofPlan entry := by
  rw [Commit.getElem?_chunks_apply] at hrow
  obtain ⟨row₀, hrow₀, rfl⟩ := Option.map_eq_some_iff.mp hrow
  by_cases hi : commit.inserted = []
  · rw [hi, List.append_nil] at hrow₀
    exact .inl ⟨row₀, hrow₀, h.row_step hrow₀⟩
  · right
    cases h with
    | @orchestrate startedAt t rows active hrows ht =>
      simp only [Commit.inserted] at hi hrow₀
      split at hi
      · rename_i he
        obtain rfl := eq_of_createChunkRows (he ▸ hrows)
        rw [if_pos he, he, List.nil_append, List.getElem?_map] at hrow₀
        obtain ⟨entry, hentry, rfl⟩ := Option.map_eq_some_iff.mp hrow₀
        exact ⟨he, entry, hentry, rfl⟩
      · exact absurd rfl hi
    | _ => exact absurd rfl hi

end BatchInference
