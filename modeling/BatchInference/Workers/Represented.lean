import BatchInference.Workers.Progress

/-!
# The rows of a batch

What the columns of a batch and of its chunks say of each other in every serial run, whatever
jobs run, how often, and where they are lost. A row is leased exactly while `leased_until` is
set, a succeeded one has its object, a failed one has spent its attempts and has ended its
batch, and `completed_at` is set exactly when the batch has ended.
-/

namespace BatchInference

open JobPool System

variable {env : Env} {now : Int} {s : Shared} {frame : Frame} {v w : World Shared Frame}

structure Represented (env : Env) (s : Shared) : Prop where
  planned : s.db.chunks = [] ∨
    planChunks env.spec.totalItems env.spec.chunkSize = .ok (s.db.chunks.map (·.place))
  leased : ∀ c ∈ s.db.chunks, c.status = .leased ↔ c.leasedUntil ≠ none
  succeeded : ∀ c ∈ s.db.chunks, c.status = .succeeded →
    c.resultKey.map (·.path env.spec.id) = some (chunkResultKey env.spec.id c.chunkIndex) ∧
      s.store.rows (.chunk c.chunkIndex) ≠ none
  failed : ∀ c ∈ s.db.chunks, c.status = .failed → env.chunkMaxAttempts ≤ c.attempts ∧
    s.db.batch.status ≠ .pending ∧ s.db.batch.status ≠ .running
  completedAt : s.db.batch.completedAt ≠ none ↔
    s.db.batch.status = .completed ∨ s.db.batch.status = .failed ∨ s.db.batch.status = .cancelled
  completed : s.db.batch.status = .completed →
    s.db.batch.resultsKey ≠ none ∧ s.db.batch.manifestKey ≠ none

/-! ## The database -/

/-- The part of it that is kept by each transaction. -/
structure Db.Sound (env : Env) (db : Db) : Prop where
  leased : ∀ c ∈ db.chunks, c.status = .leased ↔ c.leasedUntil ≠ none
  failed : ∀ c ∈ db.chunks, c.status = .failed →
    env.chunkMaxAttempts ≤ c.attempts ∧ db.batch.status.terminal = true
  completedAt : db.batch.completedAt ≠ none ↔ db.batch.status.terminal = true
  completed : db.batch.status = .completed →
    db.batch.resultsKey ≠ none ∧ db.batch.manifestKey ≠ none

theorem RowStep.leased {commit : Commit} {i : Nat} {row row' : BatchChunk}
    (h : RowStep env now commit i row row')
    (hrow : row.status = .leased ↔ row.leasedUntil ≠ none) :
    row'.status = .leased ↔ row'.leasedUntil ≠ none := by
  cases h with
  | stay => exact hrow
  | lease => simp [BatchChunk.lease]
  | cancelRelease => simp [BatchChunk.cancelRelease]
  | succeed => simp [BatchChunk.succeed]
  | fail =>
    simp only [BatchChunk.fail]
    split <;> simp
  | unlease => simp [BatchChunk.unlease]

/-- A row becomes failed in the failure handler, when its attempts are spent. -/
theorem RowStep.failed {commit : Commit} {i : Nat} {row row' : BatchChunk}
    (h : RowStep env now commit i row row') (hs : row'.status = .failed) :
    row' = row ∨ env.chunkMaxAttempts ≤ row'.attempts ∧
      ∃ exc batch batch', commit = .failure i row (row.fail env exc) batch batch' := by
  cases h with
  | stay => exact .inl rfl
  | fail h =>
    right
    simp only [BatchChunk.fail] at hs ⊢
    split at hs
    · exact ⟨‹_›, _, _, _, h⟩
    · cases hs
  | lease | cancelRelease | succeed | unlease => cases hs

/-- No transaction opens a batch again that has ended. -/
theorem Transaction.terminal {db : Db} {commit : Commit} (h : Transaction env now db commit)
    (ht : db.batch.status.terminal = true) :
    (commit.onBatch db.batch).status.terminal = true := by
  cases h with
  | orchestrate active | lease active | exhausted active | checked active =>
    simp [ht] at active
  | giveUp hrow spent running => simp [running, BatchStatus.terminal] at ht
  | finalize => simp [Commit.onBatch, Finalize.complete, BatchStatus.terminal]
  | cancel => simp [Commit.onBatch, cancelBatch, ht]
  | retry | webhook => simpa [Commit.onBatch, DeliverWebhook.attempt] using ht
  | cancelRelease | success | requeue | reclaim => exact ht

/-- A batch whose chunk is failed has ended. -/
theorem Transaction.terminal_of_failure {db : Db} {i : Nat} {loaded new : BatchChunk}
    {batch batch' : Batch} (h : Transaction env now db (.failure i loaded new batch batch'))
    (hs : new.status = .failed) :
    ((Commit.failure i loaded new batch batch').onBatch db.batch).status.terminal = true := by
  cases h with
  | giveUp => simp [Commit.onBatch, ProcessChunk.failBatch, BatchStatus.terminal]
  | retry hrow left => simp [BatchChunk.fail, left] at hs

theorem Transaction.completedAt {db : Db} {commit : Commit} (h : Transaction env now db commit)
    (hc : db.batch.completedAt ≠ none ↔ db.batch.status.terminal = true) :
    (commit.onBatch db.batch).completedAt ≠ none ↔
      (commit.onBatch db.batch).status.terminal = true := by
  cases h with
  | orchestrate active =>
    simp only [active, Bool.false_eq_true, iff_false, not_not] at hc
    simp [Commit.onBatch, Orchestrate.run, BatchStatus.terminal, hc]
  | lease =>
    simp only [Commit.onBatch]
    split <;> exact hc
  | giveUp => simp [Commit.onBatch, ProcessChunk.failBatch, BatchStatus.terminal]
  | exhausted => simp [Commit.onBatch, CheckCompletion.failBatch, BatchStatus.terminal]
  | finalize => simp [Commit.onBatch, Finalize.complete, BatchStatus.terminal]
  | cancel =>
    simp only [Commit.onBatch, Batch.flush_current, cancelBatch]
    split
    · exact hc
    · simp [BatchStatus.terminal]
  | retry | checked | webhook => simpa [Commit.onBatch, DeliverWebhook.attempt] using hc
  | cancelRelease | success | requeue | reclaim => exact hc

/-- Only finalize_batch completes a batch, and it sets both keys. -/
theorem Transaction.completed {db : Db} {commit : Commit} (h : Transaction env now db commit)
    (hc : db.batch.status = .completed →
      db.batch.resultsKey ≠ none ∧ db.batch.manifestKey ≠ none)
    (hs : (commit.onBatch db.batch).status = .completed) :
    (commit.onBatch db.batch).resultsKey ≠ none ∧
      (commit.onBatch db.batch).manifestKey ≠ none := by
  cases h with
  | orchestrate => simp [Commit.onBatch, Orchestrate.run] at hs
  | giveUp => simp [Commit.onBatch, ProcessChunk.failBatch] at hs
  | exhausted => simp [Commit.onBatch, CheckCompletion.failBatch] at hs
  | finalize => simp [Commit.onBatch, Finalize.complete]
  | lease =>
    simp only [Commit.onBatch] at hs ⊢
    split_ifs at hs ⊢ <;> exact hc hs
  | cancel =>
    simp only [Commit.onBatch, Batch.flush_current, cancelBatch] at hs ⊢
    split_ifs at hs ⊢
    exact hc hs
  | retry | checked | webhook =>
    simp only [Commit.onBatch, Batch.flush_current, DeliverWebhook.attempt] at hs ⊢
    exact hc hs
  | cancelRelease | success | requeue | reclaim => exact hc hs

theorem Db.Sound.transaction {db : Db} {commit : Commit} (hd : db.Sound env)
    (h : Transaction env now db commit) : (commit.apply db).Sound env where
  leased := by
    intro c hm
    obtain ⟨i, hi⟩ := List.getElem?_of_mem hm
    rcases h.row_origin hi with ⟨row, hrow, hstep⟩ | ⟨-, entry, -, rfl⟩
    · exact hstep.leased (hd.leased row (List.mem_of_getElem? hrow))
    · simp [BatchChunk.ofPlan]
  failed := by
    intro c hm hs
    obtain ⟨i, hi⟩ := List.getElem?_of_mem hm
    rcases h.row_origin hi with ⟨row, hrow, hstep⟩ | ⟨-, entry, -, rfl⟩
    · rcases hstep.failed hs with rfl | ⟨hspent, exc, batch, batch', rfl⟩
      · obtain ⟨hspent, hended⟩ := hd.failed _ (List.mem_of_getElem? hrow) hs
        exact ⟨hspent, h.terminal hended⟩
      · have hnew := Commit.getElem?_apply_of_row hrow
          (.failure i row (row.fail env exc) batch batch')
        rw [hi, Option.some.injEq, Commit.onRow, if_pos rfl, BatchChunk.flush_current] at hnew
        exact ⟨hspent, h.terminal_of_failure (hnew ▸ hs)⟩
    · cases hs
  completedAt := h.completedAt hd.completedAt
  completed := h.completed hd.completed

theorem sound_of_reach (h : (workers env).Reach Atomic (created env now) w) :
    w.shared.db.Sound env := by
  refine atomic_invariant h ⟨?_, ?_, ?_, ?_⟩ fun s commit _ hd ht => hd.transaction ht
  all_goals simp [created, BatchStatus.terminal]

/-! ## The objects -/

/-- A job that is past its put has an object. -/
def Frame.Stored (store : Store) : Frame → Prop
  | .processChunk i _ (.body _ pc) => match pc with
    | .written .. | .loaded .. | .flushed .. | .recomputed .. | .succeeded =>
      store.rows (.chunk i) ≠ none
    | _ => True
  | _ => True

theorem Put.rows_ne_none {store : Store} {key : ObjectKey} (h : store.rows key ≠ none)
    (put : Put) : (put.apply store).rows key ≠ none := by
  cases put with
  | rows key' content =>
    simp only [apply]
    split
    · simp
    · exact h
  | manifest => exact h

theorem Frame.Stored.put {store : Store} (h : frame.Stored store) (put : Put) :
    frame.Stored (put.apply store) := by
  cases frame with
  | processChunk i deferBy pc =>
    cases pc with
    | body chunk pc =>
      cases pc <;> first | trivial | exact put.rows_ne_none h
    | _ => trivial
  | _ => trivial

theorem Frame.Stored.frames {c : Choice} {e : Effect Frame} (hf : frame.Stored s.store)
    (h : frame.step env s c = some e) : ∀ f ∈ e.frames, f.Stored (e.shared s).store := by
  intro f hm
  cases f with
  | processChunk i deferBy pc =>
    have kept {f : Frame} (hs : f.Stored s.store) : f.Stored (e.shared s).store := by
      rcases write_cases h with ⟨-, hsh⟩ | ⟨commit, -, -, hsh⟩ | ⟨put, -, -, hsh⟩ <;> rw [hsh]
      · exact hs
      · exact hs
      · exact hs.put put
    obtain ⟨-, rfl, -⟩ | ⟨pc₀, rfl, hgoes⟩ := processChunk_of_step h hm
    · trivial
    · generalize hcommit : e.commit = commit at hgoes
      cases hgoes with
      | @body chunk pc pc' e₀ h₀ hpc =>
        have hbody := ProcessChunk.Body.goes_of_step h₀ hpc
        generalize e₀.commit = commit, e₀.put = put at hbody
        cases hbody with
        | read | cancel | gather | loadCancelled => trivial
        | write =>
          cases h₀
          obtain rfl := Option.some.inj h
          simp [Frame.Stored, Effect.shared, Effect.map, Put.apply]
        | load | flush | recompute | succeed => exact kept hf
      | grant | lease | look | reply | raise | handler => trivial
  | _ => trivial

/-- Every succeeded row has an object. -/
def Objects (s : Shared) : Prop :=
  ∀ (i : Nat) (row : BatchChunk), s.db.chunks[i]? = some row → row.status = .succeeded →
    s.store.rows (.chunk i) ≠ none

theorem Objects.commit {commit : Commit} (h : Objects s) (hk : Commits env s frame commit)
    (ht : Transaction env s.now s.db commit) (hf : frame.Stored s.store) :
    Objects { s with db := commit.apply s.db } := by
  intro i row hrow hs
  rcases ht.row_origin hrow with ⟨row₀, hrow₀, hstep⟩ | ⟨-, entry, -, rfl⟩
  · rcases hstep.succeeded hs with rfl | ⟨ok, fail, n, -, rfl, rfl⟩
    · exact h i _ hrow₀ hs
    · cases hk
      exact hf
  · cases hs

theorem objects_of_reach (h : (workers env).Reach Atomic (created env now) w) :
    Objects w.shared := by
  have hmod : (workers env).Modular
      (fun v m => Atomic v m ∧ (workers env).Reach Atomic (created env now) v) Objects
      (fun s f => f.Stored s.store) := by
    refine modular_of_steps ?_ ?_ ?_ ?_
    · intro v i c frame e hobjects hpool hok hk he
      have hm := List.mem_of_getElem? hk
      refine ⟨?_, (hpool frame hm).frames he⟩
      rcases shared_cases he with hsh | ⟨commit, hc, hsh⟩ | ⟨put, -, hsh⟩ <;> rw [hsh]
      · exact hobjects
      · exact hobjects.commit hc (hc.transaction ((ok_of_reach hok.2).2 frame hm)
          (snapshot_of_reach hok.2 frame hm)) (hpool frame hm)
      · exact fun i row hrow hs => put.rows_ne_none (hobjects i row hrow hs)
    · intro v i c frame e f _ _ _ _ he _ hf
      rcases shared_cases he with hsh | ⟨commit, -, hsh⟩ | ⟨put, -, hsh⟩ <;> rw [hsh]
      · exact hf
      · exact hf
      · exact hf.put put
    · intro v job _
      trivial
    · intro s seconds hobjects
      exact ⟨hobjects, fun f hf => hf⟩
  refine (hmod.reach ?_ ?_ (h.and fun v hv => hv)).1
  all_goals simp [created, Objects, Frame.Stored]

/-! ## Every serial run -/

theorem represented_of_reach (h : (workers env).Reach Atomic (created env now) w) :
    Represented env w.shared := by
  have hv := valid_of_reach h
  have hd := sound_of_reach h
  have ended : w.shared.db.batch.status.terminal = true ↔ w.shared.db.batch.status = .completed ∨
      w.shared.db.batch.status = .failed ∨ w.shared.db.batch.status = .cancelled := by
    cases w.shared.db.batch.status <;> simp [BatchStatus.terminal]
  refine ⟨?_, hd.leased, fun c hm hs => ?_, fun c hm hs => ?_, hd.completedAt.trans ended,
    hd.completed⟩
  · rcases hv.planned with he | hp
    · exact .inl he
    · unfold Env.plan at hp
      split at hp
      · exact .inr (hp ▸ ‹_›)
      · exact .inl (List.map_eq_nil_iff.mp hp)
  · have hrow := hv.getElem?_of_mem hm
    exact ⟨by rw [hv.key_of_succeeded hm hs]; rfl, objects_of_reach h _ c hrow hs⟩
  · obtain ⟨hspent, hended⟩ := hd.failed c hm hs
    refine ⟨hspent, ?_, ?_⟩ <;> intro hb <;> simp [hb, BatchStatus.terminal] at hended

theorem represented_of_reach_twoPrompts : ∃ w,
    (workers (twoPrompts 1 5)).Reach Atomic (created (twoPrompts 1 5) 0) w ∧
    w.shared.db.batch.status = .completed ∧ Represented (twoPrompts 1 5) w.shared := by
  have hrun : ((workers (twoPrompts 1 5)).run Atomic (created (twoPrompts 1 5) 0)
      completedRun).map (·.shared.db.batch.status) = some .completed := by decide +kernel
  obtain ⟨w, hw, hc⟩ := Option.map_eq_some_iff.mp hrun
  exact ⟨w, .of_run hw, hc, represented_of_reach (.of_run hw)⟩

end BatchInference
