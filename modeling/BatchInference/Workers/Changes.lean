import BatchInference.Workers.Steps

/-!
# What a commit changes

Only a success makes a row succeeded or writes its key and counts, only orchestrate_batch
adds rows, and only finalize_batch completes the batch. A commit leaves the rest as it is,
whatever else has been committed since its transaction loaded the rows.
-/

namespace BatchInference

variable {env : Env} {s : Shared} {frame : Frame}

/-- What a write other than that of a success leaves of a row. -/
structure BatchChunk.Kept (row row' : BatchChunk) : Prop where
  resultKey : row'.resultKey = row.resultKey
  okCount : row'.okCount = row.okCount
  failCount : row'.failCount = row.failCount
  attempts : row.attempts ≠ 0 → row'.attempts ≠ 0
  status : row'.status = .succeeded → row.status = .succeeded

namespace BatchChunk.Kept

theorem refl (row : BatchChunk) : row.Kept row := ⟨rfl, rfl, rfl, id, id⟩

theorem reclaim (now : Int) (row : BatchChunk) : row.Kept (row.reclaim now) := by
  rcases row.reclaim_eq_or now with hr | ⟨-, hr⟩
  · rw [hr]
    exact refl row
  · rw [hr]
    exact ⟨rfl, rfl, rfl, id, nofun⟩

theorem flush {loaded new : BatchChunk} (hkey : new.resultKey = loaded.resultKey)
    (hok : new.okCount = loaded.okCount) (hfail : new.failCount = loaded.failCount)
    (hattempts : new.attempts = loaded.attempts ∨ new.attempts ≠ 0)
    (hs : new.status ≠ .succeeded) (row : BatchChunk) : row.Kept (loaded.flush new row) := by
  refine ⟨by simp [BatchChunk.flush, hkey], by simp [BatchChunk.flush, hok],
    by simp [BatchChunk.flush, hfail], fun h => ?_, fun h => ?_⟩
  · rcases hattempts with ha | ha
    · simpa [BatchChunk.flush, ha] using h
    · rcases column_eq_or loaded.attempts new.attempts row.attempts with hc | hc
      · exact hc.trans_ne h
      · exact hc.trans_ne ha
  · rcases column_eq_or loaded.status new.status row.status with hc | hc
    · exact hc ▸ h
    · exact absurd (hc ▸ h) hs

theorem ite {row row' : BatchChunk} {p : Prop} [Decidable p] (h : row.Kept row') :
    row.Kept (if p then row' else row) := by
  split
  · exact h
  · exact refl row

end BatchChunk.Kept

namespace Commits

variable {commit : Commit}

theorem inserted_cases (h : Commits env s frame commit) : commit.inserted = [] ∨
    ∃ loaded startedAt rows now, s.db.chunks = [] ∧
      frame = .orchestrateBatch (.reclaimed loaded startedAt rows true now) ∧
      commit = .orchestrate loaded.row (Orchestrate.run startedAt loaded.row) rows now := by
  cases h with
  | @orchestrate loaded startedAt now rows fresh unique =>
    cases fresh with
    | false => exact .inl rfl
    | true => exact .inr ⟨loaded, startedAt, rows, now, unique rfl, rfl, rfl⟩
  | _ => exact .inl rfl

/-- Only a success makes a row succeeded, gives it a key or writes its counts. -/
theorem row_cases (h : Commits env s frame commit) (i : Nat) (row : BatchChunk) :
    row.Kept (commit.onRow i row) ∨
    ∃ deferBy chunk loaded ok fail counters,
      frame = .processChunk i deferBy (.body chunk (.recomputed loaded ok fail counters)) ∧
      commit.onRow i row = loaded.flush (loaded.succeed i ok fail) row := by
  cases h with
  | orchestrate | exhausted | checked | reclaim => exact .inl (.reclaim _ row)
  | finalize | webhook | cancel => exact .inl (.refl row)
  | requeue =>
    left
    simp only [Commit.onRow]
    split
    · exact .flush (by rfl) (by rfl) (by rfl) (by simp [BatchChunk.unlease])
        (by simp [BatchChunk.unlease]) row
    · exact .refl row
  | @success j deferBy ok fail chunk loaded counters =>
    by_cases hj : j = i
    · subst hj
      exact .inr ⟨deferBy, chunk, loaded, ok, fail, counters, rfl, if_pos rfl⟩
    · left
      simp only [Commit.onRow, if_neg hj]
      exact .refl row
  | lease | cancelRelease =>
    left
    refine .ite (.flush (by rfl) (by rfl) (by rfl) ?_ ?_ row)
    all_goals simp [BatchChunk.lease, BatchChunk.cancelRelease]
  | giveUp | retry =>
    left
    refine .ite (.flush (by rfl) (by rfl) (by rfl) (.inl (by rfl)) ?_ row)
    exact BatchChunk.status_fail_ne _ _ _

theorem place_onRow (h : Commits env s frame commit) (i : Nat) (row : BatchChunk) :
    (commit.onRow i row).place = row.place := by
  cases h with
  | orchestrate | exhausted | checked | reclaim => exact row.place_reclaim _
  | finalize | webhook | cancel => rfl
  | requeue =>
    simp only [Commit.onRow]
    split
    · exact BatchChunk.place_flush rfl row
    · rfl
  | success | lease | cancelRelease | giveUp | retry =>
    simp only [Commit.onRow]
    split
    · exact BatchChunk.place_flush rfl row
    · rfl

theorem map_place_apply (h : Commits env s frame commit) (db : Db) :
    (commit.apply db).chunks.map (·.place) = (db.chunks ++ commit.inserted).map (·.place) := by
  refine List.ext_getElem? fun i => ?_
  simp only [List.getElem?_map, Commit.getElem?_chunks_apply, Option.map_map,
    Function.comp_def, h.place_onRow]

/-- Only a success writes the counters of items. -/
theorem counters_cases (h : Commits env s frame commit) (batch : Batch) :
    ((commit.onBatch batch).completedItems = batch.completedItems ∧
      (commit.onBatch batch).failedItems = batch.failedItems) ∨
    ∃ i deferBy chunk row ok fail n,
      frame = .processChunk i deferBy (.body chunk (.recomputed row ok fail n)) ∧
      (commit.onBatch batch).completedItems = n.completedItems ∧
      (commit.onBatch batch).failedItems = n.failedItems := by
  cases h with
  | success => exact .inr ⟨_, _, _, _, _, _, _, rfl, rfl, rfl⟩
  | lease =>
    left
    simp only [Commit.onBatch]
    split <;> exact ⟨rfl, rfl⟩
  | cancel =>
    left
    simp only [Commit.onBatch, cancelBatch]
    split <;> simp [Batch.flush]
  | cancelRelease | requeue | reclaim => exact .inl ⟨rfl, rfl⟩
  | _ =>
    left
    simp [Commit.onBatch, Batch.flush, Orchestrate.run, ProcessChunk.failBatch,
      CheckCompletion.failBatch, Finalize.complete, DeliverWebhook.attempt]

/-- Only finalize_batch completes a batch or gives it a results key. -/
theorem batch_cases (h : Commits env s frame commit) (batch : Batch) :
    ((commit.onBatch batch).resultsKey = batch.resultsKey ∧
      ((commit.onBatch batch).status = .completed → batch.status = .completed)) ∨
    ∃ snap, frame = .finalizeBatch (.committing snap) ∧
      commit.onBatch batch = snap.batch.flush (Finalize.complete s.now snap.batch) batch := by
  have flushed {loaded new : Batch} (hk : new.resultsKey = loaded.resultsKey)
      (hs : new.status = loaded.status ∨ new.status ≠ .completed) :
      (loaded.flush new batch).resultsKey = batch.resultsKey ∧
        ((loaded.flush new batch).status = .completed → batch.status = .completed) := by
    refine ⟨by simp [Batch.flush, hk], fun h => ?_⟩
    rcases hs with hs | hs
    · simpa [Batch.flush, hs] using h
    · rcases column_eq_or loaded.status new.status batch.status with hc | hc
      · exact hc ▸ h
      · exact absurd (hc ▸ h) hs
  cases h with
  | finalize => exact .inr ⟨_, rfl, rfl⟩
  | orchestrate | exhausted | giveUp => exact .inl (flushed rfl (.inr (by simp [Orchestrate.run,
      CheckCompletion.failBatch, ProcessChunk.failBatch])))
  | checked | webhook | retry => exact .inl (flushed rfl (.inl rfl))
  | @cancel loaded =>
    left
    simp only [Commit.onBatch, cancelBatch]
    split
    · exact flushed rfl (.inl rfl)
    · exact flushed rfl (.inr (by simp))
  | lease =>
    left
    simp only [Commit.onBatch]
    split <;> exact ⟨rfl, id⟩
  | success | cancelRelease | requeue | reclaim => exact .inl ⟨rfl, id⟩

end Commits

end BatchInference
