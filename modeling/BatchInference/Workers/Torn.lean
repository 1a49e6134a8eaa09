import BatchInference.Workers.Invariant
import BatchInference.Workers.Runs

/-!
# Torn rows

A flush leaves out the columns whose new value is the loaded one. Where another transaction
has changed such a column since the load, the row that is committed has some columns from
each. This is the only way in which it happens, whatever the other transactions are.
-/

namespace BatchInference

open JobPool System

theorem column_eq_new_iff {α : Type} [DecidableEq α] (loaded new current : α) :
    column loaded new current = new ↔ (loaded = new → current = loaded) := by
  unfold column
  split
  · rename_i h
    simp [h]
  · rename_i h
    simp [Ne.symm h]

/-- The columns of a chunk's row that jobs assign. -/
inductive ChunkColumn where
  | status | resultKey | attempts | leasedUntil | error | okCount | failCount

namespace BatchChunk

/-- The rows have the same value in a column. -/
def Agrees (row row' : BatchChunk) : ChunkColumn → Prop
  | .status => row.status = row'.status
  | .resultKey => row.resultKey = row'.resultKey
  | .attempts => row.attempts = row'.attempts
  | .leasedUntil => row.leasedUntil = row'.leasedUntil
  | .error => row.error = row'.error
  | .okCount => row.okCount = row'.okCount
  | .failCount => row.failCount = row'.failCount

theorem flush_agrees_iff (loaded new current : BatchChunk) (c : ChunkColumn) :
    (loaded.flush new current).Agrees new c ↔
      (loaded.Agrees new c → current.Agrees loaded c) := by
  cases c <;> exact column_eq_new_iff _ _ _

end BatchChunk

/-- The row that a transaction of process_chunk flushes, and the columns that it assigns. -/
structure ChunkWrite where
  chunkIndex : Nat
  loaded : BatchChunk
  new : BatchChunk
  assigned : List ChunkColumn

def Commit.chunkWrite : Commit → Option ChunkWrite
  | lease i loaded new => some ⟨i, loaded, new, [.status, .leasedUntil, .attempts]⟩
  | cancelRelease i loaded new => some ⟨i, loaded, new, [.status, .leasedUntil, .error]⟩
  | success i loaded new _ =>
    some ⟨i, loaded, new, [.status, .resultKey, .okCount, .failCount, .leasedUntil, .error]⟩
  | failure i loaded new _ _ => some ⟨i, loaded, new, [.error, .leasedUntil, .status]⟩
  | _ => none

theorem Commit.chunks_of_chunkWrite {commit : Commit} {write : ChunkWrite}
    (h : commit.chunkWrite = some write) (db : Db) :
    (commit.apply db).chunks[write.chunkIndex]? =
      db.chunks[write.chunkIndex]?.map (write.loaded.flush write.new) := by
  rw [Commit.getElem?_chunks_apply]
  cases commit with
  | lease | cancelRelease | success | failure =>
    cases h
    simp [inserted, onRow]
  | _ => cases h

/-- A row that a move commits has what its transaction has assigned. -/
def Unmixed (env : Env) (v : World Shared Frame) (m : Moves) (v' : World Shared Frame) : Prop :=
  ∀ write ∈ (commitOf env v m).bind (·.chunkWrite),
    ∀ row ∈ v'.shared.db.chunks[write.chunkIndex]?, ∀ c ∈ write.assigned, row.Agrees write.new c

/-- A chunk's row right after the move that commits it. -/
structure Untorn (env : Env) (v : World Shared Frame) (m : Moves) (v' : World Shared Frame) :
    Prop where
  lease : ∀ {i loaded new}, commitOf env v m = some (.lease i loaded new) →
    ∃ row, v'.shared.db.chunks[i]? = some row ∧ row.status = .leased ∧
      row.leasedUntil = new.leasedUntil
  success : ∀ {i loaded new counters},
    commitOf env v m = some (.success i loaded new counters) →
    ∃ row, v'.shared.db.chunks[i]? = some row ∧ row.status = .succeeded ∧
      row.leasedUntil = none ∧ ((row.okCount + row.failCount : Nat) : Int) = row.limit
  unmixed : Unmixed env v m v'

/-- Of the columns that a committing transaction assigns, those that it had loaded with the
very value have still got it. -/
def Undisturbed (env : Env) (v : World Shared Frame) (m : Moves) : Prop :=
  ∀ write ∈ (commitOf env v m).bind (·.chunkWrite),
    ∀ row ∈ v.shared.db.chunks[write.chunkIndex]?, ∀ c ∈ write.assigned,
      write.loaded.Agrees write.new c → row.Agrees write.loaded c

variable {env : Env} {ok : World Shared Frame → Moves → Prop} {now : Int}
  {v v' : World Shared Frame} {m : Moves}

theorem chunks_of_commitOf (hf : (workers env).fire v m = some v') {commit : Commit}
    (hc : commitOf env v m = some commit) {write : ChunkWrite}
    (hw : commit.chunkWrite = some write) :
    v'.shared.db.chunks[write.chunkIndex]? =
      v.shared.db.chunks[write.chunkIndex]?.map (write.loaded.flush write.new) := by
  rw [db_of_fire hf, hc, Option.elim_some, Commit.chunks_of_chunkWrite hw]

theorem unmixed_iff (hf : (workers env).fire v m = some v') :
    Unmixed env v m v' ↔ Undisturbed env v m := by
  refine forall₂_congr fun write hm => ?_
  obtain ⟨commit, hc, hw⟩ := Option.bind_eq_some_iff.mp hm
  rw [chunks_of_commitOf hf hc hw, Option.forall_mem_map]
  refine forall₂_congr fun row _ => forall₂_congr fun c _ => ?_
  exact BatchChunk.flush_agrees_iff write.loaded write.new row c

theorem Unmixed.row (h : Unmixed env v m v') (hf : (workers env).fire v m = some v')
    {commit : Commit} (hc : commitOf env v m = some commit) {write : ChunkWrite}
    (hw : commit.chunkWrite = some write) {row : BatchChunk}
    (hrow : v.shared.db.chunks[write.chunkIndex]? = some row) :
    v'.shared.db.chunks[write.chunkIndex]? = some (write.loaded.flush write.new row) ∧
      ∀ c ∈ write.assigned, (write.loaded.flush write.new row).Agrees write.new c := by
  have hrow' : v'.shared.db.chunks[write.chunkIndex]? =
      some (write.loaded.flush write.new row) := by
    rw [chunks_of_commitOf hf hc hw, hrow, Option.map_some]
  exact ⟨hrow', h write (Option.bind_eq_some_iff.mpr ⟨commit, hc, hw⟩) _ hrow'⟩

theorem untorn_iff (hr : (workers env).Reach ok (created env now) v)
    (hf : (workers env).fire v m = some v') : Untorn env v m v' ↔ Undisturbed env v m := by
  rw [← unmixed_iff hf]
  refine ⟨Untorn.unmixed, fun h => ⟨?_, ?_, h⟩⟩
  · intro i loaded new hc
    obtain ⟨frame, hm, hk⟩ := commits_of_commitOf hc
    cases hk with
    | lease =>
      obtain ⟨row, hrow, -⟩ := (ok_of_reach hr).2 _ hm
      obtain ⟨hrow', hall⟩ := h.row hf hc rfl hrow
      exact ⟨_, hrow', hall .status (by simp), hall .leasedUntil (by simp)⟩
  · intro i loaded new counters hc
    obtain ⟨frame, hm, hk⟩ := commits_of_commitOf hc
    cases hk with
    | @success i deferBy okCount failCount chunk loaded counters =>
      obtain ⟨hchunk, hcounts, row, hrow, -⟩ := (ok_of_reach hr).2 _ hm
      obtain ⟨hrow', hall⟩ := h.row hf hc rfl hrow
      have hok := hall .okCount (by simp)
      have hfail := hall .failCount (by simp)
      have hlimit : (loaded.flush (loaded.succeed i okCount failCount) row).limit = row.limit :=
        column_unchanged _ _
      refine ⟨_, hrow', hall .status (by simp), hall .leasedUntil (by simp), ?_⟩
      rw [hlimit, hchunk.limit_eq hrow, ← hcounts, hok, hfail]
      rfl

/-- Throughout a run, no commit tears a chunk's row if and only if, at each of them, the
columns that it leaves out are as loaded. -/
theorem rows_untorn_iff (env : Env) (now : Int) (ms : List Moves) :
    (workers env).Along (Untorn env) (created env now) ms ↔
      (workers env).Along (fun v m _ => Undisturbed env v m) (created env now) ms := by
  have hany : (workers env).Along (fun _ _ _ => True) (created env now) ms :=
    .of_forall fun _ _ _ => trivial
  refine hany.congr (Q := (workers env).Reach (fun _ _ => True) (created env now)) .refl ?_
  intro v m v' hr hok hf
  exact ⟨untorn_iff hr hf, fun _ => hr.step hok hf⟩

/-- The chunk is leased until 300, and at 301 there is another job for it. -/
def expiredRun : List Moves :=
  steps 0 7 ++ steps 1 2 ++ [.env (.tick 301), .env (.arrive (.processChunk 0 0))]

/-- That job loads the row, the cron job reclaims the lease, and the job commits its own:
the status, `leased` when loaded, is left as `pending`. -/
def reclaimedRun : List Moves :=
  expiredRun ++ [.env (.arrive .reclaimLeasesCron)] ++ steps 2 1 ++ steps 3 1 ++ steps 2 1

/-- Both jobs go through the chunk, one item is refused to the first of them, and it commits
while the other one has the row loaded. -/
def bothSucceedRun : List Moves :=
  expiredRun ++ steps 2 3 ++ steps 1 1 ++
    replied 2 0 true ++ replied 2 1 false ++ steps 2 1 ++
    steps 1 1 ++ replied 2 0 true ++ replied 2 1 true ++
    steps 2 3 ++ steps 1 1 ++ steps 2 4 ++ steps 1 1 ++ steps 2 1

/-- A lease is committed and the row is pending; a success is committed and the counts of its
two items add up to three. -/
theorem rows_torn :
    (∃ v v', (workers (twoPrompts 2 5)).Reach (fun _ _ => True) (created (twoPrompts 2 5) 0) v ∧
      (workers (twoPrompts 2 5)).fire v (.act 2 .next) = some v' ∧
      (((commitOf (twoPrompts 2 5) v (.act 2 .next)).bind (·.chunkWrite)).map fun write =>
          (write.new.status, write.new.leasedUntil),
        v'.shared.db.chunks.map fun c => (c.status, c.leasedUntil)) =
      (some (.leased, some 601), [(.pending, some 601)])) ∧
    ∃ v v', (workers (twoPrompts 2 5)).Reach (fun _ _ => True) (created (twoPrompts 2 5) 0) v ∧
      (workers (twoPrompts 2 5)).fire v (.act 2 .next) = some v' ∧
      (((commitOf (twoPrompts 2 5) v (.act 2 .next)).bind (·.chunkWrite)).map fun write =>
          (write.new.status, write.new.counts),
        v'.shared.db.chunks.map fun c => (c.counts, c.limit)) =
      (some (.succeeded, (2, 0)), [((2, 1), 2)]) :=
  ⟨Reach.of_run_fire _ reclaimedRun (.act 2 .next) (by decide +kernel),
    Reach.of_run_fire _ bothSucceedRun (.act 2 .next) (by decide +kernel)⟩

end BatchInference
