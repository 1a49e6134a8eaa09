import BatchInference.Workers.Progress

/-!
# One worker for each chunk

Each chunk is leased once at most; the statements of the jobs interleave at will. A chunk
then has one worker that has not recorded it yet, its row waits for this worker, and what the
worker has loaded of the row stays current.
-/

namespace BatchInference

open JobPool System

variable {env : Env} {now : Int} {s : Shared} {frame : Frame} {c : Choice} {e : Effect Frame}
  {v v' w : World Shared Frame} {m : Moves}

/-- A chunk that is leased has not been leased before: each chunk has one worker. -/
def FirstLease (env : Env) (w : World Shared Frame) (m : Moves) : Prop :=
  ∀ i ∈ (commitOf env w m).bind Commit.leases, ∀ row ∈ w.shared.db.chunks[i]?, row.attempts = 0

instance : DecidableRel (FirstLease env) := fun w m =>
  inferInstanceAs <| Decidable <| ∀ i ∈ (commitOf env w m).bind Commit.leases,
    ∀ row ∈ w.shared.db.chunks[i]?, row.attempts = 0

theorem FirstLease.attempts (h : FirstLease env v m) (hcommit : commitOf env v m = e.commit) :
    ∀ i ∈ e.commit.bind Commit.leases, ∀ row ∈ v.shared.db.chunks[i]?, row.attempts = 0 := by
  rw [← hcommit]
  exact h

/-! ## Workers -/

/-- The chunk of a worker that has not recorded it yet. -/
def Frame.unrecorded : Frame → Option Nat
  | .processChunk i _ (.body _ pc) => match pc with
    | .succeeded => none
    | _ => some i
  | _ => none

@[simp] theorem Frame.unrecorded_queued (job : Job) : (queued job).unrecorded = none := rfl

theorem Commits.kept {commit : Commit} (h : Commits env s frame commit) {i : Nat}
    (hi : frame.unrecorded ≠ some i) (row : BatchChunk) : row.Kept (commit.onRow i row) := by
  rcases h.row_cases i row with hr | ⟨deferBy, chunk, loaded, ok, fail, n, rfl, -⟩
  · exact hr
  · exact absurd rfl hi

theorem Frame.exists_of_unrecorded {f : Frame} {i : Nat} (h : f.unrecorded = some i) :
    ∃ deferBy chunk pc, f = .processChunk i deferBy (.body chunk pc) := by
  cases f with
  | processChunk j deferBy pc =>
    cases pc with
    | body chunk pc =>
      have : j = i := by cases pc <;> cases h <;> rfl
      exact ⟨deferBy, chunk, pc, by rw [this]⟩
    | _ => cases h
  | _ => cases h

/-- A worker was there before the step, or has got the lease now. -/
theorem unrecorded_of_step (h : frame.step env s c = some e) {f : Frame} (hm : f ∈ e.frames)
    {i : Nat} (hi : f.unrecorded = some i) :
    frame.unrecorded = some i ∨ i ∈ e.commit.bind Commit.leases := by
  obtain ⟨deferBy, chunk, pc, rfl⟩ := Frame.exists_of_unrecorded hi
  obtain ⟨-, hpc, -⟩ | ⟨pc₀, rfl, hgoes⟩ := processChunk_of_step h hm
  · cases hpc
  · generalize hc : e.commit = commit at hgoes
    cases hgoes with
    | lease => exact .inr rfl
    | look | reply => exact .inl rfl
    | @body _ b _ e₀ h₀ hpc =>
      left
      cases b with
      | succeeded => cases h₀; cases hpc
      | _ => rfl

/-- The row of a worker's chunk: leased before, not recorded yet. -/
def Unrecorded (db : Db) (i : Nat) : Prop :=
  ∃ row, db.chunks[i]? = some row ∧ row.status ≠ .succeeded ∧ row.attempts ≠ 0

def Frame.Alone (db : Db) : Frame → Prop
  | .processChunk i _ (.body _ pc) => match pc with
    | .succeeded => True
    | .loaded row _ _ | .flushed row _ _ | .recomputed row _ _ _ =>
      Unrecorded db i ∧ row.status ≠ .succeeded ∧ ∀ row', db.chunks[i]? = some row' →
        row'.okCount = row.okCount ∧ row'.failCount = row.failCount
    | _ => Unrecorded db i
  | _ => True

theorem Frame.Alone.unrecorded {f : Frame} {db : Db} (h : f.Alone db) {i : Nat}
    (hi : f.unrecorded = some i) : Unrecorded db i := by
  obtain ⟨deferBy, chunk, pc, rfl⟩ := Frame.exists_of_unrecorded hi
  cases pc with
  | succeeded => cases hi
  | loaded | flushed | recomputed => exact h.1
  | _ => exact h

/-- The other jobs leave a worker's row to it. -/
theorem Frame.Alone.commit {f : Frame} {commit : Commit} (h : f.Alone s.db)
    (hc : Commits env s frame commit)
    (hne : ∀ i, f.unrecorded = some i → frame.unrecorded ≠ some i) :
    f.Alone (commit.apply s.db) := by
  have unrecorded {i : Nat} (hi : f.unrecorded = some i) (hu : Unrecorded s.db i) :
      Unrecorded (commit.apply s.db) i := by
    obtain ⟨row, hrow, hs, ha⟩ := hu
    have hk := hc.kept (hne i hi) row
    exact ⟨_, Commit.getElem?_apply_of_row hrow commit, mt hk.status hs, hk.attempts ha⟩
  cases f with
  | processChunk i deferBy pc =>
    cases pc with
    | body chunk pc =>
      cases pc with
      | succeeded => trivial
      | loaded row | flushed row | recomputed row =>
        obtain ⟨hu, hs, hcounts⟩ := h
        refine ⟨unrecorded rfl hu, hs, fun row' hrow' => ?_⟩
        obtain ⟨row₀, hrow₀, -⟩ := hu
        have hk := hc.kept (hne i rfl) row₀
        obtain rfl := Option.some.inj
          (hrow'.symm.trans (Commit.getElem?_apply_of_row hrow₀ commit))
        exact ⟨hk.okCount.trans (hcounts _ hrow₀).1, hk.failCount.trans (hcounts _ hrow₀).2⟩
      | _ => exact unrecorded rfl h
    | _ => trivial
  | _ => trivial

/-- The worker's own steps. -/
theorem ProcessChunk.alone_of_body {i deferBy : Nat} {chunk : BatchChunk} {pc pc' : Body}
    {e : Effect Body} (h : pc.step env s i chunk = some e) (hpc : e.next = some pc')
    (hf : Frame.Alone s.db (.processChunk i deferBy (.body chunk pc))) :
    Frame.Alone (e.commit.elim s.db (·.apply s.db))
      (.processChunk i deferBy (.body chunk pc')) := by
  have hgoes := Body.goes_of_step h hpc
  generalize e.commit = commit, e.put = put at hgoes ⊢
  cases hgoes with
  | load hrow =>
    obtain ⟨row', hrow', hs, ha⟩ := id hf
    obtain rfl := Option.some.inj (hrow.symm.trans hrow')
    refine ⟨hf, hs, fun row' hrow' => ?_⟩
    obtain rfl := Option.some.inj (hrow.symm.trans hrow')
    exact ⟨rfl, rfl⟩
  | succeed => trivial
  | _ => exact hf

theorem Frame.Alone.frames (hf : frame.Alone s.db) (hok : frame.Ok env s)
    (h : frame.step env s c = some e)
    (hlease : ∀ i ∈ e.commit.bind Commit.leases, ∀ row ∈ s.db.chunks[i]?, row.attempts = 0)
    (hrows : ∀ row ∈ s.db.chunks, row.status = .succeeded → row.attempts ≠ 0) :
    ∀ f ∈ e.frames, f.Alone (e.shared s).db := by
  intro f hm
  cases f with
  | processChunk i deferBy pc =>
    cases pc with
    | body chunk pc =>
      obtain ⟨-, hpc, -⟩ | ⟨pc₀, rfl, hgoes⟩ := processChunk_of_step h hm
      · cases hpc
      · unfold Effect.shared
        generalize e.commit = commit at hgoes hlease
        cases hgoes with
        | @lease loaded t =>
          obtain ⟨row, hrow, -, -⟩ := hok
          have ha : row.attempts = 0 := hlease i rfl row hrow
          have hs : row.status ≠ .succeeded := fun hs => hrows row (List.mem_of_getElem? hrow) hs ha
          have hcommits : Commits env s (.processChunk i deferBy (.leased loaded t))
            (.lease i loaded (loaded.lease env t)) := .lease
          have hk := hcommits.kept (i := i) nofun row
          refine ⟨_, Commit.getElem?_apply_of_row hrow _, mt hk.status hs, ?_⟩
          simp [Commit.onRow, BatchChunk.flush, column, BatchChunk.lease]
        | body h₀ hpc => exact ProcessChunk.alone_of_body h₀ hpc hf
        | look | reply => exact hf
    | _ => trivial
  | _ => trivial

/-! ## One worker for each chunk -/

/-- The row that a success makes of `row`. -/
structure Recorded (ok fail : Nat) (row row' : BatchChunk) : Prop where
  status : row'.status = .succeeded
  okCount : row'.okCount = ok
  failCount : row'.failCount = fail
  attempts : row'.attempts = row.attempts
  place : row'.place = row.place

theorem recorded_flush {loaded row : BatchChunk} (hs : loaded.status ≠ .succeeded)
    (hok : row.okCount = loaded.okCount) (hfail : row.failCount = loaded.failCount)
    (i ok fail : Nat) : Recorded ok fail row (loaded.flush (loaded.succeed i ok fail) row) where
  status := column_of_ne hs.symm _
  okCount := by simp [BatchChunk.flush, BatchChunk.succeed, hok]
  failCount := by simp [BatchChunk.flush, BatchChunk.succeed, hfail]
  attempts := by simp [BatchChunk.flush, BatchChunk.succeed]
  place := BatchChunk.place_flush rfl row

structure Single (w : World Shared Frame) : Prop where
  nodup : (w.pool.filterMap Frame.unrecorded).Nodup
  jobs : ∀ f ∈ w.pool, f.Alone w.shared.db
  leased : ∀ row ∈ w.shared.db.chunks, row.status = .succeeded → row.attempts ≠ 0
  splits : SplitsExact w.shared.db.chunks

theorem Single.others {k : Nat} (h : Single v) (hk : v.pool[k]? = some frame) {f : Frame}
    (hf : f ∈ others v k) {i : Nat} (hi : f.unrecorded = some i) :
    frame.unrecorded ≠ some i := by
  intro hframe
  have hnodup := ((perm_others hk).filterMap Frame.unrecorded).nodup_iff.mp h.nodup
  rw [List.filterMap_cons_some hframe, List.nodup_cons] at hnodup
  exact hnodup.1 (List.mem_filterMap.mpr ⟨f, hf, hi⟩)

theorem Effect.filterMap_unrecorded (e : Effect Frame) :
    e.frames.filterMap Frame.unrecorded = (e.next.bind Frame.unrecorded).toList := by
  have hjobs : (e.jobs.map Frame.queued).filterMap Frame.unrecorded = [] := by
    simp [List.filterMap_eq_nil_iff]
  rw [frames, List.filterMap_append, hjobs, List.append_nil]
  cases hn : e.next with
  | none => rfl
  | some f => cases hf : f.unrecorded <;> simp [hf]

/-- The rows after a commit of a run in which each chunk has one worker. -/
theorem Single.rows {commit : Commit} (h : Single v) (hc : Commits env v.shared frame commit)
    (hok : frame.Ok env v.shared) (hf : frame.Alone v.shared.db) {row : BatchChunk}
    (hm : row ∈ (commit.apply v.shared.db).chunks) (hs : row.status = .succeeded) :
    row.attempts ≠ 0 ∧ ((row.okCount + row.failCount : Nat) : Int) = row.limit := by
  obtain ⟨i, hi⟩ := List.getElem?_of_mem hm
  rcases hc.row_origin hok hi with ⟨row₀, hrow₀, rfl⟩ | ⟨-, entry, -, rfl⟩
  · have hm₀ := List.mem_of_getElem? hrow₀
    have hplace := hc.place_onRow i row₀
    rcases hc.row_cases i row₀ with hk | ⟨deferBy, chunk, loaded, ok, fail, n, rfl, hr⟩
    · have hs₀ := hk.status hs
      refine ⟨hk.attempts (h.leased row₀ hm₀ hs₀), ?_⟩
      rw [hk.okCount, hk.failCount, h.splits row₀ hm₀ hs₀]
      exact (congrArg (·.2.2) hplace).symm
    · obtain ⟨hu, hloaded, hcounts⟩ := hf
      obtain ⟨hcount₀, hcount₁⟩ := hcounts row₀ hrow₀
      have hrec := recorded_flush hloaded hcount₀ hcount₁ i ok fail
      rw [← hr] at hrec
      refine ⟨hrec.attempts.trans_ne ?_, ?_⟩
      · obtain ⟨row, hrow, -, ha⟩ := hu
        obtain rfl := Option.some.inj (hrow.symm.trans hrow₀)
        exact ha
      · rw [hrec.okCount, hrec.failCount]
        exact (hok.2.1.trans (hok.1.limit_eq hrow₀).symm).trans (congrArg (·.2.2) hplace).symm
  · cases hs

theorem Single.fire (hok : ∀ f ∈ v.pool, f.Ok env v.shared) (h : Single v)
    (hm : FirstLease env v m) (hf : (workers env).fire v m = some v') : Single v' := by
  rcases fire_cases hf with ⟨jobs, -, hdb, -, -, hpool⟩ |
    ⟨k, c, frame, e, rfl, hk, he, ⟨hcommit, -⟩, hshared, hpool⟩
  · refine ⟨?_, ?_, hdb ▸ h.leased, hdb ▸ h.splits⟩
    · have hjobs : (jobs.map Frame.queued).filterMap Frame.unrecorded = [] := by
        simp [List.filterMap_eq_nil_iff]
      rw [hpool, List.filterMap_append, hjobs, List.append_nil]
      exact h.nodup
    · exact forall_pool_of_queued hpool (hdb ▸ h.jobs) fun _ => trivial
  · have hmem := List.mem_of_getElem? hk
    have hlease := hm.attempts hcommit
    have hrows : ∀ row ∈ v'.shared.db.chunks, row.status = .succeeded →
        row.attempts ≠ 0 ∧ ((row.okCount + row.failCount : Nat) : Int) = row.limit := by
      intro row hrow hs
      rw [hshared] at hrow
      rcases db_cases he with hdb | ⟨commit, hc, hdb⟩
      · rw [hdb] at hrow
        exact ⟨h.leased row hrow hs, h.splits row hrow hs⟩
      · exact h.rows hc (hok frame hmem) (h.jobs frame hmem) (hdb ▸ hrow) hs
    refine ⟨?_, fun f hf => ?_, fun row hm hs => (hrows row hm hs).1,
      fun row hm hs => (hrows row hm hs).2⟩
    · -- the worker that has moved stays one, or its chunk had none
      rw [hpool, List.filterMap_append, Effect.filterMap_unrecorded, List.nodup_append]
      refine ⟨((List.eraseIdx_sublist _ _).filterMap _).nodup h.nodup, ?_, ?_⟩
      · cases e.next.bind Frame.unrecorded <;> simp
      · rintro i hi _ hi' rfl
        obtain ⟨f, hf, hfi⟩ := List.mem_filterMap.mp hi
        obtain ⟨f', hf', hfi'⟩ := Option.bind_eq_some_iff.mp (Option.mem_toList.mp hi')
        have hframes : f' ∈ e.frames := by simpa [Effect.frames] using .inl hf'
        rcases unrecorded_of_step he hframes hfi' with hi | hi
        · exact h.others hk hf hfi hi
        · obtain ⟨row, hrow, -, ha⟩ := (h.jobs f (mem_of_mem_others hf)).unrecorded hfi
          exact ha (hlease i hi row hrow)
    · rw [hshared]
      rcases List.mem_append.mp (hpool ▸ hf) with hf | hf
      · have hjob := h.jobs f (mem_of_mem_others hf)
        rcases db_cases he with hdb | ⟨commit, hc, hdb⟩
        · exact hdb ▸ hjob
        · exact hdb ▸ hjob.commit hc fun i => h.others hk hf
      · exact (h.jobs frame hmem).frames (hok frame hmem) he hlease h.leased f hf

theorem single_of_reach (h : (workers env).Reach (FirstLease env) (created env now) w) :
    Single w := by
  refine Reach.invariant (P := Single) (fun _ hv => (ok_of_reach hv).2) ⟨?_, ?_, ?_, ?_⟩
    (fun v m v' hok hs hm hf => hs.fire hok hm hf) h
  all_goals simp [created, List.filterMap_cons, Frame.Alone, SplitsExact]

end BatchInference
