import BatchInference.Workers.Single

/-!
# Overlapping success transactions

A recompute leaves out the rows that other transactions have flushed and not committed, and
the last commit decides: where each chunk has one worker, the final counters are exact if and
only if some recompute ran when the rows of all the other chunks were committed.
-/

namespace BatchInference

open JobPool System

variable {env : Env} {now : Int} {s : Shared} {frame : Frame} {c : Choice} {e : Effect Frame}
  {v v' w : World Shared Frame} {m : Moves}

/-- The job recomputes, and the rows of all the other chunks are committed as succeeded. -/
def RecomputesLast (w : World Shared Frame) (m : Moves) : Prop :=
  ∃ k i deferBy chunk row ok fail, m = .act k .next ∧
    w.pool[k]? = some (.processChunk i deferBy (.body chunk (.flushed row ok fail))) ∧
    ∀ j c, j ≠ i → w.shared.db.chunks[j]? = some c → c.status = .succeeded

/-! ## Recomputes that miss a row -/

/-- What a success transaction sees of the rows: its own is flushed. -/
def ownView (db : Db) (i ok fail : Nat) (row : BatchChunk) : List BatchChunk :=
  db.chunks.modify i (row.flush (row.succeed i ok fail))

theorem getElem?_ownView (db : Db) (i ok fail : Nat) (row : BatchChunk) (j : Nat) :
    (ownView db i ok fail row)[j]? =
      (db.chunks[j]?).map fun c => if i = j then row.flush (row.succeed i ok fail) c else c := by
  rw [ownView, List.getElem?_modify]
  cases db.chunks[j]? <;> rfl

theorem map_place_ownView (db : Db) (i ok fail : Nat) (row : BatchChunk) :
    (ownView db i ok fail row).map (·.place) = db.chunks.map (·.place) := by
  refine List.ext_getElem? fun j => ?_
  rw [List.getElem?_map, List.getElem?_map, getElem?_ownView, Option.map_map]
  congr 1
  funext c
  simp only [Function.comp_apply]
  split
  · exact BatchChunk.place_flush rfl c
  · rfl

theorem recomputed_of_step {i deferBy ok fail : Nat} {chunk row : BatchChunk} {n : Counters}
    (h : frame.step env s c = some e)
    (hm : .processChunk i deferBy (.body chunk (.recomputed row ok fail n)) ∈ e.frames) :
    c = .next ∧ frame = .processChunk i deferBy (.body chunk (.flushed row ok fail)) ∧
      n = recomputeBatchCounters (ownView s.db i ok fail row) := by
  obtain ⟨-, hpc, -⟩ | ⟨pc₀, rfl, hgoes⟩ := processChunk_of_step h hm
  · cases hpc
  · generalize e.commit = commit at hgoes
    cases hgoes with
    | @body _ _ _ e₀ h₀ hpc =>
      have hbody := ProcessChunk.Body.goes_of_step h₀ hpc
      generalize e₀.commit = commit, e₀.put = put at hbody
      cases hbody
      exact ⟨rfl, rfl, rfl⟩

section Recompute

variable {i deferBy ok fail : Nat} {chunk row : BatchChunk}

/-- The row of the transaction, as it sees it. -/
theorem Frame.Alone.own_row
    (hf : Frame.Alone s.db (.processChunk i deferBy (.body chunk (.flushed row ok fail)))) :
    ∃ c c', s.db.chunks[i]? = some c ∧ (ownView s.db i ok fail row)[i]? = some c' ∧
      c.status ≠ .succeeded ∧ c.attempts ≠ 0 ∧ Recorded ok fail c c' := by
  obtain ⟨⟨c, hc, hs, ha⟩, hrow, hcounts⟩ := hf
  obtain ⟨hok, hfail⟩ := hcounts c hc
  refine ⟨c, _, hc, ?_, hs, ha, recorded_flush hrow hok hfail i ok fail⟩
  simp [getElem?_ownView, hc]

/-- The rows of a recompute are those of the whole plan, each with an exact split. -/
theorem Single.own_view (h : Single v) (hv : Valid env v.shared)
    (hok : Frame.Ok env v.shared (.processChunk i deferBy (.body chunk (.flushed row ok fail))))
    (hf : Frame.Alone v.shared.db
      (.processChunk i deferBy (.body chunk (.flushed row ok fail)))) :
    ownView v.shared.db i ok fail row ≠ [] ∧
      (ownView v.shared.db i ok fail row).map (·.place) = env.plan ∧
      SplitsExact (ownView v.shared.db i ok fail row) ∧
      ((∀ c ∈ ownView v.shared.db i ok fail row, c.status = .succeeded) ↔
        ∀ j c, j ≠ i → v.shared.db.chunks[j]? = some c → c.status = .succeeded) := by
  obtain ⟨c, c', hc, hc', -, -, hrec⟩ := hf.own_row
  have row_of_ne {j : Nat} (hj : j ≠ i) :
      (ownView v.shared.db i ok fail row)[j]? = v.shared.db.chunks[j]? := by
    simp [getElem?_ownView, hj.symm]
  refine ⟨fun he => by simp [he] at hc', (map_place_ownView ..).trans
    (hv.planned.resolve_left fun he => by simp [he] at hc), fun r hm hs => ?_,
    fun hall j r hj hr => ?_, fun hall r hm => ?_⟩
  · obtain ⟨j, hj⟩ := List.getElem?_of_mem hm
    by_cases hij : j = i
    · subst hij
      obtain rfl := Option.some.inj (hj.symm.trans hc')
      rw [hrec.okCount, hrec.failCount, hok.2.1, ← hok.1.limit_eq hc]
      exact (congrArg (·.2.2) hrec.place).symm
    · exact h.splits r (List.mem_of_getElem? ((row_of_ne hij).symm.trans hj)) hs
  · exact hall r (List.mem_of_getElem? ((row_of_ne hj).trans hr))
  · obtain ⟨j, hj⟩ := List.getElem?_of_mem hm
    by_cases hij : j = i
    · subst hij
      obtain rfl := Option.some.inj (hj.symm.trans hc')
      exact hrec.status
    · exact hall j r hij ((row_of_ne hij).symm.trans hj)

end Recompute

def Frame.Short (total : Nat) : Frame → Prop
  | .processChunk _ _ (.body _ (.recomputed _ _ _ n)) => n.completedItems < total
  | _ => True

/-- What has been recomputed so far falls short of the total. -/
structure Short (env : Env) (v : World Shared Frame) : Prop where
  jobs : ∀ f ∈ v.pool, f.Short env.spec.totalItems
  batch : v.shared.db.batch.completedItems < env.spec.totalItems

theorem Short.fire (hv : Valid env v.shared) (hok : ∀ f ∈ v.pool, f.Ok env v.shared)
    (h : Single v) (hs : Short env v) (hlast : ¬ RecomputesLast v m)
    (hf : (workers env).fire v m = some v') : Short env v' := by
  rcases fire_cases hf with ⟨jobs, -, hdb, -, -, hpool⟩ |
    ⟨k, c, frame, e, rfl, hk, he, -, hshared, hpool⟩
  · exact ⟨forall_pool_of_queued hpool hs.jobs fun _ => trivial, hdb ▸ hs.batch⟩
  · have hmem := List.mem_of_getElem? hk
    refine ⟨fun f hm => ?_, ?_⟩
    · rcases List.mem_append.mp (hpool ▸ hm) with hm | hm
      · exact hs.jobs f (mem_of_mem_others hm)
      · unfold Frame.Short
        split
        · obtain ⟨rfl, rfl, rfl⟩ := recomputed_of_step he hm
          obtain ⟨hne, hplaces, hsplits, hall⟩ := h.own_view hv (hok _ hmem) (h.jobs _ hmem)
          obtain ⟨hle, hiff⟩ := recompute_total hplaces hne hsplits
          refine lt_of_le_of_ne hle fun heq => hlast ?_
          exact ⟨k, _, _, _, _, _, _, rfl, hk, hall.mp (hiff.mp heq)⟩
        · trivial
    · rw [hshared]
      rcases db_cases he with hdb | ⟨commit, hc, hdb⟩
      · exact hdb ▸ hs.batch
      · rw [hdb, Commit.batch_apply]
        rcases hc.counters_cases v.shared.db.batch with ⟨hn, -⟩ |
          ⟨i, deferBy, chunk, row, ok, fail, n, rfl, hn, -⟩
        · exact hn ▸ hs.batch
        · exact hn ▸ hs.jobs _ hmem

/-! ## A recompute that sees all rows -/

/-- Once all chunks have been leased there is no new worker. -/
theorem unrecorded_of_leased (hok : frame.Ok env s) (h : frame.step env s c = some e)
    (hlease : ∀ i ∈ e.commit.bind Commit.leases, ∀ row ∈ s.db.chunks[i]?, row.attempts = 0)
    (hleased : ∀ row ∈ s.db.chunks, row.attempts ≠ 0) {f : Frame} (hm : f ∈ e.frames) {i : Nat}
    (hi : f.unrecorded = some i) : frame.unrecorded = some i := by
  refine (unrecorded_of_step h hm hi).resolve_right fun hi => ?_
  obtain ⟨commit, hc, hl⟩ := Option.bind_eq_some_iff.mp hi
  cases commits_of_step h hc with
  | lease =>
    cases hl
    obtain ⟨row, hrow, -⟩ := hok
    exact hleased row (List.mem_of_getElem? hrow) (hlease i hi row hrow)
  | _ => cases hl

/-- The only worker left is the one of chunk `i`, and it has recomputed from `rows`. -/
def Frame.Seen (i : Nat) (rows : List BatchChunk) (f : Frame) : Prop :=
  ∀ j, f.unrecorded = some j → ∃ deferBy chunk row ok fail,
    f = .processChunk i deferBy
      (.body chunk (.recomputed row ok fail (recomputeBatchCounters rows))) ∧
    rows[i]?.map (·.failCount) = some fail

/-- The recompute from `rows` decides the counters, if the row of chunk `i` is recorded. -/
structure Db.Seen (i : Nat) (rows : List BatchChunk) (db : Db) : Prop where
  nonempty : db.chunks ≠ []
  leased : ∀ row ∈ db.chunks, row.attempts ≠ 0
  fails : ∀ j c, db.chunks[j]? = some c → (j = i → c.status = .succeeded) →
    rows[j]?.map (·.failCount) = some c.failCount
  counters : ∀ c, db.chunks[i]? = some c → c.status = .succeeded →
    db.batch.completedItems = (recomputeBatchCounters rows).completedItems ∧
      db.batch.failedItems = (recomputeBatchCounters rows).failedItems

structure Seen (i : Nat) (rows : List BatchChunk) (v : World Shared Frame) : Prop where
  db : v.shared.db.Seen i rows
  jobs : ∀ f ∈ v.pool, f.Seen i rows

theorem Seen.start (h : Single v) {k i deferBy ok fail : Nat} {chunk row : BatchChunk}
    (hk : v.pool[k]? =
      some (.processChunk i deferBy (.body chunk (.flushed row ok fail))))
    (hall : ∀ j c, j ≠ i → v.shared.db.chunks[j]? = some c → c.status = .succeeded)
    (hf : (workers env).fire v (.act k .next) = some v') :
    Seen i (ownView v.shared.db i ok fail row) v' := by
  obtain ⟨f, r, hk', hs, rfl⟩ := fire_act_iff.mp hf
  obtain rfl := Option.some.inj (hk'.symm.trans hk)
  cases hs
  obtain ⟨c, c', hc, hc', hcs, hca, hrec⟩ := (h.jobs _ (List.mem_of_getElem? hk)).own_row
  have own {r : BatchChunk} (hr : v.shared.db.chunks[i]? = some r) : r.status ≠ .succeeded := by
    obtain rfl := Option.some.inj (hc.symm.trans hr)
    exact hcs
  refine ⟨⟨fun he => ?_, fun r hr => ?_, fun j r hr hs => ?_,
    fun r hr hs => absurd hs (own hr)⟩, fun f hm j hj => ?_⟩
  · change v.shared.db.chunks = [] at he
    simp [he] at hc
  · obtain ⟨j, hj⟩ := List.getElem?_of_mem hr
    change v.shared.db.chunks[j]? = some r at hj
    by_cases hji : j = i
    · subst hji
      obtain rfl := Option.some.inj (hc.symm.trans hj)
      exact hca
    · exact h.leased r hr (hall j r hji hj)
  · by_cases hji : j = i
    · subst hji
      exact absurd (hs rfl) (own hr)
    · change v.shared.db.chunks[j]? = some r at hr
      simp [getElem?_ownView, hr, Ne.symm hji]
  · rcases List.mem_append.mp hm with ho | hnew
    · obtain ⟨r, hr, hs, -⟩ := (h.jobs f (mem_of_mem_others ho)).unrecorded hj
      by_cases hji : j = i
      · subst hji
        exact absurd rfl (h.others hk ho hj)
      · exact absurd (hall j r hji hr) hs
    · obtain rfl := List.mem_singleton.mp hnew
      exact ⟨deferBy, chunk, row, ok, fail, rfl, by simp [hc', hrec.failCount]⟩

theorem Commits.inserted_eq_nil {commit : Commit} (h : Commits env s frame commit)
    (hne : s.db.chunks ≠ []) : commit.inserted = [] := by
  rcases h.inserted_cases with hins | ⟨-, -, -, -, he, -⟩
  · exact hins
  · exact absurd he hne

theorem Commits.chunk_origin {commit : Commit} (h : Commits env s frame commit)
    (hne : s.db.chunks ≠ []) {j : Nat} {c : BatchChunk}
    (hc : (commit.apply s.db).chunks[j]? = some c) :
    ∃ c₀, s.db.chunks[j]? = some c₀ ∧ c = commit.onRow j c₀ := by
  rw [Commit.getElem?_chunks_apply, h.inserted_eq_nil hne, List.append_nil] at hc
  obtain ⟨c₀, hc₀, rfl⟩ := Option.map_eq_some_iff.mp hc
  exact ⟨c₀, hc₀, rfl⟩

theorem Db.Seen.commit {i : Nat} {rows : List BatchChunk} {commit : Commit}
    (hs : s.db.Seen i rows) (hc : Commits env s frame commit) (hf : frame.Alone s.db)
    (hframe : frame.Seen i rows) : (commit.apply s.db).Seen i rows := by
  have hne : (commit.apply s.db).chunks ≠ [] := by
    simpa [Commit.apply, hc.inserted_eq_nil hs.nonempty] using hs.nonempty
  have origin {j : Nat} {c : BatchChunk} (h : (commit.apply s.db).chunks[j]? = some c) :
      ∃ c₀, s.db.chunks[j]? = some c₀ ∧ c = commit.onRow j c₀ := hc.chunk_origin hs.nonempty h
  cases hu : frame.unrecorded with
  | none =>
    -- another job: no row becomes succeeded, and the counters stay
    have kept (j : Nat) (c₀ : BatchChunk) : c₀.Kept (commit.onRow j c₀) :=
      hc.kept (by simp [hu]) c₀
    refine ⟨hne, fun c hm => ?_, fun j c hc' hj => ?_, fun c hc' hst => ?_⟩
    · obtain ⟨j, hj⟩ := List.getElem?_of_mem hm
      obtain ⟨c₀, hc₀, rfl⟩ := origin hj
      exact (kept j c₀).attempts (hs.leased c₀ (List.mem_of_getElem? hc₀))
    · obtain ⟨c₀, hc₀, rfl⟩ := origin hc'
      rw [(kept j c₀).failCount]
      exact hs.fails j c₀ hc₀ fun h => (kept j c₀).status (hj h)
    · obtain ⟨c₀, hc₀, rfl⟩ := origin hc'
      rcases hc.counters_cases s.db.batch with ⟨hn, hn'⟩ |
        ⟨j, deferBy, chunk, row, ok, fail, n, rfl, -⟩
      · rw [Commit.batch_apply, hn, hn']
        exact hs.counters c₀ hc₀ ((kept i c₀).status hst)
      · cases hu
  | some j =>
    -- the worker records chunk `i`
    obtain ⟨deferBy, chunk, row, ok, fail, rfl, hfail⟩ := hframe j hu
    obtain ⟨-, hrow, hcounts⟩ := hf
    cases hc
    generalize hcommit : Commit.success i row (row.succeed i ok fail)
      (recomputeBatchCounters rows) = commit at *
    have recorded {j : Nat} {c₀ : BatchChunk} (hc₀ : s.db.chunks[j]? = some c₀) :
        j ≠ i ∧ commit.onRow j c₀ = c₀ ∨ j = i ∧ Recorded ok fail c₀ (commit.onRow j c₀) := by
      subst hcommit
      by_cases hij : i = j
      · subst hij
        obtain ⟨hok, hfail⟩ := hcounts c₀ hc₀
        rw [Commit.onRow, if_pos rfl]
        exact .inr ⟨rfl, recorded_flush hrow hok hfail i ok fail⟩
      · exact .inl ⟨Ne.symm hij, if_neg hij⟩
    refine ⟨hne, fun c hm => ?_, fun j c hc' hj => ?_, fun c hc' hst => ?_⟩
    · obtain ⟨j, hj⟩ := List.getElem?_of_mem hm
      obtain ⟨c₀, hc₀, rfl⟩ := origin hj
      have ha := hs.leased c₀ (List.mem_of_getElem? hc₀)
      rcases recorded hc₀ with ⟨-, hr⟩ | ⟨-, hr⟩
      · rw [hr]; exact ha
      · exact hr.attempts.trans_ne ha
    · obtain ⟨c₀, hc₀, rfl⟩ := origin hc'
      rcases recorded hc₀ with ⟨hji, hr⟩ | ⟨rfl, hr⟩
      · rw [hr]
        exact hs.fails j c₀ hc₀ fun h => absurd h hji
      · rw [hr.failCount]
        exact hfail
    · subst hcommit
      exact ⟨rfl, rfl⟩

/-- A step of the last worker ends its transaction. -/
theorem Frame.Seen.frames {i : Nat} {rows : List BatchChunk} (hframe : frame.Seen i rows)
    (hok : frame.Ok env s) (h : frame.step env s c = some e)
    (hlease : ∀ i ∈ e.commit.bind Commit.leases, ∀ row ∈ s.db.chunks[i]?, row.attempts = 0)
    (hleased : ∀ row ∈ s.db.chunks, row.attempts ≠ 0) : ∀ f ∈ e.frames, f.Seen i rows := by
  intro f hm j hj
  have hu := unrecorded_of_leased hok h hlease hleased hm hj
  obtain ⟨deferBy, chunk, row, ok, fail, rfl, -⟩ := hframe j hu
  obtain ⟨d, chunk', pc, rfl⟩ := Frame.exists_of_unrecorded hj
  obtain ⟨-, hpc, -⟩ | ⟨pc₀, hfr, hgoes⟩ := processChunk_of_step h hm
  · cases hpc
  · cases hfr
    generalize e.commit = commit at hgoes
    cases hgoes with
    | body h₀ hpc => cases h₀; cases hpc; cases hj

theorem Seen.fire {i : Nat} {rows : List BatchChunk} (hok : ∀ f ∈ v.pool, f.Ok env v.shared)
    (h : Single v) (hs : Seen i rows v) (hm : FirstLease env v m)
    (hf : (workers env).fire v m = some v') : Seen i rows v' := by
  rcases fire_cases hf with ⟨jobs, -, hdb, -, -, hpool⟩ |
    ⟨k, c, frame, e, rfl, hk, he, ⟨hcommit, -⟩, hshared, hpool⟩
  · exact ⟨hdb ▸ hs.db, forall_pool_of_queued hpool hs.jobs fun _ => nofun⟩
  · have hmem := List.mem_of_getElem? hk
    refine ⟨?_, fun f hm' => ?_⟩
    · rw [hshared]
      rcases db_cases he with hdb | ⟨commit, hc, hdb⟩ <;> rw [hdb]
      · exact hs.db
      · exact hs.db.commit hc (h.jobs frame hmem) (hs.jobs frame hmem)
    · rcases List.mem_append.mp (hpool ▸ hm') with hm' | hm'
      · exact hs.jobs f (mem_of_mem_others hm')
      · exact (hs.jobs frame hmem).frames (hok frame hmem) he (hm.attempts hcommit)
          hs.db.leased f hm'

/-! ## After the last commit -/

/-- What finalize_batch has loaded, against the counters and the counts of the rows. -/
def Frame.Reports (batch : Batch) (counts : List (Nat × Nat)) : Frame → Prop
  | .finalizeBatch pc => match pc with
    | .gotBatch loaded _ =>
      loaded.completedItems = batch.completedItems ∧ loaded.failedItems = batch.failedItems
    | .gathering snap _ _ | .concatenated snap | .committing snap =>
      snap.batch.completedItems = batch.completedItems ∧
        snap.batch.failedItems = batch.failedItems ∧
        snap.rows.map BatchChunk.counts = counts
    | _ => True
  | _ => True

/-- The rows have been leased, and their counts and the counters are final. -/
structure Db.Settled (batch : Batch) (counts : List (Nat × Nat)) (db : Db) : Prop where
  nonempty : db.chunks ≠ []
  leased : ∀ row ∈ db.chunks, row.attempts ≠ 0
  completed : db.batch.completedItems = batch.completedItems
  failed : db.batch.failedItems = batch.failedItems
  rows : db.chunks.map BatchChunk.counts = counts

/-- No worker is left. -/
structure Settled (batch : Batch) (counts : List (Nat × Nat)) (v : World Shared Frame) :
    Prop where
  db : v.shared.db.Settled batch counts
  idle : ∀ f ∈ v.pool, f.unrecorded = none
  reports : ∀ f ∈ v.pool, f.Reports batch counts
  manifest : ∀ m ∈ v.shared.store.manifest, m.completedItems = batch.completedItems ∧
    m.failedItems = batch.failedItems ∧ m.chunks.map ManifestEntry.counts = counts

section Settled

variable {batch : Batch} {counts : List (Nat × Nat)}

theorem Db.Settled.commit {commit : Commit} (hs : s.db.Settled batch counts)
    (hc : Commits env s frame commit) (hu : frame.unrecorded = none) :
    (commit.apply s.db).Settled batch counts := by
  have kept (j : Nat) (c₀ : BatchChunk) : c₀.Kept (commit.onRow j c₀) := hc.kept (by simp [hu]) c₀
  have hins := hc.inserted_eq_nil hs.nonempty
  have hcounters : (commit.onBatch s.db.batch).completedItems = s.db.batch.completedItems ∧
      (commit.onBatch s.db.batch).failedItems = s.db.batch.failedItems := by
    rcases hc.counters_cases s.db.batch with hn | ⟨j, deferBy, chunk, row, ok, fail, n, rfl, -⟩
    · exact hn
    · cases hu
  refine ⟨?_, ?_, hcounters.1.trans hs.completed, hcounters.2.trans hs.failed, ?_⟩
  · simpa [Commit.apply, hins] using hs.nonempty
  · intro row hm
    obtain ⟨j, hj⟩ := List.getElem?_of_mem hm
    obtain ⟨c₀, hc₀, rfl⟩ := hc.chunk_origin hs.nonempty hj
    exact (kept j c₀).attempts (hs.leased c₀ (List.mem_of_getElem? hc₀))
  · rw [← hs.rows]
    exact Commit.map_chunks_apply hins fun j c₀ _ =>
      Prod.ext (kept j c₀).okCount (kept j c₀).failCount

theorem Settled.reports_frames (hs : Settled batch counts v) (hf : frame.Reports batch counts)
    (h : frame.step env v.shared c = some e) : ∀ f ∈ e.frames, f.Reports batch counts := by
  intro f hm
  cases f with
  | finalizeBatch pc =>
    rcases finalizeBatch_of_step h hm with ⟨-, unfinished, rfl⟩ | ⟨pc₀, rfl, hgoes⟩
    · exact ⟨hs.db.completed, hs.db.failed⟩
    · generalize e.put = put at hgoes
      cases hgoes with
      | incomplete | commit => trivial
      | load complete => exact ⟨hf.1, hf.2, hs.db.rows⟩
      | get | results | manifest => exact hf
  | _ => trivial

theorem Settled.manifest_put (hf : frame.Reports batch counts) {put : Put}
    (hp : Puts env frame put) (hm : ∀ m ∈ s.store.manifest, m.completedItems =
      batch.completedItems ∧ m.failedItems = batch.failedItems ∧
      m.chunks.map ManifestEntry.counts = counts) :
    ∀ m ∈ (put.apply s.store).manifest, m.completedItems = batch.completedItems ∧
      m.failedItems = batch.failedItems ∧ m.chunks.map ManifestEntry.counts = counts := by
  cases hp with
  | chunk | results => exact hm
  | manifest =>
    rintro _ ⟨⟩
    obtain ⟨hc, hfail, hrows⟩ := hf
    exact ⟨hc, hfail, by rw [← hrows]; simp [Finalize.manifestOf, Function.comp_def,
      ManifestEntry.counts, BatchChunk.counts]⟩

theorem Settled.fire (hok : ∀ f ∈ v.pool, f.Ok env v.shared) (hs : Settled batch counts v)
    (hm : FirstLease env v m) (hf : (workers env).fire v m = some v') :
    Settled batch counts v' := by
  rcases fire_cases hf with ⟨jobs, -, hdb, hstore, -, hpool⟩ |
    ⟨k, c, frame, e, rfl, hk, he, ⟨hcommit, -⟩, hshared, hpool⟩
  · exact ⟨hdb ▸ hs.db, forall_pool_of_queued hpool hs.idle fun _ => rfl,
      forall_pool_of_queued hpool hs.reports fun _ => trivial, hstore ▸ hs.manifest⟩
  · have hmem := List.mem_of_getElem? hk
    have hlease := hm.attempts hcommit
    have hidle : ∀ f ∈ v'.pool, f.unrecorded = none := by
      intro f hm
      rcases List.mem_append.mp (hpool ▸ hm) with hm | hm
      · exact hs.idle f (mem_of_mem_others hm)
      · refine Option.eq_none_iff_forall_ne_some.mpr fun i hi => ?_
        have := unrecorded_of_leased (hok frame hmem) he hlease hs.db.leased hm hi
        simp [hs.idle frame hmem] at this
    have hreports : ∀ f ∈ v'.pool, f.Reports batch counts := by
      intro f hm
      rcases List.mem_append.mp (hpool ▸ hm) with hm | hm
      · exact hs.reports f (mem_of_mem_others hm)
      · exact hs.reports_frames (hs.reports frame hmem) he f hm
    have hsh := shared_cases he
    rw [← hshared] at hsh
    rcases hsh with hsh | ⟨commit, hc, hsh⟩ | ⟨put, hp, hsh⟩
    · exact ⟨hsh ▸ hs.db, hidle, hreports, hsh ▸ hs.manifest⟩
    · refine ⟨hsh ▸ hs.db.commit hc (hs.idle frame hmem), hidle, hreports, ?_⟩
      exact hsh ▸ hs.manifest
    · exact ⟨hsh ▸ hs.db, hidle, hreports,
        hsh ▸ Settled.manifest_put (hs.reports frame hmem) hp hs.manifest⟩

end Settled

/-! ## The final counters -/

/-- With all chunks recorded, one recompute that has seen all the rows settles the counters. -/
theorem counters_of_recomputesLast {ms : List Moves}
    (hrun : (workers env).run (FirstLease env) (created env now) ms = some w)
    (hne : w.shared.db.chunks ≠ []) (hall : ∀ c ∈ w.shared.db.chunks, c.status = .succeeded)
    (hlast : (workers env).Sometime RecomputesLast (created env now) ms) :
    w.shared.db.batch.completedItems = env.spec.totalItems ∧
      w.shared.db.batch.failedItems = (w.shared.db.chunks.map (·.failCount)).sum := by
  obtain ⟨v, m, u, hv, hfirst, ⟨k, i, deferBy, chunk, row, ok, fail, rfl, hk, hothers⟩, hf, hw⟩ :=
    hlast.reach hrun
  have hmem := List.mem_of_getElem? hk
  have hsingle := single_of_reach hv
  obtain ⟨hvalid, hok⟩ := ok_of_reach hv
  obtain ⟨hown, hplaces, hsplits, hiff⟩ :=
    hsingle.own_view hvalid (hok _ hmem) (hsingle.jobs _ hmem)
  have hrows := hiff.mpr hothers
  have hu : (workers env).Reach (FirstLease env) (created env now) u := hv.step hfirst hf
  have hseen : Seen i (ownView v.shared.db i ok fail row) w := by
    refine Reach.invariant (A := fun x => (workers env).Reach (FirstLease env) (created env now) x)
      (fun x hx => hu.trans hx) (Seen.start hsingle hk hothers hf) ?_ hw
    intro x m x' hx hs hm hf
    exact hs.fire (ok_of_reach hx).2 (single_of_reach hx) hm hf
  have hwplaces : w.shared.db.chunks.map (·.place) = env.plan :=
    (valid_of_reach (hu.trans hw)).planned.resolve_left hne
  have hlength : (ownView v.shared.db i ok fail row).length = w.shared.db.chunks.length := by
    simpa using congrArg List.length (hplaces.trans hwplaces.symm)
  have hfails : (ownView v.shared.db i ok fail row).map (·.failCount) =
      w.shared.db.chunks.map (·.failCount) := by
    refine List.ext_getElem? fun j => ?_
    rw [List.getElem?_map, List.getElem?_map]
    cases hj : w.shared.db.chunks[j]? with
    | none =>
      rw [List.getElem?_eq_none_iff, ← hlength] at hj
      simp [List.getElem?_eq_none hj]
    | some c => exact hseen.db.fails j c hj fun _ => hall c (List.mem_of_getElem? hj)
  obtain ⟨c, hc⟩ : ∃ c, w.shared.db.chunks[i]? = some c := by
    obtain ⟨c, c', hc, hc', -⟩ := (hsingle.jobs _ hmem).own_row
    have hi := (List.getElem?_eq_some_iff.mp hc').1
    exact ⟨_, List.getElem?_eq_getElem (hlength ▸ hi)⟩
  obtain ⟨hcompleted, hfailed⟩ := hseen.db.counters c hc (hall c (List.mem_of_getElem? hc))
  refine ⟨hcompleted.trans ((recompute_total hplaces hown hsplits).2.mpr hrows), ?_⟩
  rw [hfailed, failedItems_of_all hrows, hfails]

/-- A manifest that is written after the last commit. -/
theorem manifest_of_settled
    (hreach : (workers env).Reach (FirstLease env) (created env now) w)
    (hne : w.shared.db.chunks ≠ []) (hall : ∀ c ∈ w.shared.db.chunks, c.status = .succeeded)
    (hidle : ∀ f ∈ w.pool, ∀ pc, f ≠ .finalizeBatch pc) (hnone : w.shared.store.manifest = none)
    {m : Manifest} (hw : (workers env).Reach (FirstLease env) w v)
    (hm : v.shared.store.manifest = some m) :
    m.completedItems = w.shared.db.batch.completedItems ∧
      m.failedItems = w.shared.db.batch.failedItems ∧
      m.chunks.map ManifestEntry.counts = w.shared.db.chunks.map BatchChunk.counts := by
  have hsingle := single_of_reach hreach
  have hstart : Settled w.shared.db.batch (w.shared.db.chunks.map BatchChunk.counts) w := by
    refine ⟨⟨hne, fun c hc => hsingle.leased c hc (hall c hc), rfl, rfl, rfl⟩, fun f hf => ?_,
      fun f hf => ?_, by simp [hnone]⟩
    · refine Option.eq_none_iff_forall_ne_some.mpr fun i hi => ?_
      obtain ⟨row, hrow, hs, -⟩ := (hsingle.jobs f hf).unrecorded hi
      exact hs (hall row (List.mem_of_getElem? hrow))
    · cases f with
      | finalizeBatch pc => exact absurd rfl (hidle _ hf pc)
      | _ => trivial
  have hend := Reach.invariant (P := Settled w.shared.db.batch _)
    (fun x hx => (ok_of_reach (hreach.trans hx)).2) hstart
    (fun x m x' hok hs hm hf => hs.fire hok hm hf) hw
  exact hend.manifest m hm

/-- The counters are exact in the end, and with them the manifests to come, if and only if
some recompute ran when the rows of all the other chunks were committed. -/
theorem final_counters_exact_iff {ms : List Moves}
    (hrun : (workers env).run (FirstLease env) (created env now) ms = some w)
    (hne : w.shared.db.chunks ≠ []) (hall : ∀ c ∈ w.shared.db.chunks, c.status = .succeeded)
    (hidle : ∀ f ∈ w.pool, ∀ pc, f ≠ .finalizeBatch pc)
    (hnone : w.shared.store.manifest = none) :
    (w.shared.db.batch.completedItems = env.spec.totalItems ∧
        w.shared.db.batch.failedItems = (w.shared.db.chunks.map (·.failCount)).sum ∧
        ∀ v m, (workers env).Reach (FirstLease env) w v → v.shared.store.manifest = some m →
          m.completedItems = (m.chunks.map fun entry => entry.okCount + entry.failCount).sum ∧
          m.failedItems = (m.chunks.map (·.failCount)).sum) ↔
      (workers env).Sometime RecomputesLast (created env now) ms := by
  have hreach := Reach.of_run hrun
  constructor
  · rintro ⟨hcompleted, -⟩
    have hstart : Short env (created env now) :=
      ⟨by simp [created, Frame.Short], env.spec.one_le_totalItems⟩
    rcases Sometime.or_kept (P := RecomputesLast)
      (Q := fun v => (workers env).Reach (FirstLease env) (created env now) v ∧ Short env v)
      ⟨.refl, hstart⟩ hrun (fun v m v' hv hm hlast hf => ⟨hv.1.step hm hf,
        hv.2.fire (ok_of_reach hv.1).1 (ok_of_reach hv.1).2 (single_of_reach hv.1) hlast hf⟩)
      with h | ⟨-, hshort⟩
    · exact h
    · exact absurd hcompleted hshort.batch.ne
  · intro hlast
    obtain ⟨hcompleted, hfailed⟩ := counters_of_recomputesLast hrun hne hall hlast
    refine ⟨hcompleted, hfailed, fun v m hv hm => ?_⟩
    obtain ⟨hmc, hmf, hcounts⟩ := manifest_of_settled hreach hne hall hidle hnone hv hm
    have hplaces := (valid_of_reach hreach).planned.resolve_left hne
    have htotal := (recompute_total hplaces hne (single_of_reach hreach).splits).2.mpr hall
    rw [completedItems_of_all hall] at htotal
    have hoks := congrArg (fun counts => (counts.map fun n : Nat × Nat => n.1 + n.2).sum) hcounts
    have hfails := congrArg (fun counts => (counts.map fun n : Nat × Nat => n.2).sum) hcounts
    simp only [List.map_map, Function.comp_def, ManifestEntry.counts, BatchChunk.counts]
      at hoks hfails
    exact ⟨by rw [hmc, hcompleted, hoks, htotal], by rw [hmf, hfailed, hfails]⟩

/-- Two chunks have been processed, their checkpoints are written. -/
def bothWritten : List Moves :=
  steps 0 6 ++ steps 1 1 ++ steps 0 1 ++ steps 2 3 ++ replied 2 0 true ++
    steps 2 2 ++ steps 0 1 ++ steps 2 3 ++ replied 2 0 false ++ steps 2 2

theorem final_counters_exact_iff_successive : ∃ ms w,
    (workers (twoPrompts 1 5)).run (FirstLease (twoPrompts 1 5)) (created (twoPrompts 1 5) 0) ms =
      some w ∧ w.shared.db.batch.completedItems = 2 ∧
    ((w.shared.db.batch.completedItems = 2 ∧
        w.shared.db.batch.failedItems = (w.shared.db.chunks.map (·.failCount)).sum ∧
        ∀ v m, (workers (twoPrompts 1 5)).Reach (FirstLease (twoPrompts 1 5)) w v →
          v.shared.store.manifest = some m →
          m.completedItems = (m.chunks.map fun entry => entry.okCount + entry.failCount).sum ∧
          m.failedItems = (m.chunks.map (·.failCount)).sum) ↔
      (workers (twoPrompts 1 5)).Sometime RecomputesLast (created (twoPrompts 1 5) 0) ms) := by
  have hrun : ((workers (twoPrompts 1 5)).run (FirstLease (twoPrompts 1 5))
      (created (twoPrompts 1 5) 0)
      (bothWritten ++ steps 1 1 ++ steps 2 3 ++ steps 1 1 ++ steps 2 4 ++ steps 1 1)).map
        (fun w => (w.shared.db.chunks.map (·.status), w.shared.db.batch.completedItems,
          w.shared.store.manifest.isSome, w.pool.all fun f => match f with
            | .queued _ => true
            | _ => false)) =
      some ([.succeeded, .succeeded], 2, false, true) := by decide +kernel
  obtain ⟨w, hw, hseen⟩ := Option.map_eq_some_iff.mp hrun
  simp only [Prod.mk.injEq] at hseen
  obtain ⟨hstatus, hcompleted, hmanifest, hpool⟩ := hseen
  refine ⟨_, w, hw, hcompleted, final_counters_exact_iff hw ?_ ?_ ?_ (by simpa using hmanifest)⟩
  · rintro he
    simp [he] at hstatus
  · intro c hc
    have := List.mem_map_of_mem (f := (·.status)) hc
    simpa [hstatus] using this
  · rintro f hf pc rfl
    simpa using List.all_eq_true.mp hpool _ hf

/-- Both transactions recompute before either commits: one of the two items is missing in
the batch and in its manifest, whose entries count two. -/
theorem overlapped_commits_lose_items : ∃ w v m,
    (workers (twoPrompts 1 5)).run (FirstLease (twoPrompts 1 5)) (created (twoPrompts 1 5) 0)
      (bothWritten ++ steps 1 1 ++ steps 2 2 ++ steps 1 1 ++ steps 2 2 ++ steps 1 2) = some w ∧
    w.shared.db.chunks.map (·.status) = [.succeeded, .succeeded] ∧
    w.shared.db.batch.completedItems = 1 ∧
    (workers (twoPrompts 1 5)).Reach (FirstLease (twoPrompts 1 5)) w v ∧
    v.shared.store.manifest = some m ∧ m.completedItems = 1 ∧
    (m.chunks.map fun entry => entry.okCount + entry.failCount).sum = 2 := by
  have hrun : ((workers (twoPrompts 1 5)).run (FirstLease (twoPrompts 1 5))
      (created (twoPrompts 1 5) 0)
      (bothWritten ++ steps 1 1 ++ steps 2 2 ++ steps 1 1 ++ steps 2 2 ++ steps 1 2)).bind
        (fun w => ((workers (twoPrompts 1 5)).run (FirstLease (twoPrompts 1 5)) w
          (steps 0 1 ++ steps 2 10)).bind fun v => v.shared.store.manifest.map fun m =>
            (w.shared.db.chunks.map (·.status), w.shared.db.batch.completedItems,
              m.completedItems,
              (m.chunks.map fun entry => entry.okCount + entry.failCount).sum)) =
      some ([.succeeded, .succeeded], 1, 1, 2) := by decide +kernel
  obtain ⟨w, hw, hrun⟩ := Option.bind_eq_some_iff.mp hrun
  obtain ⟨v, hv, hrun⟩ := Option.bind_eq_some_iff.mp hrun
  obtain ⟨m, hm, hseen⟩ := Option.map_eq_some_iff.mp hrun
  simp only [Prod.mk.injEq] at hseen
  exact ⟨w, v, m, hw, hseen.1, hseen.2.1, .of_run hv, hm, hseen.2.2⟩

end BatchInference
