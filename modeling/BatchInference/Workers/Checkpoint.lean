import BatchInference.Workers.Succeeded
import BatchInference.Workers.Progress

/-!
# Checkpoint objects and chunk rows

The object of a chunk is put before its counts are committed, outside the transaction and
under a key that all executions of the chunk share. Row and object agree in every state of a
serial run if and only if no put changes the split of a recorded chunk and every success
records the split that the object has then. If besides no recorded chunk is given back, the
manifest and the counters of a completed batch describe the rows of its results.
-/

namespace BatchInference

open JobPool System

variable {env : Env} {now : Int} {s : Shared} {frame : Frame} {c : Choice} {e : Effect Frame}
  {v v' w : World Shared Frame} {m : Moves}

/-- Every succeeded row counts the outcomes of the object at its key. -/
def Agree (s : Shared) : Prop :=
  ∀ (i : Nat) (row : BatchChunk), s.db.chunks[i]? = some row → row.status = .succeeded →
    ∃ key outcomes, row.resultKey = some key ∧ s.store.rows key = some outcomes ∧
      splitOf outcomes = row.counts

/-- A put for a recorded chunk has the split that is recorded; a success records the split of
the object. -/
def SplitKept (env : Env) (w : World Shared Frame) (m : Moves) : Prop :=
  (∀ i outcomes, putOf env w m = some (.rows (.chunk i) outcomes) →
    ∀ row, w.shared.db.chunks[i]? = some row → row.status = .succeeded →
      splitOf outcomes = row.counts) ∧
  ∀ i loaded new n, commitOf env w m = some (.success i loaded new n) →
    ∃ outcomes, w.shared.store.rows (.chunk i) = some outcomes ∧ splitOf outcomes = new.counts

/-! ## One step -/

theorem Agree.commit {commit : Commit} (h : Agree s)
    (ht : Transaction env s.now s.db commit)
    (hkept : ∀ i loaded new n, commit = .success i loaded new n →
      ∃ outcomes, s.store.rows (.chunk i) = some outcomes ∧ splitOf outcomes = new.counts) :
    Agree { s with db := commit.apply s.db } := by
  intro i row hrow hs
  rcases ht.row_origin hrow with ⟨row₀, hrow₀, hstep⟩ | ⟨-, entry, -, rfl⟩
  · rcases hstep.succeeded hs with rfl | ⟨ok, fail, n, -, rfl, hcommit⟩
    · exact h i _ hrow₀ hs
    · obtain ⟨outcomes, hobject, hcounts⟩ := hkept _ _ _ _ hcommit
      exact ⟨.chunk i, outcomes, rfl, hobject, hcounts⟩
  · cases hs

theorem Agree.success {i : Nat} {loaded new : BatchChunk} {n : Counters}
    (h : Agree { s with db := (Commit.success i loaded new n).apply s.db })
    (ht : Transaction env s.now s.db (.success i loaded new n)) :
    ∃ outcomes, s.store.rows (.chunk i) = some outcomes ∧ splitOf outcomes = new.counts := by
  cases ht with
  | @success _ ok fail _ hrow split =>
    obtain ⟨key, outcomes, hkey, hobject, hcounts⟩ :=
      h i (loaded.succeed i ok fail)
        (by rw [Commit.getElem?_apply_of_row hrow]; simp [Commit.onRow]) rfl
    cases hkey
    exact ⟨outcomes, hobject, hcounts⟩

theorem agree_put_iff (hv : Valid env s) (h : Agree s) {put : Put} (hp : Puts env frame put) :
    Agree { s with store := put.apply s.store } ↔
      ∀ i outcomes, put = .rows (.chunk i) outcomes → ∀ row, s.db.chunks[i]? = some row →
        row.status = .succeeded → splitOf outcomes = row.counts := by
  constructor
  · rintro hafter i outcomes rfl row hrow hs
    obtain ⟨key, outcomes', hkey, hobject, hcounts⟩ := hafter i row hrow hs
    obtain rfl := hv.key hrow key hkey
    simp only [Put.apply, if_true, Option.some.injEq] at hobject
    exact hobject ▸ hcounts
  · intro hput i row hrow hs
    obtain ⟨key, outcomes, hkey, hobject, hcounts⟩ := h i row hrow hs
    obtain rfl := hv.key hrow key hkey
    cases hp with
    | @chunk j deferBy chunk results =>
      by_cases hij : i = j
      · subst hij
        exact ⟨.chunk i, results, hkey, by simp [Put.apply], hput _ _ rfl row hrow hs⟩
      · exact ⟨.chunk i, outcomes, hkey, by simp [Put.apply, hij, hobject], hcounts⟩
    | results | manifest => exact ⟨.chunk i, outcomes, hkey, by simpa [Put.apply], hcounts⟩

theorem agree_iff (hr : (workers env).Reach Atomic (created env now) v) (h : Agree v.shared)
    (hf : (workers env).fire v m = some v') : Agree v'.shared ↔ SplitKept env v m := by
  have hv := valid_of_reach hr
  rcases fire_cases hf with ⟨jobs, ⟨hcommit, hput⟩, hdb, hstore, -, -⟩ |
    ⟨k, c, frame, e, rfl, hk, he, ⟨hcommit, hput⟩, hshared, -⟩
  · refine iff_of_true ?_ ⟨by simp [hput], by simp [hcommit]⟩
    unfold Agree
    rw [hdb, hstore]
    exact h
  · rw [hshared, SplitKept, hcommit, hput]
    rcases write_cases he with ⟨⟨hc, hp⟩, hs⟩ | ⟨commit, ⟨hc, hp⟩, -, hs⟩ |
      ⟨put, ⟨hc, hp⟩, hputs, hs⟩ <;> rw [hs, hc, hp]
    · exact iff_of_true h ⟨by simp, by simp⟩
    · have ht := transaction_of_commitOf hr (hcommit.trans hc)
      constructor
      · intro hafter
        refine ⟨by simp, fun i loaded new n hi => ?_⟩
        obtain rfl := Option.some.inj hi
        exact hafter.success ht
      · rintro ⟨-, hsuccess⟩
        exact h.commit ht fun i loaded new n hi => hsuccess i loaded new n (congrArg some hi)
    · rw [agree_put_iff hv h hputs]
      simp

/-! ## A completed batch -/

/-- No job gives back a recorded chunk. -/
def SuccessKept (env : Env) (w : World Shared Frame) (m : Moves) : Prop :=
  ∀ commit ∈ commitOf env w m, ∀ i row, w.shared.db.chunks[i]? = some row →
    row.status = .succeeded → commit.releases ≠ some i

/-- The results object consists of a segment for each row, with the row's counts. -/
def Store.ResultsCount (store : Store) (rows : List BatchChunk) : Prop :=
  ∃ segments : List (List Outcome), store.rows .results = some segments.flatten ∧
    segments.map splitOf = rows.map BatchChunk.counts

/-- What finalize_batch has gathered and put so far, against the counts of its rows. -/
def Frame.Gathers (env : Env) (store : Store) : Frame → Prop
  | .finalizeBatch pc => match pc with
    | .gathering snap keys parts => ∃ done rest, snap.rows = done ++ rest ∧
      keys = rest.filterMap (·.resultKey) ∧ parts.map splitOf = done.map BatchChunk.counts
    | .concatenated snap => store.ResultsCount snap.rows
    | .committing snap => store.ResultsCount snap.rows ∧
      store.manifest = some (Finalize.manifestOf env snap.batch snap.rows)
    | _ => True
  | _ => True

theorem Frame.Gathers.of_not_busy {store : Store} (h : frame.busy = false) :
    frame.Gathers env store := by
  cases frame with
  | finalizeBatch pc => cases pc <;> trivial
  | _ => trivial

theorem Frame.Gathers.put_chunk {store : Store} (h : frame.Gathers env store) (i : Nat)
    (outcomes : List Outcome) :
    frame.Gathers env ((Put.rows (.chunk i) outcomes).apply store) := by
  cases frame with
  | finalizeBatch pc => cases pc <;> exact h
  | _ => trivial

/-- The results and the manifest of a completed batch, against its rows. -/
structure Final (env : Env) (s : Shared) : Prop where
  nonempty : s.db.chunks ≠ []
  succeeded : ∀ row ∈ s.db.chunks, row.status = .succeeded
  results : s.store.ResultsCount s.db.chunks
  manifest : ∃ m, s.store.manifest = some m ∧ m.completedItems = env.spec.totalItems ∧
    m.failedItems = (s.db.chunks.map (·.failCount)).sum ∧
    m.chunks.map ManifestEntry.counts = s.db.chunks.map BatchChunk.counts

/-- The rows keep their counts, whatever is recorded again. -/
theorem Final.commit {commit : Commit} (hv : Valid env s) (h : Final env s) (hagree : Agree s)
    (ht : Transaction env s.now s.db commit)
    (hsplit : ∀ i loaded new n, commit = .success i loaded new n →
      ∃ outcomes, s.store.rows (.chunk i) = some outcomes ∧ splitOf outcomes = new.counts)
    (hkept : ∀ i row, s.db.chunks[i]? = some row → row.status = .succeeded →
      commit.releases ≠ some i) : Final env { s with db := commit.apply s.db } := by
  have step {i : Nat} {row : BatchChunk} (hrow : s.db.chunks[i]? = some row) :
      (commit.onRow i row).status = .succeeded ∧
        (commit.onRow i row).counts = row.counts := by
    have hs := h.succeeded row (List.mem_of_getElem? hrow)
    have hs' := (ht.succeeded_iff hrow hs).mpr (hkept i row hrow hs)
    refine ⟨hs', ?_⟩
    rcases (ht.row_step hrow).succeeded hs' with heq | ⟨ok, fail, n, -, heq, hcommit⟩
    · rw [heq]
    · obtain ⟨key, outcomes, hkey, hobject, hcounts⟩ := hagree i row hrow hs
      obtain rfl := hv.key hrow key hkey
      obtain ⟨outcomes', hobject', hcounts'⟩ := hsplit _ _ _ _ hcommit
      obtain rfl := Option.some.inj (hobject.symm.trans hobject')
      rw [heq, ← hcounts', hcounts]
  have hins : commit.inserted = [] := by
    cases ht with
    | orchestrate => simp [Commit.inserted, h.nonempty]
    | _ => rfl
  have hcounts := Commit.map_chunks_apply hins fun i row hrow => (step hrow).2
  have hfails : (commit.apply s.db).chunks.map (·.failCount) = s.db.chunks.map (·.failCount) :=
    Commit.map_chunks_apply hins fun i row hrow => congrArg Prod.snd (step hrow).2
  refine ⟨?_, fun row hm => ?_, ?_, ?_⟩
  · simpa [Commit.apply, hins] using h.nonempty
  · obtain ⟨i, hi⟩ := List.getElem?_of_mem hm
    rw [Commit.getElem?_chunks_apply, hins, List.append_nil] at hi
    obtain ⟨row₀, hrow₀, rfl⟩ := Option.map_eq_some_iff.mp hi
    exact (step hrow₀).1
  · rw [Store.ResultsCount, hcounts]
    exact h.results
  · rw [hcounts, hfails]
    exact h.manifest

theorem Frame.Gathers.frames (hagree : Agree s) (hs : frame.Snapshot env s.db s.now)
    (hg : frame.Gathers env s.store) (h : frame.step env s c = some e) :
    ∀ f ∈ e.frames, f.Gathers env (e.shared s).store := by
  intro f hm
  cases f with
  | finalizeBatch pc =>
    rcases finalizeBatch_of_step h hm with ⟨-, unfinished, rfl⟩ | ⟨pc₀, rfl, hgoes⟩
    · trivial
    · rw [Effect.shared]
      generalize e.put = put at hgoes
      -- a row that has still to be gathered, and its object
      have keyed {snap : Finalize.Snapshot} (hrows : snap.rows = s.db.chunks)
          (row : BatchChunk) (hm : row ∈ snap.rows) : ∃ key outcomes, row.resultKey = some key ∧
            s.store.rows key = some outcomes ∧ splitOf outcomes = row.counts := by
        have hst : row.status = .succeeded :=
          by_contra fun hst => snap.complete (.inr ⟨row, hm, hst⟩)
        obtain ⟨i, hi⟩ := List.getElem?_of_mem (hrows ▸ hm)
        exact hagree i row hi hst
      cases hgoes with
      | incomplete | commit => trivial
      | load complete => exact ⟨[], s.db.chunks, rfl, rfl, rfl⟩
      | @get snap key keys parts part hpart =>
        obtain ⟨done, rest, hrows, hkeys, hparts⟩ := hg
        cases rest with
        | nil => cases hkeys
        | cons row rest =>
          obtain ⟨key', outcomes, hkey, hobject, hcounts⟩ := keyed hs.2 row (by simp [hrows])
          rw [List.filterMap_cons_some hkey, List.cons.injEq] at hkeys
          obtain ⟨rfl, rfl⟩ := hkeys
          obtain rfl := Option.some.inj (hobject.symm.trans hpart)
          exact ⟨done ++ [row], rest, by simp [hrows], rfl, by simp [hparts, hcounts]⟩
      | @results snap parts =>
        obtain ⟨done, rest, hrows, hkeys, hparts⟩ := hg
        have hrest : rest = [] := by
          cases rest with
          | nil => rfl
          | cons row rest =>
            obtain ⟨key, outcomes, hkey, -⟩ := keyed hs.2 row (by simp [hrows])
            simp [hkey] at hkeys
        refine ⟨parts, by simp [Put.apply], ?_⟩
        rw [hparts, hrows, hrest, List.append_nil]
      | manifest => exact ⟨hg, rfl⟩
  | _ => trivial

structure Checkpointed (env : Env) (v : World Shared Frame) : Prop where
  agree : Agree v.shared
  gathers : ∀ f ∈ v.pool, f.Gathers env v.shared.store
  final : v.shared.db.batch.status = .completed → Final env v.shared

/-- finalize_batch completes the batch. -/
theorem Final.of_committing (hr : (workers env).Reach Atomic (created env now) v)
    {snap : Finalize.Snapshot} (hm : .finalizeBatch (.committing snap) ∈ v.pool)
    (hg : Frame.Gathers env v.shared.store (.finalizeBatch (.committing snap))) :
    Final env { v.shared with
      db := (Commit.finalize snap.batch (Finalize.complete v.shared.now snap.batch)).apply
        v.shared.db } := by
  obtain ⟨hbatch, hrows⟩ := snapshot_of_reach hr _ hm
  obtain ⟨hresults, hmanifest⟩ := hg
  have hcomplete := snap.complete
  rw [hrows] at hcomplete hresults hmanifest
  push Not at hcomplete
  obtain ⟨hne, hall⟩ := hcomplete
  obtain ⟨hcompleted, hfailed⟩ := (counted_of_reach hr).exact hne hall
  have hchunks (new : Batch) :
      ((Commit.finalize snap.batch new).apply v.shared.db).chunks = v.shared.db.chunks := by
    have hid : ((Commit.finalize snap.batch new).apply v.shared.db).chunks.map id =
        v.shared.db.chunks.map id := Commit.map_chunks_apply rfl fun _ _ _ => rfl
    simpa using hid
  rw [hbatch] at hmanifest
  refine ⟨?_, ?_, ?_, ?_⟩ <;> dsimp only <;> rw [hchunks]
  · exact hne
  · exact hall
  · exact hresults
  · exact ⟨_, hmanifest, hcompleted, hfailed, by simp [Finalize.manifestOf, Function.comp_def,
      ManifestEntry.counts, BatchChunk.counts]⟩

/-- A completed batch is not finalized again. -/
theorem Final.put {put : Put} (h : Final env s) (hc : s.db.batch.status = .completed)
    (hs : frame.Snapshot env s.db s.now) (hp : Puts env frame put) :
    Final env { s with store := put.apply s.store } := by
  cases hp with
  | chunk => exact ⟨h.nonempty, h.succeeded, h.results, h.manifest⟩
  | @results snap | @manifest snap => exact absurd (.inl (hs.1 ▸ hc)) snap.unfinished

theorem Checkpointed.fire (hr : (workers env).Reach Atomic (created env now) v)
    (h : Checkpointed env v) (hatomic : Atomic v m) (hsplit : SplitKept env v m)
    (hkept : SuccessKept env v m) (hf : (workers env).fire v m = some v') :
    Checkpointed env v' := by
  have hagree := (agree_iff hr h.agree hf).mpr hsplit
  have hv := valid_of_reach hr
  rcases fire_cases hf with ⟨jobs, -, hdb, hstore, -, hpool⟩ |
    ⟨k, c, frame, e, rfl, hk, he, ⟨hcommit, hput⟩, hshared, hpool⟩
  · refine ⟨hagree, ?_, fun hc => ?_⟩
    · rw [hstore]
      exact forall_pool_of_queued hpool h.gathers fun _ => trivial
    · have hfinal := h.final (hdb ▸ hc)
      refine ⟨?_, ?_, ?_, ?_⟩
      · exact hdb ▸ hfinal.nonempty
      · exact hdb ▸ hfinal.succeeded
      · rw [hdb, hstore]; exact hfinal.results
      · rw [hdb, hstore]; exact hfinal.manifest
  · have hmem := List.mem_of_getElem? hk
    have hg := h.gathers frame hmem
    have hsnap := snapshot_of_reach hr frame hmem
    refine ⟨hagree, fun f hm => ?_, ?_⟩
    · rw [hshared]
      rcases List.mem_append.mp (hpool ▸ hm) with hm | hm
      · have hgf := h.gathers f (mem_of_mem_others hm)
        rcases shared_cases he with hsh | ⟨commit, hc, hsh⟩ | ⟨put, hp, hsh⟩ <;> rw [hsh]
        · exact hgf
        · exact hgf
        · cases hp with
          | chunk => exact hgf.put_chunk _ _
          | results | manifest => exact .of_not_busy (hatomic _ hk rfl f hm)
      · exact hg.frames h.agree hsnap he f hm
    · rw [hshared]
      intro hdone
      rcases write_cases he with ⟨-, hs⟩ | ⟨commit, ⟨hc, -⟩, hcommits, hs⟩ | ⟨put, -, hputs, hs⟩ <;>
        rw [hs] at hdone ⊢
      · exact h.final hdone
      · rcases hcommits.batch_cases v.shared.db.batch with ⟨-, hst⟩ | ⟨snap, rfl, -⟩
        · exact (h.final (hst hdone)).commit hv h.agree
            (transaction_of_commitOf hr (hcommit.trans hc))
            (fun i loaded new n hi => hsplit.2 i loaded new n (hcommit.trans (hi ▸ hc)))
            (hkept commit (hcommit.trans hc))
        · cases hcommits
          exact .of_committing hr hmem hg
      · exact (h.final hdone).put hdone hsnap hputs

/-- The manifest and the counters of the batch describe the rows of its results. -/
def Described (s : Shared) : Prop :=
  ∃ (m : Manifest) (segments : List (List Outcome)), s.store.manifest = some m ∧
    s.store.rows .results = some segments.flatten ∧
    m.chunks.map ManifestEntry.counts = segments.map splitOf ∧
    m.completedItems = segments.flatten.length ∧ m.failedItems = failCount segments.flatten ∧
    s.db.batch.completedItems = segments.flatten.length ∧
    s.db.batch.failedItems = failCount segments.flatten

theorem Final.described (hv : Valid env s) (hc : Counted env s.db) (h : Final env s) :
    Described s := by
  obtain ⟨segments, hresults, hsplits⟩ := h.results
  obtain ⟨m, hm, hcompleted, hfailed, hentries⟩ := h.manifest
  obtain ⟨hbcompleted, hbfailed⟩ := hc.exact h.nonempty h.succeeded
  have htotal := (recompute_total (hv.planned.resolve_left h.nonempty) h.nonempty hc.splits).2.mpr
    h.succeeded
  rw [completedItems_of_all h.succeeded] at htotal
  have hlength : segments.flatten.length = env.spec.totalItems := by
    rw [length_flatten_eq, hsplits, List.map_map, ← htotal]
    rfl
  have hfails : failCount segments.flatten = (s.db.chunks.map (·.failCount)).sum := by
    rw [failCount_flatten, hsplits, List.map_map]
    rfl
  exact ⟨m, segments, hm, hresults, hentries.trans hsplits.symm, hcompleted.trans hlength.symm,
    hfailed.trans hfails.symm, hbcompleted.trans hlength.symm, hbfailed.trans hfails.symm⟩

/-- Rows and objects agree throughout a serial run if and only if every step keeps the splits;
if besides no recorded chunk is given back, a completed batch describes its results. -/
theorem checkpoints_agree_iff {ms : List Moves}
    (hrun : (workers env).run Atomic (created env now) ms = some w) :
    ((workers env).Along (fun _ _ v => Agree v.shared) (created env now) ms ↔
        (workers env).Along (fun v m _ => SplitKept env v m) (created env now) ms) ∧
      ((workers env).Along (fun v m _ => SplitKept env v m ∧ SuccessKept env v m)
          (created env now) ms →
        w.shared.db.batch.status = .completed → Described w.shared) := by
  have hstart : Checkpointed env (created env now) := by
    refine ⟨?_, ?_, ?_⟩ <;> simp [created, Agree, Frame.Gathers]
  constructor
  · refine Along.congr (Q := fun v => (workers env).Reach Atomic (created env now) v ∧
      Agree v.shared) (.of_run hrun) ⟨.refl, hstart.agree⟩ fun v m v' hv hm hf => ?_
    exact ⟨agree_iff hv.1 hv.2 hf, fun h => ⟨hv.1.step hm hf, h⟩⟩
  · intro hkept hdone
    have hr := Reach.of_run hrun
    have hend : Checkpointed env w := by
      refine Reach.invariant (P := Checkpointed env) (fun v hv => hv.mono fun _ _ hm => hm.1)
        hstart ?_ (hkept.reach hrun)
      exact fun v m v' hr hx hm hf => hx.fire hr hm.1 hm.2.1 hm.2.2 hf
    exact (hend.final hdone).described (valid_of_reach hr) (counted_of_reach hr)

theorem checkpoints_agree_iff_completed : ∃ w,
    (workers (twoPrompts 1 5)).run Atomic (created (twoPrompts 1 5) 0) completedRun = some w ∧
    w.shared.db.batch.status = .completed ∧
    (((workers (twoPrompts 1 5)).Along (fun _ _ v => Agree v.shared)
          (created (twoPrompts 1 5) 0) completedRun ↔
        (workers (twoPrompts 1 5)).Along (fun v m _ => SplitKept (twoPrompts 1 5) v m)
          (created (twoPrompts 1 5) 0) completedRun) ∧
      ((workers (twoPrompts 1 5)).Along
          (fun v m _ => SplitKept (twoPrompts 1 5) v m ∧ SuccessKept (twoPrompts 1 5) v m)
          (created (twoPrompts 1 5) 0) completedRun →
        w.shared.db.batch.status = .completed → Described w.shared)) := by
  have hrun : ((workers (twoPrompts 1 5)).run Atomic (created (twoPrompts 1 5) 0)
      completedRun).map (·.shared.db.batch.status) = some .completed := by decide +kernel
  obtain ⟨w, hw, hstatus⟩ := Option.map_eq_some_iff.mp hrun
  exact ⟨w, hw, hstatus, checkpoints_agree_iff hw⟩

/-- A lease expires while its worker waits for the provider. The second worker succeeds with
two answers, then the first one puts an answer and a refusal under the same key. -/
def overwrittenRun : List Moves :=
  steps 0 7 ++ steps 1 3 ++ [.env (.tick 301)] ++ steps 0 1 ++ steps 1 6 ++ steps 2 1 ++
    steps 1 1 ++ steps 2 3 ++
    [.act 0 (.look 0), .act 2 (.reply 0 (answer true))] ++ replied 2 1 true ++ steps 2 1 ++
    [.act 1 (.look 0), .act 2 (.reply 0 (answer true))] ++ replied 2 1 false ++ steps 2 1 ++
    steps 1 1 ++ steps 2 5 ++ steps 1 1

/-- What is recorded of a batch of one chunk, and what is present. -/
structure Account where
  status : BatchStatus
  succeeded : List (Nat × Nat)
  object : Option (Nat × Nat)
  manifestFailed : Option Nat
  resultsFailed : Option Nat
  deriving DecidableEq, Repr

def account (w : World Shared Frame) : Account where
  status := w.shared.db.batch.status
  succeeded := (w.shared.db.chunks.filter (·.status = .succeeded)).map BatchChunk.counts
  object := (w.shared.store.rows (.chunk 0)).map splitOf
  manifestFailed := w.shared.store.manifest.map (·.failedItems)
  resultsFailed := (w.shared.store.rows .results).map failCount

/-- The first worker dies after its put: the batch completes with the first put's counts and
the second put's rows. -/
theorem overwritten_object_disagrees : ∃ w v,
    (workers (twoPrompts 2 5)).Reach Atomic (created (twoPrompts 2 5) 0) w ∧
    account w = ⟨.running, [(2, 0)], some (1, 1), none, none⟩ ∧
    (workers (twoPrompts 2 5)).Reach Atomic w v ∧
    account v = ⟨.completed, [(2, 0)], some (1, 1), some 0, some 1⟩ :=
  Reach.of_run_append account overwrittenRun ([.act 2 .crash] ++ steps 1 1 ++ steps 2 10)
    (by decide +kernel) (by decide +kernel)

end BatchInference
