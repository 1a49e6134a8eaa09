import BatchInference.Workers.Lifecycle
import BatchInference.Workers.Polling
import BatchInference.Workers.Published

/-!
# All batches of a deployment

The jobs of any number of batches on one database and one bucket. A job reads and writes the
rows of its own batch and the objects under its own prefix, but `reclaim_expired_leases` names
no batch: a transaction that runs it gives back the expired leases of all of them when it
commits, by the time at which it has asked for them. With atomic transactions each batch
nevertheless runs as if it were alone (`Alone`): what another batch's transaction gives back,
its own cron job could have given back when that transaction looked at the clock. Until such a
transaction ends, the clock of the batch that is looked at stands still.
-/

namespace BatchInference

open JobPool

/-! ## The bucket -/

/-- What an object holds. A results object is kept as its rows, as in `Store`. -/
inductive Content where
  | prompts (body : Bytes)
  | rows (rows : List Outcome)
  | manifest (manifest : Manifest)

def Content.rows? : Content → Option (List Outcome)
  | .rows content => some content
  | .prompts _ | .manifest _ => none

def Content.manifest? : Content → Option Manifest
  | .manifest content => some content
  | .prompts _ | .rows _ => none

abbrev Bucket := List Char → Option Content

/-- What a batch sees of the bucket. -/
def Bucket.store (bucket : Bucket) (batchId : String) : Store where
  rows key := (bucket (key.path batchId)).bind Content.rows?
  manifest := (bucket (manifestKey batchId)).bind Content.manifest?

def Put.key : Put → ObjectKey
  | .rows key _ => key
  | .manifest _ => .manifest

def Put.content : Put → Content
  | .rows _ content => .rows content
  | .manifest content => .manifest content

def Bucket.put (bucket : Bucket) (batchId : String) (put : Put) : Bucket :=
  Function.update bucket (put.key.path batchId) (some put.content)

theorem exists_slash (suffix : List Char) (h : suffix.head? = some '/') (id : String) :
    ∃ rest, batchPrefix id ++ suffix = "batches/".toList ++ (id.toList ++ '/' :: rest) := by
  obtain ⟨rest, rfl⟩ := List.head?_eq_some_iff.mp h
  refine ⟨rest, ?_⟩
  unfold batchPrefix
  exact List.append_assoc _ _ _

/-- An id is a ULID. -/
theorem ObjectKey.path_eq_iff {a b : String} (ha : '/' ∉ a.toList) (hb : '/' ∉ b.toList)
    {j k : ObjectKey} : j.path a = k.path b ↔ a = b ∧ j = k := by
  constructor
  · intro h
    have hsplit (key : ObjectKey) (id : String) :
        ∃ rest, key.path id = "batches/".toList ++ (id.toList ++ '/' :: rest) := by
      cases key with
      | prompts => exact exists_slash _ (by decide) id
      | results => exact exists_slash _ (by decide) id
      | manifest => exact exists_slash _ (by decide) id
      | chunk i =>
        have h := exists_slash ("/chunks/".toList ++ (pad6 i ++ ".ndjson".toList)) (by simp) id
        simpa only [path, chunkResultKey, List.append_assoc] using h
    obtain ⟨rest, hj⟩ := hsplit j a
    obtain ⟨rest', hk⟩ := hsplit k b
    rw [hj, hk, List.append_cancel_left_eq] at h
    obtain rfl := String.toList_inj.mp (Lines.append_separator_inj ha hb h).1
    exact ⟨rfl, path_injective a (by rw [hj, hk, h])⟩
  · rintro ⟨rfl, rfl⟩
    rfl

/-- Another batch's put. -/
theorem store_put_of_ne {a b : String} (ha : '/' ∉ a.toList) (hb : '/' ∉ b.toList) (h : a ≠ b)
    (bucket : Bucket) (put : Put) : (bucket.put a put).store b = bucket.store b := by
  have hother (key : ObjectKey) : bucket.put a put (key.path b) = bucket (key.path b) := by
    refine Function.update_of_ne (fun heq => h ?_) ..
    exact ((ObjectKey.path_eq_iff hb ha).mp heq).1.symm
  have hmanifest : bucket.put a put (manifestKey b) = bucket (manifestKey b) := hother .manifest
  simp [Bucket.store, hother, hmanifest]

variable {env : Env} {s : Shared} {frame f : Frame} {c : Choice} {e : Effect Frame}

/-- The batch's own put. -/
theorem store_put {put : Put} (h : Puts env frame put) (bucket : Bucket) (id : String)
    (hrows : (bucket.store id).rows .manifest = none) :
    (bucket.put id put).store id = put.apply (bucket.store id) := by
  have hself : bucket.put id put (put.key.path id) = some put.content := Function.update_self ..
  have hother (key : ObjectKey) (hne : key ≠ put.key) :
      bucket.put id put (key.path id) = bucket (key.path id) :=
    Function.update_of_ne (fun heq => hne (ObjectKey.path_injective id heq)) ..
  have hrest (hne : ObjectKey.manifest ≠ put.key) :
      bucket.put id put (manifestKey id) = bucket (manifestKey id) := hother .manifest hne
  have key_eq (key : ObjectKey) (content : List Outcome) (hput : put = .rows key content)
      (hne : ObjectKey.manifest ≠ key) :
      (bucket.put id put).store id = put.apply (bucket.store id) := by
    subst hput
    simp only [Bucket.store, hrest hne, Put.apply, Store.mk.injEq, and_true]
    funext other
    by_cases heq : other = key
    · rw [if_pos heq, heq]
      exact congrArg (Option.bind · Content.rows?) hself
    · rw [if_neg heq, hother other heq]
  cases h with
  | chunk => exact key_eq _ _ rfl (by simp)
  | results => exact key_eq _ _ rfl (by simp)
  | manifest =>
    simp only [Bucket.store, Put.apply, Store.mk.injEq]
    constructor
    · funext key
      by_cases heq : key = .manifest
      · rw [heq]
        exact (congrArg (Option.bind · Content.rows?) hself).trans hrows.symm
      · rw [hother key heq]
    · exact congrArg (Option.bind · Content.manifest?) hself

theorem puts_of_step (h : frame.step env s c = some e) {put : Put} (hp : e.put = some put) :
    Puts env frame put := by
  rcases write_cases h with ⟨⟨-, hnone⟩, -⟩ | ⟨_, ⟨-, hnone⟩, -⟩ | ⟨put', ⟨-, hput⟩, hputs, -⟩
  · simp [hnone] at hp
  · simp [hnone] at hp
  · obtain rfl := Option.some.inj (hput.symm.trans hp)
    exact hputs

/-- No job puts a prompts object. -/
theorem prompts_put {a b : String} (ha : '/' ∉ a.toList) (hb : '/' ∉ b.toList) {put : Put}
    (h : Puts env frame put) (bucket : Bucket) :
    bucket.put a put (promptsKey b) = bucket (promptsKey b) := by
  have hne : ObjectKey.prompts ≠ put.key := by cases h <;> simp [Put.key]
  exact Function.update_of_ne (fun heq => hne
    (((ObjectKey.path_eq_iff hb ha).mp heq).2 : ObjectKey.prompts = put.key)) ..

theorem unset_put {put : Put} (h : Puts env frame put) (store : Store) :
    (put.apply store).rows .manifest = store.rows .manifest := by
  cases h <;> simp [Put.apply]

/-! ## The deployment -/

/-- The time by which the transaction gives back the expired leases of all batches. -/
def Commit.reclaims : Commit → Option Int
  | .orchestrate _ _ _ now | .check _ _ now | .reclaim now => some now
  | _ => none

structure Cluster (β : Type) where
  db : β → Db
  bucket : Bucket
  now : Int

/-- A job in the queue or under way, with its `batch_id`. -/
abbrev ClusterJob (β : Type) := β × Frame

inductive ClusterOutside (β : Type) where
  | arrive (batch : β) (job : Job)
  | tick (seconds : Nat)

namespace Cluster

variable {β : Type}

/-- What the jobs of a batch read. -/
def view (envs : β → Env) (s : Cluster β) (batch : β) : Shared where
  db := s.db batch
  store := s.bucket.store (envs batch).spec.id
  now := s.now

variable [DecidableEq β]

/-- The transaction of a job of `batch`. -/
def commit (batch : β) (commit : Commit) (s : Cluster β) : Cluster β :=
  { s with db := fun other =>
      if other = batch then commit.apply (s.db batch)
      else match commit.reclaims with
        | some now => { s.db other with chunks := reclaimExpiredLeases now (s.db other).chunks }
        | none => s.db other }

def put (batchId : String) (put : Put) (s : Cluster β) : Cluster β :=
  { s with bucket := s.bucket.put batchId put }

/-- What a step of a job of `batch` writes. -/
def write (envs : β → Env) (batch : β) (e : Effect Frame) (s : Cluster β) : Cluster β :=
  let s := e.commit.elim s fun c => s.commit batch c
  e.put.elim s fun p => s.put (envs batch).spec.id p

section Write

variable {envs : β → Env} {batch : β} {e : Effect Frame} {s : Cluster β}

theorem now_write : (s.write envs batch e).now = s.now := by
  unfold write
  cases e.commit <;> cases e.put <;> rfl

theorem bucket_write : (s.write envs batch e).bucket =
    e.put.elim s.bucket (s.bucket.put (envs batch).spec.id) := by
  unfold write
  cases e.commit <;> cases e.put <;> rfl

theorem db_write : (s.write envs batch e).db batch = (e.shared (s.view envs batch)).db := by
  unfold write
  cases hc : e.commit <;> cases e.put <;> simp [Effect.shared, hc, view, commit, put]

theorem db_write_of_ne {other : β} (h : other ≠ batch) : (s.write envs batch e).db other =
    match e.commit.bind Commit.reclaims with
    | some now => { s.db other with chunks := reclaimExpiredLeases now (s.db other).chunks }
    | none => s.db other := by
  unfold write
  cases e.commit <;> cases e.put <;> simp [commit, put, h]

end Write

end Cluster

variable {β : Type} [DecidableEq β]

/-- The jobs of all batches. -/
def deployment (envs : β → Env) :
    System (Cluster β) (ClusterJob β) Choice (ClusterOutside β) where
  step c s job := (job.2.step (envs job.1) (s.view envs job.1) c).map fun e =>
    (s.write envs job.1 e, e.frames.map (job.1, ·))
  env
    | .arrive batch job, s => some (s, [(batch, .queued job)])
    | .tick seconds, s => some ({ s with now := s.now + seconds }, [])

/-- The batches have been created, and their orchestrations enqueued. -/
def deployed (envs : β → Env) (batches : List β) (now : Int) :
    World (Cluster β) (ClusterJob β) where
  shared :=
    { db := fun batch => (created (envs batch) now).shared.db
      bucket := fun path =>
        (batches.find? fun batch => path = promptsKey (envs batch).spec.id).map fun batch =>
          .prompts (envs batch).spec.prompts
      now := now }
  pool := batches.map fun batch => (batch, .queued .orchestrateBatch)

abbrev ClusterMoves (β : Type) := Move Choice (ClusterOutside β)

/-- Transactions are atomic, those of different batches too. -/
abbrev ClusterAtomic : World (Cluster β) (ClusterJob β) → ClusterMoves β → Prop :=
  System.Serial (fun job => job.2.busy) fun job => job.2.touches

/-- The jobs of a batch. -/
def jobsOfBatch (batch : β) (pool : List (ClusterJob β)) : List Frame :=
  (pool.filter fun job => job.1 = batch).map Prod.snd

/-! ## What waits for its commit -/

/-- When the transaction has asked for the expired leases. -/
def Frame.captured : Frame → Option Int
  | .orchestrateBatch (.reclaimed _ _ _ _ now) => some now
  | .checkBatchCompletion _ (.reclaimed _ now) => some now
  | .checkBatchCompletion _ (.counted _ now _) => some now
  | _ => none

theorem busy_of_captured {t : Int} (h : frame.captured = some t) : frame.busy = true := by
  cases frame with
  | orchestrateBatch pc => cases pc <;> first | rfl | cases h
  | checkBatchCompletion deferBy pc => cases pc <;> first | rfl | cases h
  | _ => cases h

/-- A step outside transactions does not look at the clock. -/
theorem step_of_not_touches (h : frame.touches = false) (s : Shared) (now : Int) (c : Choice) :
    frame.step env { s with now := now } c = frame.step env s c := by
  cases c with
  | next =>
    cases frame with
    | queued => cases h
    | orchestrateBatch pc =>
      cases pc with
      | enqueueing chunkIds => cases chunkIds <;> rfl
      | _ => cases h
    | processChunk i deferBy pc =>
      cases pc with
      | gotBatch | leased => cases h
      | body chunk pc => cases pc <;> rfl
      | handler chunk exc pc => cases pc <;> first | rfl | cases h
    | checkBatchCompletion deferBy pc => cases pc <;> first | rfl | cases h
    | finalizeBatch pc => cases pc <;> first | rfl | cases h
    | deliverBatchWebhook event deferBy pc => cases pc <;> rfl
    | cancelBatch => cases h
  | _ => rfl

theorem captured_of_step (h : frame.step env s c = some e) (hm : f ∈ e.frames) {t : Int}
    (ht : f.captured = some t) : e.commit = none ∧
      (frame.captured = some t ∨
        frame.captured = none ∧ frame.touches = true ∧ t = s.now) := by
  have uncommitted (hnone : ∀ commit, ¬ Commits env s frame commit) : e.commit = none := by
    cases hcommit : e.commit with
    | none => rfl
    | some commit => exact absurd (commits_of_step h hcommit) (hnone commit)
  cases f with
  | orchestrateBatch pc =>
    cases pc with
    | reclaimed loaded startedAt rows fresh now =>
      obtain ⟨-, _, hpc⟩ | ⟨pc₀, rfl, hpc⟩ := orchestrateBatch_of_step h hm
      · cases hpc
      · cases pc₀ with
        | planned =>
          cases hpc
          cases ht
          exact ⟨uncommitted (by rintro _ ⟨⟩), .inr ⟨rfl, rfl, rfl⟩⟩
        | gotBatch | reclaimed =>
          simp only [Orchestrate.step] at hpc
          split at hpc <;> cases hpc
        | enqueueing chunkIds => cases chunkIds <;> cases hpc
    | _ => cases ht
  | checkBatchCompletion deferBy pc =>
    obtain ⟨-, loaded, rfl⟩ | ⟨pc₀, rfl, -, hpc⟩ := checkBatchCompletion_of_step h hm
    · cases ht
    · cases pc₀ with
      | gotBatch =>
        cases hpc
        cases ht
        exact ⟨uncommitted (by rintro _ ⟨⟩), .inr ⟨rfl, rfl, rfl⟩⟩
      | reclaimed =>
        cases hpc
        cases ht
        exact ⟨uncommitted (by rintro _ ⟨⟩), .inl rfl⟩
      | counted =>
        simp only [CheckCompletion.step] at hpc
        split_ifs at hpc <;> cases hpc <;> cases ht
      | requeueing unleased todo => cases todo <;> cases hpc <;> cases ht
      | selectPending => cases hpc; cases ht
      | announceFailed | enqueueFinalize | repoll => cases hpc
  | _ => cases ht

/-- A transaction gives leases back by the time that it has captured; the cron job commits in
the step in which it looks at the clock. -/
theorem captured_of_reclaims {commit : Commit} (h : Commits env s frame commit) {t : Int}
    (ht : commit.reclaims = some t) :
    frame.captured = some t ∨ frame.captured = none ∧ t = s.now := by
  cases h with
  | orchestrate | exhausted | checked => exact .inl ht
  | reclaim => exact .inr ⟨rfl, (Option.some.inj ht).symm⟩
  | _ => cases ht

theorem reclaim_apply (db : Db) (now : Int) : (Commit.reclaim now).apply db =
    { db with chunks := reclaimExpiredLeases now db.chunks } := by
  have hchunks : ((Commit.reclaim now).apply db).chunks = reclaimExpiredLeases now db.chunks := by
    refine List.ext_getElem? fun i => ?_
    simp [Commit.getElem?_chunks_apply, Commit.inserted, Commit.onRow, reclaimExpiredLeases]
  rw [← hchunks]
  rfl

/-! ## The jobs of one batch -/

variable {batch other : β} {pool : List (ClusterJob β)}

theorem mem_jobsOfBatch : f ∈ jobsOfBatch batch pool ↔ (batch, f) ∈ pool := by
  simp [jobsOfBatch]

@[simp] theorem jobsOfBatch_append (pool pool' : List (ClusterJob β)) :
    jobsOfBatch batch (pool ++ pool') = jobsOfBatch batch pool ++ jobsOfBatch batch pool' := by
  simp [jobsOfBatch]

@[simp] theorem jobsOfBatch_self (frames : List Frame) :
    jobsOfBatch batch (frames.map (batch, ·)) = frames := by
  simp [jobsOfBatch, List.filter_map, Function.comp_def]

theorem jobsOfBatch_of_ne (h : other ≠ batch) (frames : List Frame) :
    jobsOfBatch batch (frames.map (other, ·)) = [] := by
  simp [jobsOfBatch, h]

/-! ## Batches apart -/

/-- The ids are different ULIDs. -/
structure Ids (envs : β → Env) : Prop where
  slash : ∀ batch, '/' ∉ (envs batch).spec.id.toList
  distinct : ∀ a b, (envs a).spec.id = (envs b).spec.id → a = b

variable {envs : β → Env} {now : Int} {W W' : World (Cluster β) (ClusterJob β)}
  {w w' : World Shared Frame} {k : Nat}

/-- The world of the batch `batch` in the deployment, with a clock that may be late. -/
structure Follows (envs : β → Env) (batch : β) (W : World (Cluster β) (ClusterJob β))
    (w : World Shared Frame) : Prop where
  db : w.shared.db = W.shared.db batch
  store : w.shared.store = W.shared.bucket.store (envs batch).spec.id
  pool : w.pool = jobsOfBatch batch W.pool
  le : w.shared.now ≤ W.shared.now
  prompts : W.shared.bucket (promptsKey (envs batch).spec.id) =
    some (.prompts (envs batch).spec.prompts)
  unset : (W.shared.bucket.store (envs batch).spec.id).rows .manifest = none

/-- The clock stands still while another batch's transaction is to give back leases by it. -/
structure Alone (envs : β → Env) (batch : β) (W : World (Cluster β) (ClusterJob β))
    (w : World Shared Frame) : Prop extends Follows envs batch W w where
  captured : ∀ job ∈ W.pool, job.1 ≠ batch → ∀ t ∈ job.2.captured, w.shared.now = t
  clock : (∀ job ∈ W.pool, job.1 ≠ batch → job.2.captured = none) →
    w.shared.now = W.shared.now

/-- When no other batch's transaction waits, the clock catches up. -/
theorem Follows.settle (h : Follows envs batch W w)
    (hnone : ∀ job ∈ W.pool, job.1 ≠ batch → job.2.captured = none) :
    ∃ w', (workers (envs batch)).Reach Atomic w w' ∧ Alone envs batch W w' := by
  obtain ⟨seconds, hseconds⟩ := Int.eq_ofNat_of_zero_le (Int.sub_nonneg_of_le h.le)
  have hnow : w.shared.now + seconds = W.shared.now := by omega
  have hf : (workers (envs batch)).fire w (.env (.tick seconds)) =
      some ⟨{ w.shared with now := w.shared.now + seconds }, w.pool ++ []⟩ := rfl
  have hm : Atomic w (.env (.tick seconds)) := trivial
  refine ⟨_, System.Reach.refl.step hm hf, ?_⟩
  exact
    { db := h.db
      store := h.store
      pool := (List.append_nil _).trans h.pool
      le := hnow.le
      prompts := h.prompts
      unset := h.unset
      captured := fun job hm hne t ht => by simp [hnone job hm hne] at ht
      clock := fun _ => hnow }

omit [DecidableEq β] in
/-- No other transaction is open while a job moves in one of its own. -/
theorem not_captured_of_touches {job : ClusterJob β} (hok : ClusterAtomic W (.act k c))
    (hk : W.pool[k]? = some job) (ht : job.2.touches = true) :
    ∀ other ∈ System.others W k, other.2.captured = none := by
  intro other hm
  have hidle := hok job hk ht other hm
  cases hcaptured : other.2.captured with
  | none => rfl
  | some t => simp [busy_of_captured hcaptured] at hidle

/-- The batch's own job moves. -/
theorem Alone.own (h : Alone envs batch W w) (hids : Ids envs)
    (hk : W.pool[k]? = some (batch, frame)) (hok : ClusterAtomic W (.act k c))
    (he : frame.step (envs batch) (W.shared.view envs batch) c = some e) :
    ∃ w', (workers (envs batch)).Reach Atomic w w' ∧ Alone envs batch
      ⟨W.shared.write envs batch e, System.others W k ++ e.frames.map (batch, ·)⟩ w' := by
  have foreign : ∀ job ∈ W.pool, job.1 ≠ batch → job ∈ System.others W k := by
    intro job hm hne
    rcases (System.mem_iff_others hk job).mp hm with rfl | hm
    · exact absurd rfl hne
    · exact hm
  have hview : { W.shared.view envs batch with now := w.shared.now } = w.shared := by
    rw [Cluster.view, ← h.db, ← h.store]
  have hstep : frame.step (envs batch) w.shared c = some e := by
    rw [← hview]
    cases ht : frame.touches with
    | false => rwa [step_of_not_touches ht]
    | true =>
      have hnow : w.shared.now = W.shared.now := h.clock fun job hm hne =>
        not_captured_of_touches hok hk ht job (foreign job hm hne)
      rwa [hnow]
  obtain ⟨j, hj, hothers⟩ := System.exists_filter_others (p := fun job => job.1 = batch) hk
    (decide_eq_true rfl)
  have hj' : w.pool[j]? = some frame := by
    rw [h.pool, jobsOfBatch, List.getElem?_map, hj]
    rfl
  have hrest : System.others w j = jobsOfBatch batch (System.others W k) := by
    rw [System.others, h.pool, jobsOfBatch, List.eraseIdx_map, hothers]
    rfl
  have hatomic : Atomic w (.act j c) := by
    intro f hf htouches g hg
    rw [hj'] at hf
    cases hf
    rw [hrest, mem_jobsOfBatch] at hg
    exact hok _ hk htouches _ hg
  have hf : (workers (envs batch)).fire w (.act j c) =
      some ⟨e.shared w.shared, System.others w j ++ e.frames⟩ := by
    simp [System.fire, hj', workers, hstep]
  have hput : ∀ put, e.put = some put → Puts (envs batch) frame put := fun put => puts_of_step he
  have others : ∀ job ∈ System.others W k ++ e.frames.map (batch, ·), job.1 ≠ batch →
      job ∈ W.pool := by
    intro job hm hne
    rcases List.mem_append.mp hm with hm | hm
    · exact System.mem_of_mem_others hm
    · obtain ⟨f, -, rfl⟩ := List.mem_map.mp hm
      exact absurd rfl hne
  refine ⟨_, System.Reach.refl.step hatomic hf, ?_⟩
  exact
    { db := by rw [Cluster.db_write, ← hview]; rfl
      store := by
        rw [Cluster.bucket_write]
        cases hp : e.put with
        | none => simp [Effect.shared, hp, h.store]
        | some put =>
          simp [Effect.shared, hp, h.store, store_put (hput put hp) _ _ h.unset]
      pool := by
        rw [jobsOfBatch_append, jobsOfBatch_self, hrest]
      le := by
        rw [Cluster.now_write]
        exact h.le
      prompts := by
        rw [Cluster.bucket_write]
        cases hp : e.put with
        | none => exact h.prompts
        | some put =>
          exact (prompts_put (hids.slash _) (hids.slash _) (hput put hp) _).trans h.prompts
      unset := by
        rw [Cluster.bucket_write]
        cases hp : e.put with
        | none => exact h.unset
        | some put =>
          rw [Option.elim_some, store_put (hput put hp) _ _ h.unset, unset_put (hput put hp)]
          exact h.unset
      captured := fun job hm hne => h.captured job (others job hm hne) hne
      clock := fun hnone => by
        rw [Cluster.now_write]
        exact h.clock fun job hm hne =>
          hnone job (List.mem_append_left _ (foreign job hm hne)) hne }

/-- The cron job gives back the leases that have expired by now. -/
theorem reach_reclaim {env : Env} (w : World Shared Frame)
    (hidle : ∀ f ∈ w.pool, f.busy = false) :
    (workers env).Reach Atomic w
      ⟨{ w.shared with db := (Commit.reclaim w.shared.now).apply w.shared.db }, w.pool⟩ := by
  let u : World Shared Frame := ⟨w.shared, w.pool ++ [.queued .reclaimLeasesCron]⟩
  have harrive : (workers env).fire w (.env (.arrive .reclaimLeasesCron)) = some u := rfl
  have hstep : (workers env).step .next w.shared (.queued .reclaimLeasesCron) =
      some ({ w.shared with db := (Commit.reclaim w.shared.now).apply w.shared.db }, []) := rfl
  have hfire := System.fire_last w.pool hstep
  rw [List.append_nil] at hfire
  have hatomic : Atomic u (.act w.pool.length .next) := by
    intro f _ _ g hg
    rw [System.others_last] at hg
    exact hidle g hg
  have hm : Atomic w (.env (.arrive .reclaimLeasesCron)) := trivial
  exact (System.Reach.refl.step hm harrive).step hatomic hfire

/-- Another batch's job leaves the objects and the jobs of the batch alone. -/
theorem Follows.foreign (h : Follows envs batch W w) (hids : Ids envs) (hne : other ≠ batch)
    (hk : W.pool[k]? = some (other, frame))
    (he : frame.step (envs other) (W.shared.view envs other) c = some e)
    (hdb : w'.shared.db = (W.shared.write envs other e).db batch)
    (hstore : w'.shared.store = w.shared.store) (hpool : w'.pool = w.pool)
    (hnow : w'.shared.now = w.shared.now) :
    Follows envs batch
      ⟨W.shared.write envs other e, System.others W k ++ e.frames.map (other, ·)⟩ w' := by
  have hid : (envs other).spec.id ≠ (envs batch).spec.id := fun heq => hne (hids.distinct _ _ heq)
  have hbucket : (W.shared.write envs other e).bucket.store (envs batch).spec.id =
      W.shared.bucket.store (envs batch).spec.id := by
    rw [Cluster.bucket_write]
    cases e.put with
    | none => rfl
    | some put => exact store_put_of_ne (hids.slash _) (hids.slash _) hid _ put
  exact
    { db := hdb
      store := by rw [hstore, h.store, hbucket]
      pool := by
        have hothers : jobsOfBatch batch (System.others W k) = jobsOfBatch batch W.pool :=
          congrArg (List.map Prod.snd) (System.filter_others_of_not hk (decide_eq_false hne))
        rw [hpool, h.pool, jobsOfBatch_append, jobsOfBatch_of_ne hne, List.append_nil, hothers]
      le := by
        rw [hnow, Cluster.now_write]
        exact h.le
      prompts := by
        rw [Cluster.bucket_write]
        cases hp : e.put with
        | none => exact h.prompts
        | some put =>
          exact (prompts_put (hids.slash _) (hids.slash _) (puts_of_step he hp) _).trans h.prompts
      unset := by
        rw [hbucket]
        exact h.unset }

/-- Another batch's job moves. -/
theorem Alone.foreign (h : Alone envs batch W w) (hids : Ids envs) (hne : other ≠ batch)
    (hk : W.pool[k]? = some (other, frame)) (hok : ClusterAtomic W (.act k c))
    (he : frame.step (envs other) (W.shared.view envs other) c = some e) :
    ∃ w', (workers (envs batch)).Reach Atomic w w' ∧ Alone envs batch
      ⟨W.shared.write envs other e, System.others W k ++ e.frames.map (other, ·)⟩ w' := by
  have hmem : (other, frame) ∈ W.pool := List.mem_of_getElem? hk
  -- Where the transaction asks for the leases, no other one is open and the clocks agree.
  have caught (ht : frame.touches = true) (hnone : frame.captured = none) :
      w.shared.now = W.shared.now := by
    refine h.clock fun job hm _ => ?_
    rcases (System.mem_iff_others hk job).mp hm with rfl | hm
    · exact hnone
    · exact not_captured_of_touches hok hk ht job hm
  cases hreclaims : e.commit.bind Commit.reclaims with
  | some t =>
    obtain ⟨commit, hcommit, ht⟩ := Option.bind_eq_some_iff.mp hreclaims
    have hcommits := commits_of_step he hcommit
    have hothers := not_captured_of_touches hok hk hcommits.touches
    have hnow : w.shared.now = t := by
      obtain hcaptured | ⟨hnone, rfl⟩ := captured_of_reclaims hcommits ht
      · exact h.captured _ hmem hne t hcaptured
      · exact caught hcommits.touches hnone
    have hidle : ∀ f ∈ w.pool, f.busy = false := by
      intro f hf
      rw [h.pool, mem_jobsOfBatch] at hf
      rcases (System.mem_iff_others hk _).mp hf with heq | hf
      · exact absurd (congrArg Prod.fst heq).symm hne
      · exact hok _ hk hcommits.touches _ hf
    have hfollows : Follows envs batch
        ⟨W.shared.write envs other e, System.others W k ++ e.frames.map (other, ·)⟩
        ⟨{ w.shared with db := (Commit.reclaim w.shared.now).apply w.shared.db }, w.pool⟩ :=
      h.toFollows.foreign hids hne hk he
        (by rw [Cluster.db_write_of_ne hne.symm, hreclaims, reclaim_apply, h.db, hnow])
        rfl rfl rfl
    obtain ⟨w', hreach, hw'⟩ := hfollows.settle fun job hm _ => by
      rcases List.mem_append.mp hm with hm | hm
      · exact hothers job hm
      · obtain ⟨f, hf, rfl⟩ := List.mem_map.mp hm
        cases hcaptured : f.captured with
        | none => rfl
        | some t => simp [(captured_of_step he hf hcaptured).1] at hcommit
    exact ⟨w', (reach_reclaim w hidle).trans hreach, hw'⟩
  | none =>
    have hfollows : Follows envs batch
        ⟨W.shared.write envs other e, System.others W k ++ e.frames.map (other, ·)⟩ w :=
      h.toFollows.foreign hids hne hk he
        (by rw [Cluster.db_write_of_ne hne.symm, hreclaims, h.db]) rfl rfl rfl
    by_cases hnone : ∀ job ∈ System.others W k ++ e.frames.map (other, ·),
        job.1 ≠ batch → job.2.captured = none
    · exact hfollows.settle hnone
    · refine ⟨w, .refl, ?_⟩
      exact
        { toFollows := hfollows
          captured := by
            intro job hm hjob t ht
            rcases List.mem_append.mp hm with hm | hm
            · exact h.captured job (System.mem_of_mem_others hm) hjob t ht
            · obtain ⟨f, hf, rfl⟩ := List.mem_map.mp hm
              obtain ⟨-, hcaptured | ⟨hfree, htouches, rfl⟩⟩ := captured_of_step he hf ht
              · exact h.captured _ hmem hne t hcaptured
              · exact caught htouches hfree
          clock := fun hfree => absurd hfree hnone }

/-- Other code enqueues a job, or time passes. -/
theorem Alone.outside (h : Alone envs batch W w) {move : ClusterOutside β}
    (hf : (deployment envs).fire W (.env move) = some W') :
    ∃ w', (workers (envs batch)).Reach Atomic w w' ∧ Alone envs batch W' w' := by
  obtain ⟨r, hr, rfl⟩ := System.fire_env_iff.mp hf
  cases move with
  | arrive other job =>
    obtain rfl := Option.some.inj hr
    have waiting : ∀ arrived ∈ W.pool ++ [(other, Frame.queued job)],
        arrived.1 ≠ batch → ∀ t ∈ arrived.2.captured, w.shared.now = t := by
      intro arrived hm hne t ht
      rcases List.mem_append.mp hm with hm | hm
      · exact h.captured arrived hm hne t ht
      · obtain rfl := List.mem_singleton.mp hm
        cases ht
    have hclock : (∀ arrived ∈ W.pool ++ [(other, Frame.queued job)],
        arrived.1 ≠ batch → arrived.2.captured = none) → w.shared.now = W.shared.now :=
      fun hnone => h.clock fun arrived hm => hnone arrived (List.mem_append_left _ hm)
    by_cases hbatch : other = batch
    · subst hbatch
      have hm : Atomic w (.env (.arrive job)) := trivial
      refine ⟨⟨w.shared, w.pool ++ [.queued job]⟩, System.Reach.refl.step hm rfl, ?_⟩
      exact
        { h with
          pool := by
            rw [jobsOfBatch_append, h.pool]
            exact congrArg _ (jobsOfBatch_self [Frame.queued job]).symm
          captured := waiting
          clock := hclock }
    · refine ⟨w, .refl, ?_⟩
      exact
        { h with
          pool := by
            rw [jobsOfBatch_append, h.pool]
            exact (congrArg _ (jobsOfBatch_of_ne hbatch [Frame.queued job])).trans
              (List.append_nil _) |>.symm
          captured := waiting
          clock := hclock }
  | tick seconds =>
    obtain rfl := Option.some.inj hr
    have hfollows : Follows envs batch
        ⟨{ W.shared with now := W.shared.now + seconds }, W.pool ++ []⟩ w :=
      { h.toFollows with
        pool := h.pool.trans (congrArg _ (List.append_nil _).symm)
        le := h.le.trans (Int.le_add_of_nonneg_right (Int.natCast_nonneg _)) }
    by_cases hnone : ∀ job ∈ W.pool ++ [], job.1 ≠ batch → job.2.captured = none
    · exact hfollows.settle hnone
    · refine ⟨w, .refl, ?_⟩
      exact
        { toFollows := hfollows
          captured := fun job hm => h.captured job (by simpa using hm)
          clock := fun hfree => absurd hfree hnone }

/-- Every move of the deployment is answered by a run of the batch. -/
theorem Alone.fire (h : Alone envs batch W w) (hids : Ids envs) {m : ClusterMoves β}
    (hok : ClusterAtomic W m) (hf : (deployment envs).fire W m = some W') :
    ∃ w', (workers (envs batch)).Reach Atomic w w' ∧ Alone envs batch W' w' := by
  cases m with
  | env move => exact h.outside hf
  | act k c =>
    obtain ⟨⟨other, frame⟩, r, hk, hs, rfl⟩ := System.fire_act_iff.mp hf
    obtain ⟨e, he, rfl⟩ := Option.map_eq_some_iff.mp hs
    by_cases hbatch : other = batch
    · subst hbatch
      exact h.own hids hk hok he
    · exact h.foreign hids hbatch hk hok he

omit [DecidableEq β] in
theorem store_deployed (batches : List β) (id : String) :
    (deployed envs batches now).shared.bucket.store id = .empty := by
  have hnone {γ : Type} (read : Content → Option γ) (hread : ∀ body, read (.prompts body) = none)
      (path : List Char) : ((deployed envs batches now).shared.bucket path).bind read = none := by
    simp only [deployed]
    cases batches.find? fun batch => path = promptsKey (envs batch).spec.id <;> simp [hread]
  simp only [Bucket.store, Store.empty, Store.mk.injEq]
  exact ⟨funext fun key => hnone _ (fun _ => rfl) _, hnone _ (fun _ => rfl) _⟩

theorem alone_deployed (hids : Ids envs) {batches : List β} (hnodup : batches.Nodup)
    (hbatch : batch ∈ batches) (now : Int) :
    Alone envs batch (deployed envs batches now) (created (envs batch) now) := by
  have hqueued : ∀ job ∈ (deployed envs batches now).pool, job.2.captured = none := by
    intro job hm
    obtain ⟨_, -, rfl⟩ := List.mem_map.mp hm
    rfl
  exact
    { db := rfl
      store := (store_deployed batches _).symm
      pool := by
        have hone : batches.filter (fun other => other = batch) = [batch] := by
          rw [List.filter_eq, List.count_eq_one_of_mem hnodup hbatch]
          rfl
        simp only [deployed, jobsOfBatch, List.filter_map, Function.comp_def, hone]
        rfl
      le := le_rfl
      prompts := by
        have hfind : batches.find? (fun other =>
            promptsKey (envs batch).spec.id = promptsKey (envs other).spec.id) = some batch := by
          have hsome : (batches.find? fun other =>
              promptsKey (envs batch).spec.id = promptsKey (envs other).spec.id).isSome :=
            List.find?_isSome.mpr ⟨batch, hbatch, decide_eq_true rfl⟩
          obtain ⟨found, hfound⟩ := Option.isSome_iff_exists.mp hsome
          have hkey : promptsKey (envs batch).spec.id = promptsKey (envs found).spec.id := by
            simpa using List.find?_some hfound
          have hid := ((ObjectKey.path_eq_iff (j := .prompts) (k := .prompts) (hids.slash _)
            (hids.slash _)).mp hkey).1
          rw [hfound, hids.distinct _ _ hid]
        simp only [deployed, hfind]
        rfl
      unset := by
        rw [store_deployed]
        rfl
      captured := fun job hm _ t ht => by simp [hqueued job hm] at ht
      clock := fun _ => rfl }

/-- In every run of a deployment in which transactions are atomic, the rows, the objects and
the jobs of each batch go through what they go through in a run of this batch alone, with the
clock at most as far. The prompts object of the batch is never replaced. -/
theorem batch_alone {envs : β → Env} {batches : List β} {now : Int} (hids : Ids envs)
    (hnodup : batches.Nodup) (hbatch : batch ∈ batches)
    (h : (deployment envs).Reach ClusterAtomic (deployed envs batches now) W)
    (h' : (deployment envs).Reach ClusterAtomic W W') :
    ∃ w w', (workers (envs batch)).Reach Atomic (created (envs batch) now) w ∧
      (workers (envs batch)).Reach Atomic w w' ∧
      Follows envs batch W w ∧ Follows envs batch W' w' := by
  obtain ⟨w, hw, halone⟩ := h.simulated (fun _ _ _ _ ha hok hf => ha.fire hids hok hf)
    (alone_deployed hids hnodup hbatch now)
  obtain ⟨w', hw', halone'⟩ := h'.simulated (fun _ _ _ _ ha hok hf => ha.fire hids hok hf) halone
  exact ⟨w, w', hw, hw', halone.toFollows, halone'.toFollows⟩

/-- What holds of a batch that is alone holds of each batch of the deployment, by its clock. -/
theorem dated_of_deployed {batches : List β} (hids : Ids envs) (hnodup : batches.Nodup)
    (hbatch : batch ∈ batches)
    (h : (deployment envs).Reach ClusterAtomic (deployed envs batches now) W) :
    Dated W.shared.now (W.shared.db batch) := by
  obtain ⟨w, hw, halone⟩ := h.simulated (fun _ _ _ _ ha hok hf => ha.fire hids hok hf)
    (alone_deployed hids hnodup hbatch now)
  rw [← halone.db]
  exact (dated_of_reach hw).mono halone.le

/-- Two batches of two prompts. -/
def twoBatches (batch : Bool) : Env :=
  { twoPrompts 2 5 with
    spec := { (twoPrompts 2 5).spec with id := if batch then "01" else "02" } }

theorem ids_twoBatches : Ids twoBatches where
  slash := by decide
  distinct := by decide

/-- The leases of the first batch. -/
def firstLeases (W : World (Cluster Bool) (ClusterJob Bool)) : List (ChunkStatus × Option Int) :=
  (W.shared.db true).chunks.map fun c => (c.status, c.leasedUntil)

/-- The first batch's lease has expired at 300. At 301 the other batch's orchestration asks for
the expired leases, and five seconds later it commits: the chunk of the first batch is pending
again, in a run of that batch alone too. -/
theorem batch_alone_twoBatches : ∃ (W W' : World (Cluster Bool) (ClusterJob Bool))
    (w w' : World Shared Frame), firstLeases W = [(.leased, some 300)] ∧
      firstLeases W' = [(.pending, none)] ∧
      (workers (twoBatches true)).Reach Atomic (created (twoBatches true) 0) w ∧
      (workers (twoBatches true)).Reach Atomic w w' ∧
      Follows twoBatches true W w ∧ Follows twoBatches true W' w' := by
  have hrun : ∃ W W', (deployment twoBatches).Reach ClusterAtomic
        (deployed twoBatches [true, false] 0) W ∧ firstLeases W = [(.leased, some 300)] ∧
      (deployment twoBatches).Reach ClusterAtomic W W' ∧ firstLeases W' = [(.pending, none)] :=
    System.Reach.of_run_append firstLeases
      ([.act 0 .next] ++ List.replicate 6 (.act 1 .next) ++ List.replicate 2 (.act 2 .next) ++
        [.env (.tick 301), .act 0 .next, .act 2 .next, .act 2 .next, .env (.tick 5)])
      [.act 2 .next] (by decide +kernel) (by decide +kernel)
  obtain ⟨W, W', h, hW, h', hW'⟩ := hrun
  obtain ⟨w, w', hw, hw', hfollows, hfollows'⟩ :=
    batch_alone ids_twoBatches (by decide) (List.mem_cons_self (a := true)) h h'
  exact ⟨W, W', w, w', hW, hW', hw, hw', hfollows, hfollows'⟩

end BatchInference
