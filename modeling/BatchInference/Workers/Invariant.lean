import BatchInference.Workers.Runs

/-!
# What holds in every run

`Valid` is kept by every step, statements and calls interleaved at will; it rests on what
the jobs know of the rows and objects they go by (`Frame.Ok`). A checkpoint may be
overwritten, and a chunk may leave `succeeded` again: what stays is that every object ever
put under a chunk's key covers the chunk, that a result key once set stays set, and that the
chunk rows keep the places of the plan. What the jobs know is all of this kind, so that it
survives the steps of others (`Grows`).
-/

namespace BatchInference

open JobPool

variable {env : Env} {s s' : Shared}

/-! ## The plan -/

/-- Empty where `plan_chunks` raises: then no chunk row is ever added. -/
def Env.plan (env : Env) : List (Nat × Int × Int) :=
  match planChunks env.spec.totalItems env.spec.chunkSize with
  | .ok plan => plan
  | .error _ => []

theorem Env.isPlan (h : env.plan ≠ []) : IsPlan env.spec.totalItems env.plan := by
  unfold plan at h ⊢
  split
  · rename_i plan hp
    exact isPlan_of_planChunks (env.spec.totalItems_lt.trans (by norm_num)) hp
  · rename_i hp
    simp [hp] at h

theorem planned_of_createChunkRows {rows : List BatchChunk}
    (h : createChunkRows env.spec [] = .ok rows) :
    planChunks env.spec.totalItems env.spec.chunkSize = .ok env.plan ∧
      rows = env.plan.map .ofPlan := by
  simp only [createChunkRows, ne_eq, not_true_eq_false, if_false] at h
  unfold Env.plan
  cases hp : planChunks env.spec.totalItems env.spec.chunkSize with
  | error => rw [hp] at h; cases h
  | ok plan =>
    rw [hp] at h
    cases h
    exact ⟨rfl, rfl⟩

theorem eq_of_createChunkRows {rows : List BatchChunk}
    (h : createChunkRows env.spec [] = .ok rows) : rows = env.plan.map .ofPlan :=
  (planned_of_createChunkRows h).2

/-! ## Segments -/

/-- One row for each item that is read from the range of `entry`. -/
def Covers (env : Env) (entry : Nat × Int × Int) (rows : List Outcome) : Prop :=
  ∃ items outcomes,
    readLineRange env.loads (env.reads env.spec.prompts) entry.2.1 entry.2.2 = some items ∧
    List.Forall₂ (fun item o => itemIndex env.intOfStr entry.2.1 item = some o.index)
      items outcomes ∧
    rows.Perm outcomes

theorem Covers.length {entry : Nat × Int × Int} {rows : List Outcome}
    (h : Covers env entry rows) (ho : 0 ≤ entry.2.1) (hl : 0 ≤ entry.2.2)
    (hend : entry.2.1 + entry.2.2 ≤ env.spec.totalItems) :
    (rows.length : Int) = entry.2.2 := by
  obtain ⟨items, outcomes, hread, hrel, hperm⟩ := h
  rw [hperm.length_eq, ← hrel.length_eq]
  refine length_readLineRange hread ho hl ?_
  rwa [env.flatten_reads, env.spec.lines_prompts]

/-- A `run_one` that has returned has read a status, and for `cancelled` it says so. -/
def Looked (read : Option BatchStatus) (o : Option Outcome) : Prop :=
  ∀ x ∈ o, ∃ status, read = some status ∧ (x.isCancelled = true ↔ status = .cancelled)

/-- The outcomes so far belong to their items. -/
structure Gathered (env : Env) (chunk : BatchChunk) (items : List Json)
    (seen : List (Option BatchStatus)) (outcomes : List (Option Outcome)) : Prop where
  read : readLineRange env.loads (env.reads env.spec.prompts) chunk.offset chunk.limit =
    some items
  rel : List.Forall₂ (fun item o => ∀ x ∈ o, itemIndex env.intOfStr chunk.offset item =
    some x.index) items outcomes
  looked : List.Forall₂ Looked seen outcomes

theorem forall₂_replicate {α β : Type} {R : α → β → Prop} {as : List α} {b : β}
    (h : ∀ a, R a b) : List.Forall₂ R as (List.replicate as.length b) := by
  induction as with
  | nil => exact .nil
  | cons a as ih => exact .cons (h a) ih

theorem Gathered.start {chunk : BatchChunk} {items : List Json}
    (h : readLineRange env.loads (env.reads env.spec.prompts) chunk.offset chunk.limit =
      some items) :
    Gathered env chunk items (List.replicate items.length none)
      (List.replicate items.length none) := by
  refine ⟨h, forall₂_replicate fun item => by simp, ?_⟩
  have hnone : List.Forall₂ Looked (List.replicate items.length none)
      (List.replicate (List.replicate items.length (none : Option BatchStatus)).length none) :=
    forall₂_replicate fun read => by simp [Looked]
  rwa [List.length_replicate] at hnone

theorem forall₂_set {α β : Type} {R : α → β → Prop} {as : List α} {bs : List β} {i : Nat}
    {a : α} {b : β} (h : List.Forall₂ R as bs) (ha : as[i]? = some a) (hb : R a b) :
    List.Forall₂ R as (bs.set i b) := by
  induction h generalizing i with
  | nil => exact .nil
  | cons hr h ih =>
    cases i with
    | zero =>
      obtain rfl : _ = a := by simpa using ha
      exact .cons hb h
    | succ i => exact .cons hr (ih (by simpa using ha))

theorem countP_set_lt {α : Type} {xs : List (Option α)} {i : Nat} (x : α)
    (h : xs[i]? = some none) :
    (xs.set i (some x)).countP (·.isNone) < xs.countP (·.isNone) := by
  induction xs generalizing i with
  | nil => cases h
  | cons y xs ih =>
    cases i with
    | zero =>
      obtain rfl : y = none := by simpa using h
      simp
    | succ i =>
      have hlt := ih (by simpa using h : xs[i]? = some none)
      simp only [List.set_cons_succ, List.countP_cons]
      omega

theorem Gathered.look {chunk : BatchChunk} {items : List Json}
    {seen : List (Option BatchStatus)} {outcomes : List (Option Outcome)} {i : Nat}
    {status : BatchStatus} (h : Gathered env chunk items seen outcomes)
    (hi : seen[i]? = some none) :
    Gathered env chunk items (seen.set i (some status)) outcomes := by
  refine ⟨h.read, h.rel, ?_⟩
  obtain ⟨hlt, hnone⟩ := List.getElem?_eq_some_iff.mp hi
  have hlt' : i < outcomes.length := h.looked.length_eq ▸ hlt
  have hlooked : Looked seen[i] outcomes[i] := h.looked.get hlt hlt'
  refine (forall₂_set h.looked.flip (List.getElem?_eq_getElem hlt') fun x hx => ?_).flip
  obtain ⟨status, hstatus, -⟩ := hlooked x hx
  simp [hnone] at hstatus

theorem Gathered.reply {chunk : BatchChunk} {items : List Json}
    {seen : List (Option BatchStatus)} {outcomes : List (Option Outcome)} {i : Nat} {item : Json}
    {status : BatchStatus} {replies : List InferenceResult} {outcome : Outcome}
    (h : Gathered env chunk items seen outcomes) (hi : items[i]? = some item)
    (hseen : seen[i]? = some (some status))
    (ho : runOne env.intOfStr chunk.offset status item replies = some outcome) :
    Gathered env chunk items seen (outcomes.set i (some outcome)) := by
  refine ⟨h.read, forall₂_set h.rel hi ?_, forall₂_set h.looked hseen ?_⟩
  · rintro x ⟨⟩
    exact index_runOne ho
  · rintro x ⟨⟩
    exact ⟨status, rfl, isCancelled_runOne ho⟩

theorem eq_map_some {α : Type} {xs : List (Option α)} {ys : List α}
    (h : xs.mapM id = some ys) : xs = ys.map some := by
  induction xs generalizing ys with
  | nil => cases h; rfl
  | cons x xs ih =>
    obtain ⟨y, rest, rfl, hrest, rfl⟩ := mapM_cons_eq_some h
    rw [ih hrest, List.map_cons]

theorem Gathered.covers {chunk : BatchChunk} {items : List Json}
    {seen : List (Option BatchStatus)} {outcomes : List (Option Outcome)} {results : List Outcome}
    (h : Gathered env chunk items seen outcomes) (hall : outcomes.mapM id = some results) :
    Covers env chunk.place (sortResults results) := by
  refine ⟨items, results, h.read, ?_, perm_sortResults results⟩
  have hrel := h.rel
  rw [eq_map_some hall, List.forall₂_map_right_iff] at hrel
  exact hrel.imp fun _ _ hx => hx _ rfl

/-! ## The invariant -/

def HasRows (s : Shared) : Prop := ∃ c, s.db.chunks[0]? = some c

structure Valid (env : Env) (s : Shared) : Prop where
  planned : s.db.chunks = [] ∨ s.db.chunks.map (·.place) = env.plan
  segment : ∀ {i rows}, s.store.rows (.chunk i) = some rows →
    ∃ entry, env.plan[i]? = some entry ∧ Covers env entry rows
  key : ∀ {i : Nat} {c : BatchChunk}, s.db.chunks[i]? = some c →
    ∀ k, c.resultKey = some k → k = .chunk i
  succeeded : ∀ {c}, c ∈ s.db.chunks → c.status = .succeeded → c.resultKey ≠ none
  results : ∀ {rows}, s.store.rows .results = some rows →
    ∃ parts, List.Forall₂ (Covers env) env.plan parts ∧ rows = parts.flatten
  resultsKey : ∀ {k}, s.db.batch.resultsKey = some k →
    k = .results ∧ (s.store.rows .results).isSome ∧ HasRows s
  completed : s.db.batch.status = .completed → s.db.batch.resultsKey ≠ none

theorem Valid.plan_of_row {i : Nat} {c : BatchChunk} (hv : Valid env s)
    (hc : s.db.chunks[i]? = some c) : env.plan[i]? = some c.place := by
  rcases hv.planned with he | hp
  · simp [he] at hc
  · simp [← hp, hc]

theorem Valid.isPlan_of_row {i : Nat} {c : BatchChunk} (hv : Valid env s)
    (hc : s.db.chunks[i]? = some c) : IsPlan env.spec.totalItems env.plan := by
  have hplan := hv.plan_of_row hc
  exact Env.isPlan fun he => by simp [he] at hplan

theorem Valid.chunkIndex_eq {i : Nat} {c : BatchChunk} (hv : Valid env s)
    (hc : s.db.chunks[i]? = some c) : c.chunkIndex = i :=
  (hv.isPlan_of_row hc).index (hv.plan_of_row hc)

theorem Valid.getElem?_of_mem {c : BatchChunk} (hv : Valid env s) (hm : c ∈ s.db.chunks) :
    s.db.chunks[c.chunkIndex]? = some c := by
  obtain ⟨i, hc⟩ := List.getElem?_of_mem hm
  rwa [hv.chunkIndex_eq hc]

/-- What no step undoes. -/
structure Grows (s s' : Shared) : Prop where
  rows : ∀ {i : Nat} {c : BatchChunk}, s.db.chunks[i]? = some c →
    ∃ c' : BatchChunk, s'.db.chunks[i]? = some c' ∧ c'.place = c.place ∧
      ∀ k, c.resultKey = some k → c'.resultKey = some k
  resultsKey : ∀ {k}, s.db.batch.resultsKey = some k → s'.db.batch.resultsKey = some k
  results : (s.store.rows .results).isSome → (s'.store.rows .results).isSome

theorem Grows.refl (s : Shared) : Grows s s :=
  ⟨fun h => ⟨_, h, rfl, fun _ hk => hk⟩, id, id⟩

/-- `row` is the chunk's row as it was at some time. -/
def Loaded (s : Shared) (i : Nat) (row : BatchChunk) : Prop :=
  ∃ c, s.db.chunks[i]? = some c ∧ c.place = row.place ∧
    ∀ k, row.resultKey = some k → c.resultKey = some k

theorem Loaded.grow {i : Nat} {row : BatchChunk} (h : Loaded s i row) (hg : Grows s s') :
    Loaded s' i row := by
  obtain ⟨c, hc, hp, hk⟩ := h
  obtain ⟨c', hc', hp', hk'⟩ := hg.rows hc
  exact ⟨c', hc', hp'.trans hp, fun k h => hk' k (hk k h)⟩

theorem Loaded.limit_eq {i : Nat} {row c : BatchChunk} (h : Loaded s i row)
    (hc : s.db.chunks[i]? = some c) : c.limit = row.limit := by
  obtain ⟨c', hc', hp, -⟩ := h
  obtain rfl := Option.some.inj (hc'.symm.trans hc)
  exact congrArg (·.2.2) hp

/-- The row that a job of process_chunk goes by, inside `try`. -/
def ProcessChunk.Body.Ok (env : Env) (s : Shared) (i : Nat) (chunk : BatchChunk) :
    Body → Prop
  | .gathering items seen outcomes => Gathered env chunk items seen outcomes
  | .writing results => Covers env chunk.place results
  | .written ok fail => ((ok + fail : Nat) : Int) = chunk.limit
  | .loaded row ok fail | .flushed row ok fail | .recomputed row ok fail _ =>
    ((ok + fail : Nat) : Int) = chunk.limit ∧ Loaded s i row
  | _ => True

/-- A results key that finalize_batch has loaded is still there, and so are the rows. -/
def Finalize.Kept (s : Shared) (batch : Batch) : Prop :=
  ∀ k, batch.resultsKey = some k → s.db.batch.resultsKey = some k

/-- The parts so far are the segments of the plan's first entries. -/
def Finalize.Segments (env : Env) (keys : List ObjectKey) (parts : List (List Outcome)) : Prop :=
  ∃ done rest, env.plan = done ++ rest ∧ keys = rest.map (fun entry => .chunk entry.1) ∧
    List.Forall₂ (Covers env) done parts

def Frame.Ok (env : Env) (s : Shared) : Frame → Prop
  | .orchestrateBatch (.planned _ _ rows fresh)
  | .orchestrateBatch (.reclaimed _ _ rows fresh _) =>
    fresh = true → createChunkRows env.spec [] = .ok rows
  | .processChunk i _ (.leased loaded _) => Loaded s i loaded
  | .processChunk i _ (.body chunk pc) => Loaded s i chunk ∧ pc.Ok env s i chunk
  | .finalizeBatch (.gotBatch loaded _) => Finalize.Kept s loaded
  | .finalizeBatch (.gathering snap keys parts) =>
    Finalize.Kept s snap.batch ∧ HasRows s ∧ Finalize.Segments env keys parts
  | .finalizeBatch (.concatenated snap) | .finalizeBatch (.committing snap) =>
    Finalize.Kept s snap.batch ∧ HasRows s ∧ (s.store.rows .results).isSome
  | _ => True

theorem HasRows.grow (h : HasRows s) (hg : Grows s s') : HasRows s' := by
  obtain ⟨c, hc⟩ := h
  obtain ⟨c', hc', -⟩ := hg.rows hc
  exact ⟨c', hc'⟩

theorem Finalize.Kept.grow {batch : Batch} (h : Kept s batch) (hg : Grows s s') :
    Kept s' batch := fun k hk => hg.resultsKey (h k hk)

theorem Frame.Ok.grow {frame : Frame} (h : frame.Ok env s) (hg : Grows s s') :
    frame.Ok env s' := by
  cases frame with
  | processChunk i deferBy pc =>
    cases pc with
    | leased loaded now => exact Loaded.grow h hg
    | body chunk pc =>
      refine ⟨h.1.grow hg, ?_⟩
      cases pc with
      | loaded | flushed | recomputed => exact ⟨h.2.1, h.2.2.grow hg⟩
      | _ => exact h.2
    | _ => exact h
  | finalizeBatch pc =>
    cases pc with
    | gotBatch loaded unfinished => exact Finalize.Kept.grow h hg
    | gathering snap keys parts => exact ⟨h.1.grow hg, h.2.1.grow hg, h.2.2⟩
    | concatenated | committing => exact ⟨h.1.grow hg, h.2.1.grow hg, hg.results h.2.2⟩
    | _ => exact h
  | orchestrateBatch pc => cases pc <;> exact h
  | _ => exact h

/-! ## Writes keep the invariant -/

variable {frame : Frame}

/-- A row keeps its place and its key. -/
theorem Commits.onRow_grows {commit : Commit} (h : Commits env s frame commit)
    (hv : Valid env s) {i : Nat} {c : BatchChunk} (hc : s.db.chunks[i]? = some c) :
    (commit.onRow i c).place = c.place ∧
      ∀ k, c.resultKey = some k → (commit.onRow i c).resultKey = some k := by
  refine ⟨h.place_onRow i c, fun k hk => ?_⟩
  rcases h.row_cases i c with hr | ⟨deferBy, chunk, loaded, ok, fail, counters, -, hr⟩
  · exact hr.resultKey.trans hk
  · obtain rfl := hv.key hc k hk
    rw [hr]
    exact column_set fun _ => hk

theorem Commits.grows {commit : Commit} (h : Commits env s frame commit) (hv : Valid env s) :
    Grows s { s with db := commit.apply s.db } := by
  refine ⟨fun {i c} hc => ?_, fun {k} hk => ?_, id⟩
  · exact ⟨commit.onRow i c, Commit.getElem?_apply_of_row hc commit, h.onRow_grows hv hc⟩
  · rcases h.batch_cases s.db.batch with ⟨hb, -⟩ | ⟨snap, rfl, hb⟩
    · exact hb.trans hk
    · obtain ⟨rfl, -⟩ := hv.resultsKey hk
      rw [Commit.batch_apply, hb]
      exact column_set fun _ => hk

/-- A row after a commit is an old one as changed, or has been added now. -/
theorem Commits.row_origin {commit : Commit} (h : Commits env s frame commit)
    (hf : frame.Ok env s) {i : Nat} {c : BatchChunk}
    (hc : (commit.apply s.db).chunks[i]? = some c) :
    (∃ c₀, s.db.chunks[i]? = some c₀ ∧ c = commit.onRow i c₀) ∨
      s.db.chunks = [] ∧ ∃ entry, env.plan[i]? = some entry ∧ c = .ofPlan entry := by
  rw [Commit.getElem?_chunks_apply] at hc
  obtain ⟨c₀, hc₀, rfl⟩ := Option.map_eq_some_iff.mp hc
  rcases h.inserted_cases with hi | ⟨loaded, startedAt, rows, now, he, rfl, rfl⟩
  · exact .inl ⟨c₀, by simpa [hi] using hc₀, rfl⟩
  · right
    rw [he, List.nil_append, Commit.inserted, eq_of_createChunkRows (hf rfl),
      List.getElem?_map] at hc₀
    obtain ⟨entry, hentry, rfl⟩ := Option.map_eq_some_iff.mp hc₀
    exact ⟨he, entry, hentry, rfl⟩

theorem Valid.commit {commit : Commit} (hv : Valid env s) (hf : frame.Ok env s)
    (h : Commits env s frame commit) (hg : Grows s { s with db := commit.apply s.db }) :
    Valid env { s with db := commit.apply s.db } where
  planned := by
    have hplace := h.map_place_apply s.db
    rcases h.inserted_cases with hi | ⟨loaded, startedAt, rows, now, he, rfl, rfl⟩
    · rw [hi, List.append_nil] at hplace
      rcases hv.planned with he | hp
      · left
        rw [he] at hplace
        simpa using hplace
      · exact .inr (hplace.trans hp)
    · right
      obtain rfl := eq_of_createChunkRows (hf rfl)
      rw [he, List.nil_append, Commit.inserted] at hplace
      refine hplace.trans ?_
      rw [List.map_map]
      exact List.map_id' _
  segment := hv.segment
  key := by
    intro i c hc k hk
    rcases h.row_origin hf hc with ⟨c₀, hc₀, rfl⟩ | ⟨-, entry, -, rfl⟩
    · rcases h.row_cases i c₀ with hr | ⟨deferBy, chunk, loaded, ok, fail, counters, -, hr⟩
      · exact hv.key hc₀ k (hr.resultKey.symm.trans hk)
      · rw [hr] at hk
        rcases column_eq_or loaded.resultKey (some (.chunk i)) c₀.resultKey with h | h
        · exact hv.key hc₀ k (h.symm.trans hk)
        · exact (Option.some.inj (h.symm.trans hk)).symm
    · cases hk
  succeeded := by
    intro c hm hs
    obtain ⟨i, hc⟩ := List.getElem?_of_mem hm
    rcases h.row_origin hf hc with ⟨c₀, hc₀, rfl⟩ | ⟨-, entry, -, rfl⟩
    · rcases h.row_cases i c₀ with hr | ⟨deferBy, chunk, loaded, ok, fail, counters, rfl, hr⟩
      · rw [hr.resultKey]
        exact hv.succeeded (List.mem_of_getElem? hc₀) (hr.status hs)
      · -- where the key is not written it was set when the row was loaded, and has stayed
        obtain ⟨-, -, c, hc₁, -, hkey⟩ := hf
        obtain rfl := Option.some.inj (hc₁.symm.trans hc₀)
        have : (commit.onRow i c).resultKey = some (.chunk i) := hr ▸ column_set (hkey _)
        simp [this]
    · cases hs
  results := hv.results
  resultsKey := by
    intro k hk
    rcases h.batch_cases s.db.batch with ⟨hb, -⟩ | ⟨snap, rfl, hb⟩
    · obtain ⟨hk', hres, hrows⟩ := hv.resultsKey (hb.symm.trans hk)
      exact ⟨hk', hres, hrows.grow hg⟩
    · have : (commit.onBatch s.db.batch).resultsKey = some .results := hb ▸ column_set (hf.1 _)
      exact ⟨Option.some.inj (hk.symm.trans this), hf.2.2, hf.2.1.grow hg⟩
  completed := by
    intro hs
    rcases h.batch_cases s.db.batch with ⟨hb, hst⟩ | ⟨snap, rfl, hb⟩
    · simp only [Commit.batch_apply, hb]
      exact hv.completed (hst hs)
    · have : (commit.onBatch s.db.batch).resultsKey = some .results := hb ▸ column_set (hf.1 _)
      simp [this]

theorem Put.grows (put : Put) (s : Shared) : Grows s { s with store := put.apply s.store } := by
  refine ⟨(Grows.refl s).rows, id, fun h => ?_⟩
  cases put with
  | rows key content =>
    simp only [Put.apply]
    split
    · rfl
    · exact h
  | manifest => exact h

theorem Valid.put {put : Put} (hv : Valid env s) (hf : frame.Ok env s) (h : Puts env frame put) :
    Valid env { s with store := put.apply s.store } := by
  have hrows {k : ObjectKey} (hk : k = .results ∧ (s.store.rows .results).isSome ∧ HasRows s) :
      k = .results ∧ ((put.apply s.store).rows .results).isSome ∧ HasRows s :=
    ⟨hk.1, (put.grows s).results hk.2.1, hk.2.2⟩
  refine { hv with
    segment := fun {i rows} hseg => ?_
    results := fun {rows} hres => ?_
    resultsKey := fun hk => hrows (hv.resultsKey hk) }
  · cases h with
    | @chunk j deferBy chunk results =>
      simp only [Put.apply] at hseg
      split at hseg
      · rename_i hij
        obtain rfl : i = j := by simpa using hij
        obtain rfl := Option.some.inj hseg
        obtain ⟨⟨c, hc, hplace, -⟩, hcovers⟩ := hf
        exact ⟨chunk.place, hplace ▸ hv.plan_of_row hc, hcovers⟩
      · exact hv.segment hseg
    | results | manifest => exact hv.segment hseg
  · cases h with
    | chunk | manifest => exact hv.results hres
    | results =>
      obtain ⟨-, -, done, rest, hplan, hkeys, hparts⟩ := hf
      obtain rfl : rest = [] := by simpa using hkeys.symm
      obtain rfl := Option.some.inj hres
      exact ⟨_, by simpa [hplan] using hparts, rfl⟩

theorem Valid.write (hv : Valid env s) (hf : frame.Ok env s) {c : Choice} {e : Effect Frame}
    (h : frame.step env s c = some e) : Valid env (e.shared s) ∧ Grows s (e.shared s) := by
  rcases shared_cases h with hs | ⟨commit, hk, hs⟩ | ⟨put, hp, hs⟩
  · exact hs.symm ▸ ⟨hv, .refl s⟩
  · exact hs.symm ▸ ⟨hv.commit hf hk (hk.grows hv), hk.grows hv⟩
  · exact hs.symm ▸ ⟨hv.put hf hp, put.grows s⟩

/-! ## Jobs keep their assertions -/

theorem Loaded.of_getElem? {i : Nat} {row : BatchChunk} (h : s.db.chunks[i]? = some row) :
    Loaded s i row := ⟨row, h, rfl, fun _ hk => hk⟩

theorem Valid.key_of_succeeded (hv : Valid env s) {c : BatchChunk} (hm : c ∈ s.db.chunks)
    (hs : c.status = .succeeded) : c.resultKey = some (.chunk c.chunkIndex) := by
  obtain ⟨i, hc⟩ := List.getElem?_of_mem hm
  obtain ⟨k, hk⟩ := Option.ne_none_iff_exists'.mp (hv.succeeded hm hs)
  rw [hk, hv.key hc k hk, hv.chunkIndex_eq hc]

theorem Valid.length_of_covers (hv : Valid env s) {i : Nat} {chunk : BatchChunk}
    (hl : Loaded s i chunk) {rows : List Outcome} (h : Covers env chunk.place rows) :
    (rows.length : Int) = chunk.limit := by
  obtain ⟨c, hc, hplace, -⟩ := hl
  have hp := hv.isPlan_of_row hc
  have hm := List.mem_of_getElem? (hplace ▸ hv.plan_of_row hc)
  exact h.length (hp.offset_nonneg hm) (le_trans (by norm_num) (hp.one_le_limit hm))
    (hp.end_le hm)

theorem ProcessChunk.Body.Ok.next {i : Nat} {chunk : BatchChunk} {pc pc' : Body}
    {e : Effect Body} (hv : Valid env s) (hl : Loaded s i chunk) (hok : pc.Ok env s i chunk)
    (h : pc.step env s i chunk = some e) (hpc : pc' ∈ e.next) : pc'.Ok env s i chunk := by
  have hgoes := goes_of_step h hpc
  generalize e.commit = commit, e.put = put at hgoes
  cases hgoes with
  | read hread => exact .start hread
  | gather hall => exact hok.covers hall
  | @write results =>
    exact (congrArg _ (okCount_add_failCount results)).trans (hv.length_of_covers hl hok)
  | load hrow => exact ⟨hok, .of_getElem? hrow⟩
  | flush | recompute => exact hok
  | cancel | loadCancelled | succeed => trivial

theorem Finalize.Segments.init (hv : Valid env s) (hne : s.db.chunks ≠ [])
    (hall : ∀ c ∈ s.db.chunks, c.status = .succeeded) :
    Segments env (s.db.chunks.filterMap (·.resultKey)) [] := by
  refine ⟨[], env.plan, rfl, ?_, .nil⟩
  rw [← hv.planned.resolve_left hne, List.map_map, ← List.filterMap_eq_map]
  exact List.filterMap_congr fun c hc => hv.key_of_succeeded hc (hall c hc)

theorem Finalize.Segments.snoc {key : ObjectKey} {keys : List ObjectKey}
    {parts : List (List Outcome)} {part : List Outcome} (hv : Valid env s)
    (h : Segments env (key :: keys) parts) (hpart : s.store.rows key = some part) :
    Segments env keys (parts ++ [part]) := by
  obtain ⟨done, rest, hplan, hkeys, hparts⟩ := h
  obtain ⟨entry, rest, rfl, rfl, rfl⟩ := List.map_eq_cons_iff.mp hkeys.symm
  obtain ⟨entry', hentry', hcovers⟩ := hv.segment hpart
  have hentry : env.plan[done.length]? = some entry := by simp [hplan]
  have hindex := (Env.isPlan (fun he => by simp [he] at hentry)).index hentry
  obtain rfl : entry' = entry := by simpa [hindex, hentry] using hentry'.symm
  exact ⟨done ++ [entry'], rest, by simp [hplan], rfl,
    List.rel_append hparts (.cons hcovers .nil)⟩

section Step

variable {c : Choice} {e : Effect Frame}

theorem Orchestrate.ok_of_step {pc : Pc} (hf : frame.Ok env s)
    (h : frame.step env s c = some e) (hm : .orchestrateBatch pc ∈ e.frames) :
    Frame.Ok env (e.shared s) (.orchestrateBatch pc) := by
  rcases orchestrateBatch_of_step h hm with ⟨-, loaded, rfl⟩ | ⟨pc₀, rfl, hpc⟩
  · trivial
  · cases pc₀ with
    | gotBatch loaded startedAt =>
      simp only [step] at hpc
      split at hpc
      · cases hpc
      · rename_i rows hrows
        cases hpc
        intro hfresh
        rw [← hrows, of_decide_eq_true hfresh]
    | planned loaded startedAt rows fresh => cases hpc; exact hf
    | reclaimed loaded startedAt rows fresh now =>
      simp only [step] at hpc
      split at hpc <;> cases hpc
      trivial
    | enqueueing chunkIds => cases chunkIds <;> cases hpc; trivial

theorem ProcessChunk.ok_of_step {i deferBy : Nat} {pc : Pc} (hv : Valid env s)
    (hf : frame.Ok env s) (h : frame.step env s c = some e)
    (hm : .processChunk i deferBy pc ∈ e.frames) : Frame.Ok env s (.processChunk i deferBy pc) := by
  obtain ⟨-, rfl, -⟩ | ⟨pc₀, rfl, hgoes⟩ := processChunk_of_step h hm
  · trivial
  · generalize e.commit = commit at hgoes
    cases hgoes with
    | grant hrow => exact Loaded.of_getElem? hrow
    | lease => exact ⟨hf, trivial⟩
    | body h₀ hpc => exact ⟨hf.1, hf.2.next hv hf.1 h₀ hpc⟩
    | look hunseen => exact ⟨hf.1, hf.2.look hunseen⟩
    | reply hvalue hseen ho => exact ⟨hf.1, hf.2.reply hvalue hseen ho⟩
    | raise | handler => trivial

theorem Finalize.ok_of_step {pc : Pc} (hv : Valid env s) (hf : frame.Ok env s)
    (hg : Grows s (e.shared s)) (h : frame.step env s c = some e)
    (hm : .finalizeBatch pc ∈ e.frames) : Frame.Ok env (e.shared s) (.finalizeBatch pc) := by
  rcases finalizeBatch_of_step h hm with ⟨-, unfinished, rfl⟩ | ⟨pc₀, rfl, hgoes⟩
  · exact Kept.grow (fun _ hk => hk) hg
  · generalize hput : e.put = put at hgoes
    cases hgoes with
    | incomplete | commit => trivial
    | load complete =>
      push Not at complete
      obtain ⟨c, chunks, hc⟩ := List.exists_cons_of_ne_nil complete.1
      have hrows : HasRows s := ⟨c, by simp [hc]⟩
      exact ⟨Kept.grow hf hg, hrows.grow hg, .init hv complete.1 complete.2⟩
    | get hpart => exact ⟨hf.1.grow hg, hf.2.1.grow hg, hf.2.2.snoc hv hpart⟩
    | results => exact ⟨hf.1.grow hg, hf.2.1.grow hg, by simp [Effect.shared, hput, Put.apply]⟩
    | manifest => exact Frame.Ok.grow hf hg

theorem Frame.Ok.frames (hv : Valid env s) (hf : frame.Ok env s)
    (h : frame.step env s c = some e) : ∀ f ∈ e.frames, f.Ok env (e.shared s) := by
  intro f hm
  have hg := (hv.write hf h).2
  cases f with
  | orchestrateBatch pc => exact Orchestrate.ok_of_step hf h hm
  | processChunk i deferBy pc => exact (ProcessChunk.ok_of_step hv hf h hm).grow hg
  | finalizeBatch pc => exact Finalize.ok_of_step hv hf hg h hm
  | _ => trivial

end Step

/-! ## Every run -/

theorem modular (env : Env) :
    (workers env).Modular (fun _ _ => True) (Valid env) (Frame.Ok env) := by
  refine modular_of_steps ?_ ?_ ?_ ?_
  · intro w i c frame e hv hpool _ hk he
    have hf := hpool frame (List.mem_of_getElem? hk)
    exact ⟨(hv.write hf he).1, hf.frames hv he⟩
  · intro w i c frame e f hv _ _ hframe he _ hf
    exact hf.grow (hv.write hframe he).2
  · intro w job _
    trivial
  · intro s seconds hv
    exact ⟨{ hv with }, fun f hf => hf.grow ⟨(Grows.refl _).rows, id, id⟩⟩

variable {ok : World Shared Frame → Moves → Prop} {now : Int} {w : World Shared Frame}

theorem ok_of_reach (h : (workers env).Reach ok (created env now) w) :
    Valid env w.shared ∧ ∀ f ∈ w.pool, f.Ok env w.shared := by
  refine System.Modular.reach (modular env) ?_ ?_ (h.mono fun _ _ _ => trivial)
  · refine ⟨.inl rfl, ?_, ?_, ?_, ?_, ?_, ?_⟩
    all_goals simp [created, Store.empty]
  · simp [created, Frame.Ok]

theorem valid_of_reach (h : (workers env).Reach ok (created env now) w) :
    Valid env w.shared :=
  (ok_of_reach h).1

end BatchInference
