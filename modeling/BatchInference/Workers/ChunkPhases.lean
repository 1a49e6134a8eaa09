import BatchInference.Workers.ItemRows

/-!
# One process_chunk

A job from its leased chunk to its end. Between its steps other jobs do anything that leaves
the chunk and its object alone and does not cancel the batch. Each phase of the job has an
assertion, which its own steps and those of the others keep.
-/

namespace BatchInference

open JobPool System

/-! ## One job amid others -/

/-- A job of `workers`; what other jobs do between its steps is any change of what is shared. -/
def amid (env : Env) : System Shared Frame Choice Shared where
  step := (workers env).step
  env s' _ := some (s', [])

/-- What a move of the pool is for one of its jobs: a step of its own, or a change by others. -/
theorem amid_of_fire {env : Env} {v v' : World Shared Frame} {m : Moves} {frame : Frame}
    (hframe : frame ∈ v.pool) (hf : (workers env).fire v m = some v') :
    (∃ k c w', m = .act k c ∧ v.pool[k]? = some frame ∧
      (amid env).fire ⟨v.shared, [frame]⟩ (.act 0 c) = some w' ∧
      v'.shared = w'.shared ∧ v'.pool = others v k ++ w'.pool) ∨
    frame ∈ v'.pool ∧
      (amid env).fire ⟨v.shared, [frame]⟩ (.env v'.shared) = some ⟨v'.shared, [frame]⟩ := by
  cases m with
  | act k c =>
    obtain ⟨moved, r, hk, hstep, rfl⟩ := fire_act_iff.mp hf
    rcases (mem_iff_others hk frame).mp hframe with rfl | hother
    · have hown : (amid env).fire ⟨v.shared, [frame]⟩ (.act 0 c) = some ⟨r.1, [] ++ r.2⟩ :=
        fire_act_iff.mpr ⟨frame, r, rfl, hstep, rfl⟩
      exact .inl ⟨k, c, _, rfl, hk, hown, rfl, rfl⟩
    · exact .inr ⟨List.mem_append_left _ hother, rfl⟩
  | env e =>
    obtain ⟨r, -, rfl⟩ := fire_env_iff.mp hf
    exact .inr ⟨List.mem_append_left _ hframe, rfl⟩

/-- Neither the row of chunk `i` nor its object is written, and the batch is not cancelled. -/
structure Spares (i : Nat) (s s' : Shared) : Prop where
  row : s'.db.chunks[i]? = s.db.chunks[i]?
  object : s'.store.rows (.chunk i) = s.store.rows (.chunk i)
  status : s'.db.batch.status ≠ .cancelled

/-- What the job may meet where the calls of the storage, the database and the limiter
succeed: an item gets its own results, and only what raises in the code raises. -/
inductive Surroundings.Due (out : Surroundings) (env : Env) : Frame → Choice → Prop where
  | next {i deferBy : Nat} {pc : ProcessChunk.Pc}
      (h : ∀ chunk results, pc = .body chunk (.writing results) →
        ∀ row ∈ results, row.writable out.writes = true) :
      Due out env (.processChunk i deferBy pc) .next
  | look {i deferBy j : Nat} {chunk : BatchChunk} {items : List Json}
      {seen : List (Option BatchStatus)} {outcomes : List (Option Outcome)} :
      Due out env (.processChunk i deferBy (.body chunk (.gathering items seen outcomes)))
        (.look j)
  | reply {i deferBy j : Nat} {chunk : BatchChunk} {items : List Json}
      {seen : List (Option BatchStatus)} {outcomes : List (Option Outcome)} {item : Json}
      {results : List InferenceResult}
      (hitem : items[j]? = some item) (h : out.results env chunk j item = some results) :
      Due out env (.processChunk i deferBy (.body chunk (.gathering items seen outcomes)))
        (.reply j results)
  | itemRaises {i deferBy j : Nat} {chunk : BatchChunk} {items : List Json}
      {seen : List (Option BatchStatus)} {outcomes : List (Option Outcome)} {item : Json}
      {exc : String}
      (hitem : items[j]? = some item) (h : out.results env chunk j item = none) :
      Due out env (.processChunk i deferBy (.body chunk (.gathering items seen outcomes)))
        (.raise exc)
  | writeRaises {i deferBy : Nat} {chunk : BatchChunk} {results : List Outcome}
      {row : Outcome} {exc : String} (hrow : row ∈ results)
      (h : row.writable out.writes = false) :
      Due out env (.processChunk i deferBy (.body chunk (.writing results))) (.raise exc)

def Permitted (out : Surroundings) (env : Env) (i : Nat) (w : World Shared Frame) :
    Move Choice Shared → Prop
  | .act k c => ∃ frame, w.pool[k]? = some frame ∧ out.Due env frame c
  | .env s' => Spares i w.shared s'

/-- The job has returned. -/
def Ended (w : World Shared Frame) : Prop := ∃ jobs : List Job, w.pool = jobs.map .queued

namespace Surroundings

section Definitions

variable (out : Surroundings) (env : Env) (i deferBy : Nat) (chunk : BatchChunk)
  (items : List Json)

/-- The object holds a row for each item, and each row is its item's. -/
def Stored (s : Shared) : Prop :=
  ∃ outcomes, outcomes.map some = out.rows env chunk items ∧
    s.store.rows (.chunk i) = some (sortResults outcomes)

def Complete (s : Shared) : Prop :=
  (∃ row, s.db.chunks[i]? = some row ∧ row.status = .succeeded) ∧ out.Stored env i chunk items s

/-! ## The phases of the job -/

def AtBody (s : Shared) : ProcessChunk.Body → Prop
  | .reading => s.db.chunks[i]? = some chunk
  | .gathering given seen outcomes => given = items ∧ s.db.chunks[i]? = some chunk ∧
    List.Forall₂ (fun row o => ∀ x ∈ o, row = some x) (out.rows env chunk items) outcomes ∧
    seen.length = items.length ∧ some .cancelled ∉ seen
  | .cancelling | .cancelLoaded _ => False
  | .writing results => s.db.chunks[i]? = some chunk ∧
    ∃ outcomes, outcomes.map some = out.rows env chunk items ∧ results = sortResults outcomes
  | .written .. => s.db.chunks[i]? = some chunk ∧ out.Stored env i chunk items s ∧
    out.AllFine env chunk items
  | .loaded row .. | .flushed row .. | .recomputed row .. => row = chunk ∧
    s.db.chunks[i]? = some chunk ∧ out.Stored env i chunk items s ∧ out.AllFine env chunk items
  | .succeeded => out.Complete env i chunk items s ∧ out.AllFine env chunk items

/-- The chunk has not succeeded, and not all of its items are fine. -/
def Failed (s : Shared) : Prop :=
  (∃ row, s.db.chunks[i]? = some row ∧ row.status ≠ .succeeded) ∧ ¬ out.AllFine env chunk items

def AtHandler (s : Shared) : ProcessChunk.Handler → Prop
  | .failing | .announceFailed | .reEnqueue => out.Failed env i chunk items s
  | .loadedChunk row | .loadedBatch row _ =>
    s.db.chunks[i]? = some row ∧ out.Failed env i chunk items s

inductive Phase : World Shared Frame → Prop where
  | body {s : Shared} {pc : ProcessChunk.Body} (h : out.AtBody env i chunk items s pc) :
      Phase ⟨s, [.processChunk i deferBy (.body chunk pc)]⟩
  | handler {s : Shared} {exc : String} {pc : ProcessChunk.Handler}
      (h : out.AtHandler env i chunk items s pc) :
      Phase ⟨s, [.processChunk i deferBy (.handler chunk exc pc)]⟩
  | succeeded {s : Shared} (jobs : List Job) (h : out.Complete env i chunk items s)
      (hfine : out.AllFine env chunk items) : Phase ⟨s, jobs.map .queued⟩
  | failed {s : Shared} (jobs : List Job) (h : out.Failed env i chunk items s) :
      Phase ⟨s, jobs.map .queued⟩

/-- The job is in one of the phases, and its batch is not cancelled. -/
def Live (w : World Shared Frame) : Prop :=
  out.Phase env i deferBy chunk items w ∧ w.shared.db.batch.status ≠ .cancelled

end Definitions

section Phases

variable {out : Surroundings} {env : Env} {i deferBy : Nat} {chunk : BatchChunk}
  {items : List Json} {s s' : Shared} {w w' : World Shared Frame}

theorem AtBody.spares {pc : ProcessChunk.Body} (hpc : out.AtBody env i chunk items s pc)
    (h : Spares i s s') : out.AtBody env i chunk items s' pc := by
  cases pc with
  | cancelling | cancelLoaded => exact hpc.elim
  | _ => simpa only [AtBody, Stored, Complete, h.row, h.object] using hpc

theorem AtHandler.spares {pc : ProcessChunk.Handler}
    (hpc : out.AtHandler env i chunk items s pc) (h : Spares i s s') :
    out.AtHandler env i chunk items s' pc := by
  cases pc <;> simpa only [AtHandler, Failed, h.row] using hpc

theorem Phase.spares (hphase : out.Phase env i deferBy chunk items w)
    (h : Spares i w.shared s') : out.Phase env i deferBy chunk items ⟨s', w.pool⟩ := by
  cases hphase with
  | body hpc => exact .body (hpc.spares h)
  | handler hpc => exact .handler (hpc.spares h)
  | succeeded jobs hdone hfine =>
    exact .succeeded _ (by simpa only [Complete, Stored, h.row, h.object] using hdone) hfine
  | failed jobs hdone => exact .failed _ (by simpa only [Failed, h.row] using hdone)

theorem runOne_of_ne {intOfStr : String → Option Int} {offset : Int} {status : BatchStatus}
    {item : Json} {results : List InferenceResult} (h : status ≠ .cancelled) :
    runOne intOfStr offset status item results = runOne intOfStr offset .running item results := by
  simp [runOne, h]

/-- The world after a step of the job, if it is alone. -/
def worldOf (e : Effect Frame) (s : Shared) : World Shared Frame := ⟨e.shared s, e.frames⟩

/-- The reading of the chunk's lines. -/
def Reads (env : Env) (chunk : BatchChunk) (items : List Json) : Prop :=
  readLineRange env.loads (env.reads env.spec.prompts) chunk.offset chunk.limit = some items

theorem phase_next_body {pc : ProcessChunk.Body} {e : Effect ProcessChunk.Body}
    (hreads : Reads env chunk items)
    (hpc : out.AtBody env i chunk items s pc) (hstep : pc.step env s i chunk = some e)
    (hwrites : ∀ results, pc = .writing results →
      ∀ row ∈ results, row.writable out.writes = true) :
    out.Phase env i deferBy chunk items
      (worldOf ((e.map (.body chunk)).map (.processChunk i deferBy)) s) := by
  cases pc with
  | reading =>
    obtain ⟨read, hread, h⟩ := Option.bind_eq_some_iff.mp hstep
    obtain rfl := Option.some.inj (hreads.symm.trans hread)
    cases h
    refine .body ⟨rfl, hpc, ?_, List.length_replicate, by simp⟩
    rw [← length_rows out env chunk]
    exact forall₂_replicate fun row => by simp
  | gathering given seen outcomes =>
    obtain ⟨all, hall, h⟩ := Option.bind_eq_some_iff.mp hstep
    cases h
    obtain ⟨rfl, hrow, hrows, -⟩ := hpc
    have hdone := map_some_of_gathered hrows hall
    rw [ProcessChunk.afterGather, if_neg (by simp [any_isCancelled hdone])]
    exact .body ⟨hrow, all, hdone, rfl⟩
  | cancelling | cancelLoaded => exact hpc.elim
  | writing results =>
    cases hstep
    obtain ⟨hrow, outcomes, houtcomes, rfl⟩ := hpc
    have hfine := (allFine_iff houtcomes).mpr fun row hmem =>
      hwrites _ rfl row ((perm_sortResults outcomes).mem_iff.mpr hmem)
    exact .body ⟨hrow, ⟨outcomes, houtcomes, by simp [Effect.shared, Put.apply]⟩, hfine⟩
  | written ok fail =>
    obtain ⟨hrow, hdone⟩ := hpc
    obtain rfl := Option.some.inj hstep
    rw [hrow]
    exact .body ⟨rfl, hrow, hdone⟩
  | loaded row ok fail =>
    cases hstep
    exact .body hpc
  | flushed row ok fail =>
    cases hstep
    exact .body hpc
  | recomputed row ok fail counters =>
    cases hstep
    obtain ⟨rfl, hrow, ⟨outcomes, houtcomes, hobject⟩, hfine⟩ := hpc
    refine .body ⟨⟨⟨_, Commit.getElem?_apply_of_row hrow _, ?_⟩, outcomes, houtcomes, hobject⟩,
      hfine⟩
    simp [Commit.onRow, BatchChunk.succeed]
  | succeeded =>
    cases hstep
    exact .succeeded [.checkBatchCompletion 0] hpc.1 hpc.2

theorem failed_of_commit {row : BatchChunk} {exc : String} {batch batch' : Batch}
    (hrow : s.db.chunks[i]? = some row) (hfailed : out.Failed env i chunk items s)
    {s' : Shared} (hs : s'.db = (Commit.failure i row (row.fail env exc) batch batch').apply s.db) :
    out.Failed env i chunk items s' := by
  refine ⟨⟨_, by rw [hs]; exact Commit.getElem?_apply_of_row hrow _, ?_⟩, hfailed.2⟩
  simpa [Commit.onRow] using row.status_fail_ne env exc

theorem phase_next_handler {exc : String} {pc : ProcessChunk.Handler}
    (hpc : out.AtHandler env i chunk items s pc) :
    out.Phase env i deferBy chunk items
      (worldOf (((pc.step env s i exc).map (.handler chunk exc)).map (.processChunk i deferBy))
        s) := by
  cases pc with
  | failing =>
    obtain ⟨⟨row, hrow, hstatus⟩, hfine⟩ := hpc
    rw [ProcessChunk.Handler.step, hrow]
    exact .handler ⟨hrow, ⟨row, hrow, hstatus⟩, hfine⟩
  | loadedChunk row => exact .handler hpc
  | loadedBatch row batch =>
    obtain ⟨hrow, hfailed⟩ := hpc
    rw [ProcessChunk.Handler.step]
    split_ifs
    · exact .handler (failed_of_commit hrow hfailed rfl)
    · exact .failed [] hfailed
    · exact .handler (failed_of_commit hrow hfailed rfl)
  | announceFailed => exact .failed [.deliverBatchWebhook .failed 0] hpc
  | reEnqueue => exact .failed [.processChunk i 2] hpc

theorem not_fine_of_raises {j : Nat} {item : Json} (hitem : items[j]? = some item)
    (h : out.results env chunk j item = none) : ¬ out.AllFine env chunk items := by
  intro hfine
  obtain ⟨outcome, hrow, -⟩ := fine_iff.mp (hfine j item hitem)
  rw [row, h] at hrow
  cases hrow

theorem phase_body {pc : ProcessChunk.Body} {c : Choice} {e : Effect Frame}
    (hreads : Reads env chunk items) (hleased : chunk.status = .leased)
    (hbatch : s.db.batch.status ≠ .cancelled) (hpc : out.AtBody env i chunk items s pc)
    (hdue : out.Due env (.processChunk i deferBy (.body chunk pc)) c)
    (hstep : (Frame.processChunk i deferBy (.body chunk pc)).step env s c = some e) :
    out.Phase env i deferBy chunk items (worldOf e s) := by
  have hopen : chunk.status ≠ .succeeded := by simp [hleased]
  cases hdue with
  | next hwrites =>
    obtain ⟨e₀, h₀, rfl⟩ := Option.map_eq_some_iff.mp hstep
    obtain ⟨e₁, h₁, rfl⟩ := Option.map_eq_some_iff.mp h₀
    refine phase_next_body hreads hpc h₁ fun results hresults => ?_
    exact hwrites chunk results (by rw [hresults])
  | look =>
    obtain ⟨rfl, hrow, hrows, hlength, hopened⟩ := hpc
    obtain ⟨e₀, h₀, rfl⟩ := Option.map_eq_some_iff.mp hstep
    obtain ⟨_, _, _, _, hpc, -, rfl⟩ := ProcessChunk.look_cases h₀
    cases hpc
    refine .body ⟨rfl, hrow, hrows, List.length_set.trans hlength, fun hm => ?_⟩
    rcases List.mem_or_eq_of_mem_set hm with hm | heq
    · exact hopened hm
    · exact hbatch (Option.some.inj heq).symm
  | @reply _ _ j _ given seen outcomes item results hitem hresults =>
    obtain ⟨rfl, hrow, hrows, hlength, hopened⟩ := hpc
    obtain ⟨e₀, h₀, rfl⟩ := Option.map_eq_some_iff.mp hstep
    obtain ⟨_, _, _, _, value, status, outcome, hpc, hvalue, hseen, ho, rfl⟩ :=
      ProcessChunk.reply_cases h₀
    cases hpc
    obtain rfl := Option.some.inj (hitem.symm.trans hvalue)
    have hstatus : status ≠ .cancelled := fun heq => hopened (heq ▸ List.mem_of_getElem? hseen)
    rw [runOne_of_ne hstatus] at ho
    refine .body ⟨rfl, hrow, forall₂_set hrows (getElem?_rows out env chunk hitem) ?_, hlength,
      hopened⟩
    rintro x ⟨⟩
    rw [row, hresults, Option.bind_some, ho]
  | itemRaises hitem hnone =>
    obtain ⟨rfl, hrow, -⟩ := hpc
    cases hstep
    exact .handler ⟨⟨chunk, hrow, hopen⟩, not_fine_of_raises hitem hnone⟩
  | @writeRaises _ _ _ results row exc hmem hrefused =>
    obtain ⟨hrow, outcomes, houtcomes, rfl⟩ := hpc
    cases hstep
    refine .handler ⟨⟨chunk, hrow, hopen⟩, fun hfine => ?_⟩
    have hwrites := (allFine_iff houtcomes).mp hfine row
      ((perm_sortResults outcomes).mem_iff.mp hmem)
    rw [hrefused] at hwrites
    cases hwrites

theorem phase_handler {exc : String} {pc : ProcessChunk.Handler} {c : Choice} {e : Effect Frame}
    (hpc : out.AtHandler env i chunk items s pc)
    (hdue : out.Due env (.processChunk i deferBy (.handler chunk exc pc)) c)
    (hstep : (Frame.processChunk i deferBy (.handler chunk exc pc)).step env s c = some e) :
    out.Phase env i deferBy chunk items (worldOf e s) := by
  cases hdue with
  | next =>
    cases hstep
    exact phase_next_handler hpc

theorem eq_of_getElem?_single {α : Type} {x y : α} {k : Nat} (h : [x][k]? = some y) :
    k = 0 ∧ x = y := by
  cases k with
  | zero => exact ⟨rfl, Option.some.inj h⟩
  | succ k => cases h

/-- A move of a run is another job's, or a step of the body or of the handler. -/
theorem Phase.fire_cases {m : Move Choice Shared} (hphase : out.Phase env i deferBy chunk items w)
    (hm : Permitted out env i w m) (hf : (amid env).fire w m = some w') :
    (∃ s', m = .env s' ∧ Spares i w.shared s' ∧ w' = ⟨s', w.pool⟩) ∨
    (∃ c pc e, out.AtBody env i chunk items w.shared pc ∧
      out.Due env (.processChunk i deferBy (.body chunk pc)) c ∧
      (Frame.processChunk i deferBy (.body chunk pc)).step env w.shared c = some e ∧
      w' = worldOf e w.shared) ∨
    ∃ c exc pc e, out.AtHandler env i chunk items w.shared pc ∧
      out.Due env (.processChunk i deferBy (.handler chunk exc pc)) c ∧
      (Frame.processChunk i deferBy (.handler chunk exc pc)).step env w.shared c = some e ∧
      w' = worldOf e w.shared := by
  cases m with
  | act k c =>
    obtain ⟨frame, r, hk, hstep, rfl⟩ := fire_act_iff.mp hf
    obtain ⟨e, he, rfl⟩ := step_iff.mp hstep
    obtain ⟨frame', hk', hdue⟩ := hm
    obtain rfl := Option.some.inj (hk.symm.trans hk')
    cases hphase with
    | body hpc =>
      obtain ⟨rfl, rfl⟩ := eq_of_getElem?_single hk
      exact .inr (.inl ⟨c, _, e, hpc, hdue, he, rfl⟩)
    | handler hpc =>
      obtain ⟨rfl, rfl⟩ := eq_of_getElem?_single hk
      exact .inr (.inr ⟨c, _, _, e, hpc, hdue, he, rfl⟩)
    | succeeded | failed =>
      obtain ⟨job, -, rfl⟩ := List.mem_map.mp (List.mem_of_getElem? hk)
      cases hdue
  | env s' =>
    obtain ⟨r, hr, rfl⟩ := fire_env_iff.mp hf
    cases hr
    exact .inl ⟨s', rfl, hm, by rw [List.append_nil]⟩

end Phases

end Surroundings

end BatchInference
