import BatchInference.Workers.Atomic

/-!
# Lease exclusivity

A job holds a chunk from the moment `_lease_chunk` has returned the row until it returns or
its term ends. The row does not say who holds it: a job whose term is over and that fails or
is cancelled gives the row back under the job that holds it now, and a job that has given
the row back still holds the chunk until it returns. While neither happens, no two jobs hold
a chunk at a time.
-/

namespace BatchInference

open JobPool System

variable {env : Env} {now : Int} {s : Shared} {frame : Frame} {c : Choice} {e : Effect Frame}
  {v v' w : World Shared Frame} {m : Moves}

/-! ## Terms -/

/-- The chunk that the job has leased, and the end of its term. -/
def Frame.term (env : Env) : Frame → Option (Nat × Int)
  | .processChunk i _ pc => match pc with
    | .gotBatch => none
    | .leased _ now => some (i, now + env.chunkLeaseSeconds)
    | .body chunk _ | .handler chunk _ _ => chunk.leasedUntil.map fun u => (i, u)
  | _ => none

/-- The job holds chunk `i` at time `t`. -/
def Frame.holds (env : Env) (t : Int) (i : Nat) (f : Frame) : Bool :=
  (f.term env).any fun x => x.1 = i && t < x.2

/-- The job has given its chunk back and has not returned. -/
def Frame.released : Frame → Bool
  | .processChunk _ _ (.handler _ _ pc) => match pc with
    | .announceFailed | .reEnqueue => true
    | _ => false
  | _ => false

/-- The chunk that the move makes `_lease_chunk` look up, and its row. -/
def leaseCall (w : World Shared Frame) : Moves → Option (Nat × BatchChunk)
  | .act k .next => match w.pool[k]? with
    | some (.processChunk i _ .gotBatch) => w.shared.db.chunks[i]?.map fun row => (i, row)
    | _ => none
  | _ => none

/-- The chunk whose row `_lease_chunk` returns. -/
def grants (env : Env) (w : World Shared Frame) (m : Moves) : Option Nat :=
  (leaseCall w m).bind fun x => if x.2.refused env w.shared.now then none else some x.1

def standingBy (w : World Shared Frame) : Moves → List Frame
  | .act k _ => others w k
  | .env _ => w.pool

/-- Nobody gives a chunk back that another job holds, and none is leased while a job that has
given it back still holds it. -/
def LeaseKept (env : Env) (w : World Shared Frame) (m : Moves) : Prop :=
  (∀ i ∈ (commitOf env w m).bind Commit.releases, ∀ f ∈ standingBy w m,
      f.holds env w.shared.now i = false) ∧
    ∀ i ∈ grants env w m, ∀ f ∈ w.pool, f.released = true → f.holds env w.shared.now i = false

instance : DecidableRel (LeaseKept env) := fun w m =>
  inferInstanceAs <| Decidable <| (∀ i ∈ (commitOf env w m).bind Commit.releases,
    ∀ f ∈ standingBy w m, f.holds env w.shared.now i = false) ∧
    ∀ i ∈ grants env w m, ∀ f ∈ w.pool, f.released = true → f.holds env w.shared.now i = false

theorem Frame.holds_iff {t : Int} {i : Nat} {f : Frame} :
    f.holds env t i = true ↔ ∃ u, f.term env = some (i, u) ∧ t < u := by
  unfold holds
  cases f.term env with
  | none => simp
  | some x =>
    obtain ⟨j, u⟩ := x
    simp only [Option.any_some, Bool.and_eq_true, decide_eq_true_eq, Option.some.injEq,
      Prod.mk.injEq]
    exact ⟨fun ⟨hj, hu⟩ => ⟨u, ⟨hj, rfl⟩, hu⟩, fun ⟨u', ⟨hj, hu'⟩, hu⟩ => ⟨hj, hu' ▸ hu⟩⟩

/-! ## The row under a term -/

/-- While the term of `chunk` lasts, its row is leased for this term, or it has succeeded. -/
def Holding (db : Db) (t : Int) (i : Nat) (chunk : BatchChunk) : Prop :=
  ∀ u, chunk.leasedUntil = some u → t < u → ∃ row, db.chunks[i]? = some row ∧
    (row.status = .succeeded ∨ row.status = .leased ∧ row.leasedUntil = some u)

def Frame.Held (db : Db) (t : Int) : Frame → Prop
  | .processChunk i _ (.body chunk _) => Holding db t i chunk
  | .processChunk i _ (.handler chunk _ pc) => match pc with
    | .announceFailed | .reEnqueue => True
    | _ => Holding db t i chunk
  | _ => True

theorem Holding.mono {db : Db} {t t' : Int} {i : Nat} {chunk : BatchChunk}
    (h : Holding db t i chunk) (ht : t ≤ t') : Holding db t' i chunk :=
  fun u hu hlt => h u hu (ht.trans_lt hlt)

theorem Frame.Held.mono {f : Frame} {db : Db} {t t' : Int} (h : f.Held db t) (ht : t ≤ t') :
    f.Held db t' := by
  cases f with
  | processChunk i deferBy pc =>
    cases pc with
    | body => exact Holding.mono h ht
    | handler chunk exc pc => cases pc <;> first | trivial | exact Holding.mono h ht
    | _ => trivial
  | _ => trivial

/-- `_lease_chunk` refuses the row of a lasting term. -/
theorem refused_of_holding {row : BatchChunk} {t u : Int} (ht : t < u)
    (h : row.status = .succeeded ∨ row.status = .leased ∧ row.leasedUntil = some u) :
    row.refused env t = true := by
  rcases h with hs | ⟨hs, hu⟩
  · simp [BatchChunk.refused, hs]
  · simp [BatchChunk.refused, hs, hu, ht]

/-- No transaction ends a lasting term but one that gives the chunk back. -/
theorem Holding.commit {db : Db} {i : Nat} {chunk : BatchChunk} {commit : Commit}
    (h : Holding db now i chunk) (ht : Transaction env now db commit)
    (hkept : ∀ u, chunk.leasedUntil = some u → now < u → commit.releases ≠ some i) :
    Holding (commit.apply db) now i chunk := by
  intro u hu hlt
  obtain ⟨row, hrow, hheld⟩ := h u hu hlt
  refine ⟨_, Commit.getElem?_apply_of_row hrow commit, ?_⟩
  have hkept := hkept u hu hlt
  have hstep := ht.row_step hrow
  generalize commit.onRow i row = row' at hstep
  cases hstep with
  | stay => exact hheld
  | lease _ free ht =>
    rw [refused_of_holding (ht.trans_lt hlt) hheld] at free
    cases free
  | cancelRelease hc | fail hc => exact absurd (hc ▸ rfl) hkept
  | succeed => exact .inl rfl
  | unlease hx ht =>
    simp only [BatchChunk.expired, Bool.and_eq_true, decide_eq_true_eq] at hx
    obtain ⟨hleased, hx⟩ := hx
    rcases hheld with hs | ⟨-, hu⟩
    · simp [hs] at hleased
    · rw [hu, Option.any_some, decide_eq_true_eq] at hx
      exact absurd hx (ht.trans_lt hlt).not_gt

/-! ## One step -/

/-- A step that goes on in process_chunk does not give the chunk back, unless it goes on to
tell so. -/
theorem ProcessChunk.Goes.released {i j : Nat} (deferBy : Nat) {pc pc' : ProcessChunk.Pc}
    {committed : Option Commit} (h : ProcessChunk.Goes env s i c pc pc' committed)
    {commit : Commit} (hc : commit ∈ committed) (hj : commit.releases = some j) :
    (Frame.processChunk i deferBy pc').released = true := by
  cases h with
  | grant | look | reply | raise => cases hc
  | lease => cases hc; cases hj
  | @body chunk pc pc' e h hpc =>
    have hbody := ProcessChunk.Body.goes_of_step h hpc
    rw [Option.mem_def.mp hc] at hbody
    generalize e.put = put at hbody
    cases hbody
    cases hj
  | @handler chunk exc pc pc' hpc =>
    have hhandler := ProcessChunk.Handler.goes_of_step hpc
    rw [Option.mem_def.mp hc] at hhandler
    cases hhandler <;> rfl

theorem Frame.Held.frames (hs : frame.Snapshot env s.db s.now) (hf : frame.Held s.db s.now)
    (h : frame.step env s c = some e)
    (ht : ∀ commit ∈ e.commit, Transaction env s.now s.db commit) :
    ∀ f ∈ e.frames, f.Held (e.shared s).db s.now := by
  intro f hm
  cases f with
  | processChunk i deferBy pc =>
    obtain ⟨-, rfl, -⟩ | ⟨pc₀, rfl, hgoes⟩ := processChunk_of_step h hm
    · trivial
    · have hdb : (e.shared s).db = e.commit.elim s.db (·.apply s.db) := rfl
      rw [hdb]
      generalize e.commit = committed at hgoes ht
      have holding {chunk : BatchChunk} (hh : Holding s.db s.now i chunk)
          (hlast : (Frame.processChunk i deferBy pc).released = false) :
          Holding (committed.elim s.db (·.apply s.db)) s.now i chunk := by
        cases committed with
        | none => exact hh
        | some commit =>
          refine hh.commit (ht commit rfl) fun _ _ _ hi => ?_
          rw [hgoes.released deferBy rfl hi] at hlast
          cases hlast
      cases hgoes with
      | grant => trivial
      | @lease loaded t =>
        rintro u ⟨⟩ -
        obtain ⟨-, hrow, -, -⟩ := hs
        exact ⟨_, Commit.getElem?_apply_of_row hrow _,
          .inr (by simp [Commit.onRow, BatchChunk.lease])⟩
      | body | look | reply | raise => exact holding hf rfl
      | @handler chunk exc pc pc' hpc =>
        have hhandler := ProcessChunk.Handler.goes_of_step hpc
        generalize (pc.step env s i exc).commit = commit at hhandler holding ⊢
        cases hhandler with
        | load | loadBatch => exact holding hf rfl
        | giveUp | retry => trivial
  | _ => trivial

/-! ## Every run -/

/-- At most one job holds each chunk, and the rows agree. -/
structure Exclusive (env : Env) (v : World Shared Frame) : Prop where
  count : ∀ i, v.pool.countP (·.holds env v.shared.now i) ≤ 1
  held : ∀ f ∈ v.pool, f.Held v.shared.db v.shared.now

/-- A job that holds a chunk after a step held it before, or has been granted it. -/
theorem holds_of_step (h : frame.step env s c = some e) {f : Frame} (hm : f ∈ e.frames)
    {i : Nat} (hi : f.holds env s.now i = true) : frame.holds env s.now i = true ∨
      c = .next ∧ ∃ deferBy row, frame = .processChunk i deferBy .gotBatch ∧
        s.db.chunks[i]? = some row ∧ row.refused env s.now = false := by
  obtain ⟨u, hu, hlt⟩ := Frame.holds_iff.mp hi
  cases f with
  | processChunk j deferBy pc =>
    obtain ⟨-, rfl, -⟩ | ⟨pc₀, rfl, hgoes⟩ := processChunk_of_step h hm
    · cases hu
    · generalize e.commit = committed at hgoes
      cases hgoes with
      | @grant row hrow free =>
        cases hu
        exact .inr ⟨rfl, deferBy, row, rfl, hrow, free⟩
      | lease | body | look | reply | raise | handler =>
        exact .inl (Frame.holds_iff.mpr ⟨u, hu, hlt⟩)
  | _ => cases hu

/-- `_lease_chunk` refuses the row of a chunk that another job holds. -/
theorem not_holds_of_grant {k deferBy i : Nat} {row : BatchChunk}
    (hk : v.pool[k]? = some (.processChunk i deferBy .gotBatch))
    (hrow : v.shared.db.chunks[i]? = some row) (free : row.refused env v.shared.now = false)
    (hatomic : Atomic v (.act k .next)) (hkept : LeaseKept env v (.act k .next))
    (hheld : ∀ f ∈ v.pool, f.Held v.shared.db v.shared.now) {f : Frame} (hf : f ∈ others v k) :
    f.holds env v.shared.now i = false := by
  refine eq_false_of_ne_true fun hholds => ?_
  have hmem := mem_of_mem_others hf
  have hbusy := hatomic _ hk rfl f hf
  have hreleased : f.released = false := by
    refine eq_false_of_ne_true fun hr => ?_
    rw [hkept.2 i (by simp [grants, leaseCall, hk, hrow, free]) f hmem hr] at hholds
    cases hholds
  obtain ⟨u, hu, hlt⟩ := Frame.holds_iff.mp hholds
  have refuted {chunk : BatchChunk} (hh : Holding v.shared.db v.shared.now i chunk)
      (hc : chunk.leasedUntil = some u) : False := by
    obtain ⟨row', hrow', hs⟩ := hh u hc hlt
    obtain rfl := Option.some.inj (hrow.symm.trans hrow')
    rw [refused_of_holding hlt hs] at free
    cases free
  cases f with
  | processChunk j d pc =>
    cases pc with
    | gotBatch | leased => cases hbusy
    | body chunk pc =>
      obtain ⟨u', hc, hx⟩ := Option.map_eq_some_iff.mp hu
      cases hx
      exact refuted (hheld _ hmem) hc
    | handler chunk exc pc =>
      obtain ⟨u', hc, hx⟩ := Option.map_eq_some_iff.mp hu
      cases hx
      have := hheld _ hmem
      cases pc with
      | announceFailed | reEnqueue => cases hreleased
      | _ => exact refuted this hc
  | _ => cases hu

theorem Frame.holds_mono {t t' : Int} {i : Nat} {f : Frame} (ht : t ≤ t')
    (h : f.holds env t' i = true) : f.holds env t i = true := by
  obtain ⟨u, hu, hlt⟩ := holds_iff.mp h
  exact holds_iff.mpr ⟨u, hu, ht.trans_lt hlt⟩

theorem Frame.Held.commit {f : Frame} {db : Db} {commit : Commit} (hf : f.Held db now)
    (ht : Transaction env now db commit)
    (hkept : ∀ i, commit.releases = some i → f.holds env now i = false) :
    f.Held (commit.apply db) now := by
  have holding {i : Nat} {chunk : BatchChunk} (hh : Holding db now i chunk)
      (hterm : f.term env = chunk.leasedUntil.map fun u => (i, u)) :
      Holding (commit.apply db) now i chunk := by
    refine hh.commit ht fun u hu hlt hi => ?_
    have hholds : f.holds env now i = true := holds_iff.mpr ⟨u, by rw [hterm, hu]; rfl, hlt⟩
    rw [hkept i hi] at hholds
    cases hholds
  cases f with
  | processChunk i deferBy pc =>
    cases pc with
    | body => exact holding hf rfl
    | handler chunk exc pc => cases pc <;> first | trivial | exact holding hf rfl
    | _ => trivial
  | _ => trivial

theorem Effect.countP_frames_le (env : Env) (e : Effect Frame) (t : Int) (i : Nat) :
    e.frames.countP (·.holds env t i) ≤ 1 := by
  have hjobs : (e.jobs.map Frame.queued).countP (·.holds env t i) = 0 := by
    simp [List.countP_eq_zero, Frame.holds, Frame.term]
  rw [frames, List.countP_append, hjobs, Nat.add_zero]
  refine List.countP_le_length.trans ?_
  cases e.next <;> simp

theorem Exclusive.fire (hr : (workers env).Reach Atomic (created env now) v)
    (h : Exclusive env v) (hatomic : Atomic v m) (hkept : LeaseKept env v m)
    (hf : (workers env).fire v m = some v') : Exclusive env v' := by
  rcases fire_cases hf with ⟨jobs, -, hdb, -, hnow, hpool⟩ |
    ⟨k, c, frame, e, rfl, hk, he, ⟨hcommit, -⟩, hshared, hpool⟩
  · refine ⟨fun i => ?_, ?_⟩
    · have hjobs : (jobs.map Frame.queued).countP (·.holds env v'.shared.now i) = 0 := by
        simp [List.countP_eq_zero, Frame.holds, Frame.term]
      rw [hpool, List.countP_append, hjobs, Nat.add_zero]
      refine (List.countP_mono_left fun f _ hf => ?_).trans (h.count i)
      exact Frame.holds_mono hnow hf
    · rw [hdb]
      exact forall_pool_of_queued hpool (fun f hm => (h.held f hm).mono hnow) fun _ => trivial
  · have hmem := List.mem_of_getElem? hk
    have hnow : v'.shared.now = v.shared.now := by rw [hshared]; rfl
    have ht : ∀ commit ∈ e.commit, Transaction env v.shared.now v.shared.db commit :=
      fun commit hc => transaction_of_commitOf hr (hcommit.trans hc)
    refine ⟨fun i => ?_, fun f hm => ?_⟩
    · rw [hpool, hnow, List.countP_append]
      have hcount := h.count i
      rw [(perm_others hk).countP_eq, List.countP_cons] at hcount
      have hone := e.countP_frames_le env v.shared.now i
      rcases Nat.eq_zero_or_pos (e.frames.countP (·.holds env v.shared.now i)) with hz | hpos
      · omega
      · obtain ⟨f, hm, hholds⟩ := List.countP_pos_iff.mp hpos
        rcases holds_of_step he hm hholds with hframe | ⟨rfl, deferBy, row, rfl, hrow, free⟩
        · rw [if_pos hframe] at hcount
          omega
        · have hothers : (others v k).countP (·.holds env v.shared.now i) = 0 := by
            refine List.countP_eq_zero.mpr fun f hf => ?_
            simp [not_holds_of_grant hk hrow free hatomic hkept h.held hf]
          omega
    · rw [hnow, hshared]
      rcases List.mem_append.mp (hpool ▸ hm) with hm | hm
      · have hf := h.held f (mem_of_mem_others hm)
        cases hc : e.commit with
        | none => simpa [Effect.shared, hc] using hf
        | some commit =>
          have hdb : (e.shared v.shared).db = commit.apply v.shared.db := by
            rw [Effect.shared, hc]
            rfl
          rw [hdb]
          refine hf.commit (ht commit hc) fun i hi => ?_
          exact hkept.1 i (by simp [hcommit, hc, hi]) f hm
      · exact (h.held frame hmem).frames (snapshot_of_reach hr frame hmem) he ht f hm

/-- In every serial run whose steps keep the leases, at most one job holds each chunk. -/
theorem lease_exclusive
    (h : (workers env).Reach (fun v m => Atomic v m ∧ LeaseKept env v m) (created env now) w)
    (i : Nat) : w.pool.countP (·.holds env w.shared.now i) ≤ 1 := by
  refine (Reach.invariant (P := Exclusive env) (fun v hv => hv.mono fun _ _ hm => hm.1) ?_
    (fun v m v' hr hx hm hf => hx.fire hr hm.1 hm.2 hf) h).count i
  exact ⟨fun i => by simp [created, Frame.holds, Frame.term], by simp [created, Frame.Held]⟩

/-- A job leases the chunk of two prompts and outlives its term; the check enqueues the chunk
again, and a second job leases it. -/
def leasedAgainRun : List Moves :=
  steps 0 7 ++ steps 1 3 ++ [.env (.tick 301)] ++ steps 0 1 ++ steps 1 7 ++ steps 2 2

theorem lease_exclusive_leasedAgain : ∃ w,
    (workers (twoPrompts 2 5)).Reach (fun v m => Atomic v m ∧ LeaseKept (twoPrompts 2 5) v m)
      (created (twoPrompts 2 5) 0) w ∧
    w.pool.map (·.holds (twoPrompts 2 5) w.shared.now 0) = [false, false, true] ∧
    w.pool.countP (·.holds (twoPrompts 2 5) w.shared.now 0) ≤ 1 := by
  have hrun : ((workers (twoPrompts 2 5)).run
      (fun v m => Atomic v m ∧ LeaseKept (twoPrompts 2 5) v m) (created (twoPrompts 2 5) 0)
      leasedAgainRun).map (fun w => w.pool.map fun f =>
        f.holds (twoPrompts 2 5) w.shared.now 0) = some [false, false, true] := by decide +kernel
  obtain ⟨w, hw, hpool⟩ := Option.map_eq_some_iff.mp hrun
  exact ⟨w, .of_run hw, hpool, lease_exclusive (.of_run hw) 0⟩

/-- The first job fails under the second one's lease, and a third job gets the chunk. -/
theorem two_jobs_hold_chunk : ∃ w,
    (workers (twoPrompts 2 5)).Reach Atomic (created (twoPrompts 2 5) 0) w ∧
    w.pool.countP (·.holds (twoPrompts 2 5) w.shared.now 0) = 2 := by
  have hrun : ((workers (twoPrompts 2 5)).run Atomic (created (twoPrompts 2 5) 0)
      (leasedAgainRun ++ steps 2 1 ++ [.act 0 (.raise "disk")] ++ steps 2 4 ++
        [.env (.tick 2)] ++ steps 2 3)).map (fun w => w.pool.countP fun f =>
          f.holds (twoPrompts 2 5) w.shared.now 0) = some 2 := by decide +kernel
  obtain ⟨w, hw, hcount⟩ := Option.map_eq_some_iff.mp hrun
  exact ⟨w, .of_run hw, hcount⟩

end BatchInference
