import BatchInference.Workers.Lease

/-!
# The retry budget

`attempts` counts the leases of a chunk. `_lease_chunk` looks at the budget of a failed row
only, and a row whose worker has been killed comes back pending. The budget is kept if and
only if no such row is looked up when its attempts are spent.
-/

namespace BatchInference

open JobPool System

variable {env : Env} {now : Int} {v v' w : World Shared Frame} {m : Moves}

/-- A chunk whose attempts are spent and that `_lease_chunk` looks up is failed, succeeded or
under a lease that lasts; and rows are only added under a budget that is not negative. -/
def BudgetGuarded (env : Env) (w : World Shared Frame) (m : Moves) : Prop :=
  (∀ x ∈ leaseCall w m, env.chunkMaxAttempts ≤ x.2.attempts →
    x.2.status = .failed ∨ x.2.status = .succeeded ∨
      x.2.status = .leased ∧ x.2.leasedUntil.any (w.shared.now < ·) = true) ∧
    ∀ commit ∈ commitOf env w m, commit.inserted ≠ [] → 0 ≤ env.chunkMaxAttempts

/-- After the step no row is over the budget, and the step does not grant a spent chunk. -/
def WithinBudget (env : Env) (v : World Shared Frame) (m : Moves) (v' : World Shared Frame) :
    Prop :=
  (∀ row ∈ v'.shared.db.chunks, (row.attempts : Int) ≤ env.chunkMaxAttempts) ∧
    ∀ i ∈ grants env v m, ∀ row ∈ v.shared.db.chunks[i]?,
      (row.attempts : Int) < env.chunkMaxAttempts

/-- How often chunk `i` is leased in the run of `ms`. -/
def leaseCount (env : Env) (i : Nat) : World Shared Frame → List Moves → Nat
  | _, [] => 0
  | v, m :: ms =>
    (if (commitOf env v m).bind Commit.leases = some i then 1 else 0) +
      (((workers env).fire v m).map fun v' => leaseCount env i v' ms).getD 0

/-! ## Attempts count leases -/

theorem Transaction.attempts_onRow {db : Db} {commit : Commit}
    (h : Transaction env now db commit) {i : Nat} {row : BatchChunk}
    (hrow : db.chunks[i]? = some row) : (commit.onRow i row).attempts =
      row.attempts + if commit.leases = some i then 1 else 0 := by
  by_cases hl : commit.leases = some i
  · rw [if_pos hl]
    cases h with
    | lease active hj free =>
      cases hl
      obtain rfl := Option.some.inj (hj.symm.trans hrow)
      simp [Commit.onRow, BatchChunk.lease]
    | _ => cases hl
  · rw [if_neg hl]
    have hstep := h.row_step hrow
    generalize commit.onRow i row = row' at hstep
    cases hstep with
    | lease hc => exact absurd (hc ▸ rfl) hl
    | _ => rfl

def rowAttempts (v : World Shared Frame) (i : Nat) : Nat :=
  (v.shared.db.chunks[i]?).elim 0 (·.attempts)

theorem rowAttempts_fire (hr : (workers env).Reach Atomic (created env now) v)
    (hf : (workers env).fire v m = some v') (i : Nat) : rowAttempts v' i =
      rowAttempts v i + if (commitOf env v m).bind Commit.leases = some i then 1 else 0 := by
  have hdb := db_of_fire hf
  cases hc : commitOf env v m with
  | none =>
    rw [hc, Option.elim_none] at hdb
    simp [rowAttempts, hdb]
  | some commit =>
    rw [hc, Option.elim_some] at hdb
    have ht := transaction_of_commitOf hr hc
    rw [rowAttempts, rowAttempts, hdb, Option.bind_some]
    cases hrow : v.shared.db.chunks[i]? with
    | some row =>
      rw [Commit.getElem?_apply_of_row hrow]
      exact ht.attempts_onRow hrow
    | none =>
      have hl : commit.leases ≠ some i := by
        cases ht with
        | lease active hj => rintro ⟨⟩; simp [hrow] at hj
        | _ => nofun
      rw [if_neg hl]
      cases hrow' : (commit.apply v.shared.db).chunks[i]? with
      | none => rfl
      | some row' =>
        rcases ht.row_origin hrow' with ⟨row, hrow₀, -⟩ | ⟨-, entry, -, rfl⟩
        · simp [hrow] at hrow₀
        · rfl

theorem leaseCount_eq {ms : List Moves} (hr : (workers env).Reach Atomic (created env now) v)
    (hrun : (workers env).run Atomic v ms = some w) (i : Nat) :
    rowAttempts w i = rowAttempts v i + leaseCount env i v ms := by
  induction ms generalizing v with
  | nil => obtain rfl := Option.some.inj hrun; rfl
  | cons m ms ih =>
    obtain ⟨hm, u, hu, hrest⟩ := run_cons_iff.mp hrun
    rw [ih (hr.step hm hu) hrest, rowAttempts_fire hr hu, leaseCount, hu, Option.map_some,
      Option.getD_some, Nat.add_assoc]

/-! ## The budget -/

theorem Commits.of_lease {s : Shared} {frame : Frame} {i : Nat} {loaded new : BatchChunk}
    (h : Commits env s frame (.lease i loaded new)) :
    ∃ deferBy t, frame = .processChunk i deferBy (.leased loaded t) := by
  cases h
  exact ⟨_, _, rfl⟩

/-- The job has not been granted a spent chunk. -/
def Frame.Unspent (env : Env) : Frame → Prop
  | .processChunk _ _ (.leased loaded _) => (loaded.attempts : Int) < env.chunkMaxAttempts
  | _ => True

structure Budget (env : Env) (v : World Shared Frame) : Prop where
  rows : ∀ row ∈ v.shared.db.chunks, (row.attempts : Int) ≤ env.chunkMaxAttempts
  jobs : ∀ f ∈ v.pool, f.Unspent env

/-- `_lease_chunk` refuses spent rows, as far as the guard goes. -/
theorem BudgetGuarded.unspent (h : BudgetGuarded env v m) {i : Nat} {row : BatchChunk}
    (hcall : leaseCall v m = some (i, row)) (free : row.refused env v.shared.now = false) :
    (row.attempts : Int) < env.chunkMaxAttempts := by
  refine lt_of_not_ge fun hspent => ?_
  have hx := h.1 _ hcall hspent
  simp only [BatchChunk.refused, Bool.or_eq_false_iff, Bool.and_eq_false_iff,
    decide_eq_false_iff_not] at free
  obtain ⟨⟨hs, hf⟩, hl⟩ := free
  rcases hx with hx | hx | ⟨hx, hu⟩
  · exact hf.elim (absurd hspent) (absurd hx)
  · exact hs hx
  · rcases hl with hl | hl
    · exact hl hx
    · rw [hu] at hl
      cases hl

theorem Budget.fire (hr : (workers env).Reach Atomic (created env now) v) (h : Budget env v)
    (hguard : BudgetGuarded env v m) (hf : (workers env).fire v m = some v') :
    Budget env v' := by
  rcases fire_cases hf with ⟨jobs, -, hdb, -, -, hpool⟩ |
    ⟨k, c, frame, e, rfl, hk, he, ⟨hcommit, -⟩, hshared, hpool⟩
  · exact ⟨hdb ▸ h.rows, forall_pool_of_queued hpool h.jobs fun _ => trivial⟩
  · refine ⟨fun row' hm => ?_, fun f hm => ?_⟩
    · have hdb := db_of_fire hf
      cases hc : e.commit with
      | none =>
        rw [hcommit, hc, Option.elim_none] at hdb
        exact h.rows row' (hdb ▸ hm)
      | some commit =>
        rw [hcommit, hc, Option.elim_some] at hdb
        rw [hdb] at hm
        obtain ⟨i, hi⟩ := List.getElem?_of_mem hm
        rcases (transaction_of_commitOf hr (hcommit.trans hc)).row_origin hi with
          ⟨row, hrow, hstep⟩ | ⟨hempty, entry, -, rfl⟩
        · have hbound := h.rows row (List.mem_of_getElem? hrow)
          cases hstep with
          | lease hl =>
            subst hl
            obtain ⟨deferBy, t, rfl⟩ := (commits_of_step he hc).of_lease
            exact Int.add_one_le_iff.mpr (h.jobs _ (List.mem_of_getElem? hk))
          | _ => exact hbound
        · refine hguard.2 commit (hcommit.trans hc) fun hins => ?_
          simp [Commit.apply, hempty, hins] at hm
    · rcases List.mem_append.mp (hpool ▸ hm) with hm | hm
      · exact h.jobs f (mem_of_mem_others hm)
      · unfold Frame.Unspent
        split
        · rename_i i deferBy loaded t _
          obtain ⟨-, hpc, -⟩ | ⟨pc₀, rfl, hgoes⟩ := processChunk_of_step he hm
          · cases hpc
          · generalize e.commit = committed at hgoes
            cases hgoes with
            | grant hrow free =>
              exact hguard.unspent (i := i) (by simp [leaseCall, hk, hrow]) free
        · trivial

theorem cases_of_refused {row : BatchChunk} {t : Int} (h : row.refused env t = true) :
    row.status = .failed ∨ row.status = .succeeded ∨
      row.status = .leased ∧ row.leasedUntil.any (t < ·) = true := by
  simp only [BatchChunk.refused, Bool.or_eq_true, Bool.and_eq_true, decide_eq_true_eq] at h
  rcases h with (h | ⟨-, h⟩) | h
  · exact .inr (.inl h)
  · exact .inl h
  · exact .inr (.inr h)

theorem row_of_leaseCall {i : Nat} {row : BatchChunk} (h : leaseCall v m = some (i, row)) :
    v.shared.db.chunks[i]? = some row := by
  unfold leaseCall at h
  split at h
  · split at h
    · obtain ⟨row', hrow, hx⟩ := Option.map_eq_some_iff.mp h
      cases hx
      exact hrow
    · cases h
  · cases h

theorem grants_iff {i : Nat} : grants env v m = some i ↔
    ∃ row, leaseCall v m = some (i, row) ∧ row.refused env v.shared.now = false := by
  unfold grants
  cases leaseCall v m with
  | none => simp
  | some x =>
    obtain ⟨j, row⟩ := x
    cases hr : row.refused env v.shared.now <;> simp [hr, and_comm]

/-- Rows are added where there are none, and they have no attempts. -/
theorem Transaction.fresh {db : Db} {commit : Commit} (h : Transaction env now db commit)
    (hins : commit.inserted ≠ []) :
    db.chunks = [] ∧ ∀ row ∈ (commit.apply db).chunks, row.attempts = 0 := by
  have hempty : db.chunks = [] := by
    cases h with
    | orchestrate => by_contra hne; simp [Commit.inserted, hne] at hins
    | _ => exact absurd rfl hins
  refine ⟨hempty, fun row hm => ?_⟩
  obtain ⟨i, hi⟩ := List.getElem?_of_mem hm
  rcases h.row_origin hi with ⟨row₀, hrow₀, -⟩ | ⟨-, entry, -, rfl⟩
  · simp [hempty] at hrow₀
  · rfl

theorem withinBudget_iff (hr : (workers env).Reach Atomic (created env now) v)
    (h : Budget env v) (hf : (workers env).fire v m = some v') :
    WithinBudget env v m v' ↔ BudgetGuarded env v m := by
  constructor
  · rintro ⟨hrows, hgrant⟩
    refine ⟨fun ⟨i, row⟩ hx hspent => ?_, fun commit hc hins => ?_⟩
    · by_contra hcon
      have free : row.refused env v.shared.now = false :=
        eq_false_of_ne_true fun hr => hcon (cases_of_refused hr)
      have := hgrant i (grants_iff.mpr ⟨row, hx, free⟩) row (row_of_leaseCall hx)
      exact absurd hspent this.not_ge
    · obtain ⟨hempty, hfresh⟩ := (transaction_of_commitOf hr hc).fresh hins
      have hne : (commit.apply v.shared.db).chunks ≠ [] := by
        simpa [Commit.apply, hempty] using hins
      obtain ⟨row, hm⟩ := List.exists_mem_of_ne_nil _ hne
      have hdb := db_of_fire hf
      rw [hc, Option.elim_some] at hdb
      simpa [hfresh row hm] using hrows row (hdb ▸ hm)
  · intro hguard
    refine ⟨(h.fire hr hguard hf).rows, fun i hi row hrow => ?_⟩
    obtain ⟨row', hcall, free⟩ := grants_iff.mp hi
    obtain rfl := Option.some.inj ((row_of_leaseCall hcall).symm.trans hrow)
    exact hguard.unspent hcall free

/-- In a serial run no row goes over the budget, no spent chunk is granted and no chunk is
leased more often than the budget allows, if and only if every spent chunk that is looked up
is failed, succeeded or under a lease. -/
theorem attempts_within_budget_iff {ms : List Moves}
    (hrun : (workers env).run Atomic (created env now) ms = some w) :
    ((workers env).Along (WithinBudget env) (created env now) ms ∧
        ∀ i row, w.shared.db.chunks[i]? = some row →
          (leaseCount env i (created env now) ms : Int) ≤ env.chunkMaxAttempts) ↔
      (workers env).Along (fun v m _ => BudgetGuarded env v m) (created env now) ms := by
  have hstart : Budget env (created env now) :=
    ⟨by simp [created], by simp [created, Frame.Unspent]⟩
  have hiff : (workers env).Along (WithinBudget env) (created env now) ms ↔
      (workers env).Along (fun v m _ => BudgetGuarded env v m) (created env now) ms := by
    refine Along.congr (Q := fun v => (workers env).Reach Atomic (created env now) v ∧
      Budget env v) (.of_run hrun) ⟨.refl, hstart⟩ fun v m v' hv hm hf => ?_
    have hstep := withinBudget_iff hv.1 hv.2 hf
    exact ⟨hstep, fun h => ⟨hv.1.step hm hf, hv.2.fire hv.1 (hstep.mp h) hf⟩⟩
  refine ⟨fun h => hiff.mp h.1, fun h => ⟨hiff.mpr h, fun i row hrow => ?_⟩⟩
  have hbudget : Budget env w := by
    refine Reach.invariant (P := Budget env) (fun v hv => hv.mono fun _ _ hm => hm.1) hstart
      (fun v m v' hr hb hm hf => hb.fire hr hm.2 hf) (h.reach hrun)
  have hcount := leaseCount_eq .refl hrun i
  rw [rowAttempts, hrow] at hcount
  have := hbudget.rows row (List.mem_of_getElem? hrow)
  simp only [Option.elim_some, rowAttempts, created, List.getElem?_nil, Option.elim_none,
    Nat.zero_add] at hcount
  exact hcount ▸ this

theorem attempts_within_budget_iff_leasedAgain : ∃ w,
    (workers (twoPrompts 2 5)).run Atomic (created (twoPrompts 2 5) 0) leasedAgainRun = some w ∧
    w.shared.db.chunks.map (·.attempts) = [2] ∧
    ((workers (twoPrompts 2 5)).Along (WithinBudget (twoPrompts 2 5))
        (created (twoPrompts 2 5) 0) leasedAgainRun ∧
      (∀ i row, w.shared.db.chunks[i]? = some row →
        (leaseCount (twoPrompts 2 5) i (created (twoPrompts 2 5) 0) leasedAgainRun : Int) ≤ 5) ↔
      (workers (twoPrompts 2 5)).Along (fun v m _ => BudgetGuarded (twoPrompts 2 5) v m)
        (created (twoPrompts 2 5) 0) leasedAgainRun) := by
  have hrun : ((workers (twoPrompts 2 5)).run Atomic (created (twoPrompts 2 5) 0)
      leasedAgainRun).map (fun w => w.shared.db.chunks.map (·.attempts)) = some [2] := by
    decide +kernel
  obtain ⟨w, hw, hattempts⟩ := Option.map_eq_some_iff.mp hrun
  exact ⟨w, hw, hattempts, attempts_within_budget_iff hw⟩

/-- With a budget of one: the worker is cancelled by its timeout, the check reclaims the
lease, and the chunk is leased a second time. -/
theorem spent_chunk_leased : ∃ w,
    (workers (twoPrompts 2 1)).Reach Atomic (created (twoPrompts 2 1) 0) w ∧
    (twoPrompts 2 1).chunkMaxAttempts = 1 ∧ w.shared.db.chunks.map (·.attempts) = [2] := by
  have hrun : ((workers (twoPrompts 2 1)).run Atomic (created (twoPrompts 2 1) 0)
      (steps 0 7 ++ steps 1 3 ++ [.act 1 .timeout, .env (.tick 301)] ++ steps 0 8 ++
        steps 1 3)).map (fun w => w.shared.db.chunks.map (·.attempts)) = some [2] := by
    decide +kernel
  obtain ⟨w, hw, hattempts⟩ := Option.map_eq_some_iff.mp hrun
  exact ⟨w, .of_run hw, rfl, hattempts⟩

end BatchInference
