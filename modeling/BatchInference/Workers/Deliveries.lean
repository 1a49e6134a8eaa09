import BatchInference.Workers.Announced

/-!
# Deliveries of one webhook

A delivery loads the batch, makes its POST, and then writes the webhook's two columns from
what it has loaded: it adds 1 to the old count of attempts, and it looks neither at the status
nor at what other deliveries have committed in the meantime. Both columns are right as long
as no two deliveries overlap and none fails for good on a row that it has found delivered; as
soon as one does, one of them is wrong.
-/

namespace BatchInference

open JobPool System

variable {env : Env} {now : Int} {s : Shared} {frame : Frame} {c : Choice} {e : Effect Frame}
  {v v' w w' : World Shared Frame} {m : Moves}

/-! ## The columns of the webhook -/

namespace Commit

/-- The `webhook_status` that the UPDATE of the batch sets, if it names the column. -/
def webhookSet : Commit → Option WebhookStatus
  | orchestrate loaded new _ _ | check loaded new _ | finalize loaded new
  | webhook loaded new | cancel loaded new | failure _ _ _ loaded new =>
    if new.webhookStatus = loaded.webhookStatus then none else some new.webhookStatus
  | lease .. | success .. | cancelRelease .. | requeue _ | reclaim _ => none

def isDelivery : Commit → Bool
  | webhook .. => true
  | _ => false

theorem webhookStatus_onBatch (commit : Commit) (batch : Batch) :
    (commit.onBatch batch).webhookStatus = commit.webhookSet.getD batch.webhookStatus := by
  cases commit with
  | lease i loaded new =>
    simp only [onBatch, webhookSet]
    split <;> rfl
  | success | cancelRelease | requeue | reclaim => rfl
  | _ =>
    simp only [onBatch, webhookSet, Batch.flush, column]
    split <;> rfl

end Commit

/-- Only a delivery writes the webhook's columns. -/
theorem Commits.webhook_cases {commit : Commit} (h : Commits env s frame commit) :
    (commit.isDelivery = false ∧ commit.webhookSet = none ∧
      ∀ batch, (commit.onBatch batch).webhookAttempts = batch.webhookAttempts) ∨
    ∃ event deferBy loaded ok, frame = .deliverBatchWebhook event deferBy (.posted loaded ok) ∧
      commit = .webhook loaded (DeliverWebhook.attempt env ok loaded) := by
  cases h with
  | webhook => exact .inr ⟨_, _, _, _, rfl, rfl⟩
  | lease =>
    refine .inl ⟨rfl, rfl, fun batch => ?_⟩
    simp only [Commit.onBatch]
    split <;> rfl
  | cancel =>
    left
    simp only [Commit.isDelivery, Commit.webhookSet, Commit.onBatch, cancelBatch]
    split <;> simp [Batch.flush]
  | success | cancelRelease | requeue | reclaim => exact .inl ⟨rfl, rfl, fun _ => rfl⟩
  | _ =>
    left
    simp [Commit.isDelivery, Commit.webhookSet, Commit.onBatch, Batch.flush, Orchestrate.run,
      ProcessChunk.failBatch, CheckCompletion.failBatch, Finalize.complete]

@[simp] theorem webhookAttempts_onBatch_webhook (ok : Bool) (loaded batch : Batch) :
    ((Commit.webhook loaded (DeliverWebhook.attempt env ok loaded)).onBatch batch).webhookAttempts =
      loaded.webhookAttempts + 1 :=
  column_of_ne (Nat.succ_ne_self _) _

/-! ## What a move does to them -/

/-- The move commits a delivery. -/
def commitsDelivery (env : Env) (w : World Shared Frame) (m : Moves) : Bool :=
  (commitOf env w m).any (·.isDelivery)

/-- The move commits an UPDATE that sets this status. -/
def Sets (env : Env) (status : WebhookStatus) (w : World Shared Frame) (m : Moves) : Prop :=
  (commitOf env w m).bind (·.webhookSet) = some status

instance (env : Env) (status : WebhookStatus) : DecidableRel (Sets env status) := fun w m =>
  inferInstanceAs (Decidable ((commitOf env w m).bind (·.webhookSet) = some status))

theorem delivery_cases (env : Env) (w : World Shared Frame) (m : Moves) :
    (commitsDelivery env w m = false ∧ (∀ status, ¬ Sets env status w m) ∧
      ∀ w', (workers env).fire w m = some w' →
        w'.shared.db.batch.webhookAttempts = w.shared.db.batch.webhookAttempts ∧
        w'.shared.db.batch.webhookStatus = w.shared.db.batch.webhookStatus) ∨
    ∃ i event deferBy loaded ok, m = .act i .next ∧
      w.pool[i]? = some (.deliverBatchWebhook event deferBy (.posted loaded ok)) ∧
      commitOf env w m = some (.webhook loaded (DeliverWebhook.attempt env ok loaded)) := by
  cases hc : commitOf env w m with
  | none =>
    refine .inl ⟨by simp [commitsDelivery, hc], by simp [Sets, hc], fun w' hf => ?_⟩
    rw [db_of_fire hf, hc]
    exact ⟨rfl, rfl⟩
  | some commit =>
    cases m with
    | env => cases hc
    | act i c =>
      obtain ⟨frame, hk, h⟩ := Option.bind_eq_some_iff.mp hc
      obtain ⟨e, he, hcommit⟩ := Option.bind_eq_some_iff.mp h
      rcases (commits_of_step he hcommit).webhook_cases with ⟨hnot, hset, hattempts⟩ |
        ⟨event, deferBy, loaded, ok, rfl, rfl⟩
      · refine .inl ⟨by simp [commitsDelivery, hc, hnot], by simp [Sets, hc, hset],
          fun w' hf => ?_⟩
        rw [db_of_fire hf, hc, Option.elim_some, Commit.batch_apply,
          Commit.webhookStatus_onBatch, hset]
        exact ⟨hattempts _, rfl⟩
      · cases c with
        | next => exact .inr ⟨i, event, deferBy, loaded, ok, rfl, hk, rfl⟩
        | look | reply | posted | backoff | raise | crash | timeout =>
          cases he <;> cases hcommit

theorem status_of_fire (hf : (workers env).fire w m = some w') :
    w'.shared.db.batch.webhookStatus =
      ((commitOf env w m).bind (·.webhookSet)).getD w.shared.db.batch.webhookStatus := by
  rw [db_of_fire hf]
  cases commitOf env w m with
  | none => rfl
  | some commit => exact commit.webhookStatus_onBatch _

/-! ## Deliveries in turn -/

/-- A delivery that is about to commit: the row has still the count that the delivery has
loaded, and if the row was delivered then, the POST has not failed with the attempts spent. -/
def Frame.InTurn (env : Env) (s : Shared) : Frame → Prop
  | .deliverBatchWebhook _ _ (.posted loaded ok) =>
    loaded.webhookAttempts = s.db.batch.webhookAttempts ∧
      (loaded.webhookStatus = .delivered → ok = true ∨ DeliverWebhook.exhausted env loaded = false)
  | _ => True

def InTurn (env : Env) (w : World Shared Frame) : Moves → Prop
  | .act i .next => ∀ frame ∈ w.pool[i]?, frame.InTurn env w.shared
  | _ => True

/-- The move adds to the count what it commits, and it does not bury a delivered webhook. -/
def DeliveryKept (env : Env) (v : World Shared Frame) (m : Moves) (v' : World Shared Frame) :
    Prop :=
  v'.shared.db.batch.webhookAttempts =
      v.shared.db.batch.webhookAttempts + (commitsDelivery env v m).toNat ∧
    (v.shared.db.batch.webhookStatus = .delivered → ¬ Sets env .dead v m)

/-- What a delivery knows of the row: it has the row's status, if nobody has counted since. -/
def Frame.Knows (s : Shared) : Frame → Prop
  | .deliverBatchWebhook _ _ (.posting loaded) | .deliverBatchWebhook _ _ (.posted loaded _) =>
    loaded.webhookAttempts ≤ s.db.batch.webhookAttempts ∧
      (loaded.webhookAttempts = s.db.batch.webhookAttempts →
        loaded.webhookStatus = s.db.batch.webhookStatus)
  | _ => True

/-- How a job comes to be in deliver_batch_webhook. -/
theorem deliverBatchWebhook_of_step (h : frame.step env s c = some e) {event : Event}
    {deferBy : Nat} {pc : DeliverWebhook.Pc}
    (hm : .deliverBatchWebhook event deferBy pc ∈ e.frames) :
    (frame = .queued (.deliverBatchWebhook event deferBy) ∧ pc = .posting s.db.batch) ∨
    (∃ loaded ok, frame = .deliverBatchWebhook event deferBy (.posting loaded) ∧
      c = .posted ok ∧ pc = .posted loaded ok) ∨
    ∃ loaded attempts, frame = .deliverBatchWebhook event deferBy (.posted loaded false) ∧
      pc = .backingOff attempts := by
  cases resumes_of_step h hm fun _ => nofun with
  | start hstart =>
    simp only [Frame.job, Frame.start, DeliverWebhook.start] at hstart
    split at hstart <;> cases hstart
    exact .inl ⟨rfl, rfl⟩
  | next hnot h hnext hjob =>
    cases frame with
    | queued job => exact absurd rfl (hnot job)
    | deliverBatchWebhook event' deferBy' pc₀ =>
      cases hjob
      obtain ⟨e₀, h₀, rfl⟩ := Option.map_eq_some_iff.mp h
      obtain ⟨pc', hpc, heq⟩ := Option.map_eq_some_iff.mp hnext
      cases heq
      cases pc₀ with
      | posted loaded ok =>
        cases h₀
        cases ok with
        | true => cases hpc
        | false =>
          dsimp only at hpc
          split at hpc <;> cases hpc
          exact .inr (.inr ⟨loaded, _, rfl, rfl⟩)
      | _ => cases h₀
    | _ => cases hjob
  | posted => exact .inr (.inl ⟨_, _, rfl, rfl, rfl⟩)

theorem Frame.Knows.mono {s' : Shared} (h : frame.Knows s)
    (hsame : s'.db.batch.webhookAttempts = s.db.batch.webhookAttempts ∧
        s'.db.batch.webhookStatus = s.db.batch.webhookStatus ∨
      s.db.batch.webhookAttempts < s'.db.batch.webhookAttempts) : frame.Knows s' := by
  cases frame with
  | deliverBatchWebhook event deferBy pc =>
    cases pc with
    | posting | posted =>
      obtain ⟨hle, hstatus⟩ := h
      rcases hsame with ⟨ha, hs⟩ | hlt
      · exact ⟨ha ▸ hle, fun heq => (hstatus (heq.trans ha)).trans hs.symm⟩
      · exact ⟨hle.trans hlt.le, fun heq => absurd (heq ▸ hle) hlt.not_ge⟩
    | backingOff => trivial
  | _ => trivial

theorem Frame.Knows.frames (hf : frame.Knows s) (h : frame.step env s c = some e) :
    ∀ f ∈ e.frames, f.Knows s := by
  intro f hm
  cases f with
  | deliverBatchWebhook event deferBy pc =>
    rcases deliverBatchWebhook_of_step h hm with ⟨-, rfl⟩ | ⟨loaded, ok, rfl, -, rfl⟩ |
      ⟨loaded, attempts, -, rfl⟩
    · exact ⟨le_rfl, fun _ => rfl⟩
    · exact hf
    · trivial
  | _ => trivial

/-! ## One step -/

/-- A delivery in turn does what it should, and only such a delivery does. -/
theorem deliveryKept_iff (hknows : ∀ f ∈ v.pool, f.Knows v.shared)
    (hf : (workers env).fire v m = some v') : DeliveryKept env v m v' ↔ InTurn env v m := by
  rcases delivery_cases env v m with ⟨hnot, hsets, hsame⟩ |
    ⟨i, event, deferBy, loaded, ok, rfl, hk, hc⟩
  · refine iff_of_true ⟨by rw [(hsame v' hf).1, hnot]; rfl, fun _ => hsets _⟩ ?_
    cases m with
    | env => trivial
    | act i c =>
      cases c with
      | next =>
        intro frame hk
        cases frame with
        | deliverBatchWebhook event deferBy pc =>
          cases pc with
          | posted loaded ok =>
            have hc : commitOf env v (.act i .next) =
                some (.webhook loaded (DeliverWebhook.attempt env ok loaded)) := by
              simp [commitOf, Option.mem_def.mp hk, Frame.step, Frame.next, DeliverWebhook.step]
            simp [commitsDelivery, hc, Commit.isDelivery] at hnot
          | _ => trivial
        | _ => trivial
      | _ => trivial
  · have hcount : (commitsDelivery env v (.act i .next)).toNat = 1 := by
      simp [commitsDelivery, hc, Commit.isDelivery]
    have hattempts : v'.shared.db.batch.webhookAttempts = loaded.webhookAttempts + 1 := by
      rw [db_of_fire hf, hc]
      exact webhookAttempts_onBatch_webhook ok loaded _
    have hturn : InTurn env v (.act i .next) ↔
        (Frame.deliverBatchWebhook event deferBy (.posted loaded ok)).InTurn env v.shared := by
      simp [InTurn, hk]
    rw [hturn, DeliveryKept, hattempts, hcount, Nat.add_right_cancel_iff]
    refine and_congr_right fun hcurrent => ?_
    have hstatus := (hknows _ (List.mem_of_getElem? hk)).2 hcurrent
    rw [← hstatus]
    refine forall_congr' fun hdelivered => ?_
    cases ok <;> cases hspent : DeliverWebhook.exhausted env loaded <;>
      simp [Sets, hc, Commit.webhookSet, DeliverWebhook.attempt, hspent, hdelivered]

theorem knows_of_fire (hknows : ∀ f ∈ v.pool, f.Knows v.shared)
    (hf : (workers env).fire v m = some v') (hkept : DeliveryKept env v m v') :
    ∀ f ∈ v'.pool, f.Knows v'.shared := by
  have hsame : v'.shared.db.batch.webhookAttempts = v.shared.db.batch.webhookAttempts ∧
        v'.shared.db.batch.webhookStatus = v.shared.db.batch.webhookStatus ∨
      v.shared.db.batch.webhookAttempts < v'.shared.db.batch.webhookAttempts := by
    rcases delivery_cases env v m with ⟨-, -, hsame⟩ | ⟨i, event, deferBy, loaded, ok, -, -, hc⟩
    · exact .inl (hsame v' hf)
    · right
      rw [hkept.1]
      simp [commitsDelivery, hc, Commit.isDelivery]
  rcases fire_cases hf with ⟨jobs, -, hdb, -, -, hpool⟩ |
    ⟨k, c, frame, e, rfl, hk, he, -, hs, hpool⟩
  · exact forall_pool_of_queued hpool (fun f hm => (hknows f hm).mono hsame) fun _ => trivial
  · rw [hpool]
    refine List.forall_mem_append.mpr ⟨fun f hm => ?_, fun f hm => ?_⟩
    · exact (hknows f (mem_of_mem_others hm)).mono hsame
    · exact ((hknows frame (List.mem_of_getElem? hk)).frames he f hm).mono hsame

/-! ## Every run -/

theorem fires_of_sets {status : WebhookStatus} (h : Sets env status v m) :
    ∃ v', (workers env).fire v m = some v' := by
  rcases delivery_cases env v m with ⟨-, hnot, -⟩ | ⟨i, event, deferBy, loaded, ok, rfl, hk, -⟩
  · exact absurd h (hnot status)
  · exact ⟨_, fire_act_iff.mpr ⟨_, _, hk, step_iff.mpr ⟨_, rfl, rfl⟩, rfl⟩⟩

theorem webhookSet_cases {status : WebhookStatus} (h : Sets env status v m) :
    status = .delivered ∨ status = .dead := by
  rcases delivery_cases env v m with ⟨-, hnot, -⟩ | ⟨i, event, deferBy, loaded, ok, rfl, hk, hc⟩
  · exact absurd h (hnot status)
  · rw [Sets, hc, Option.bind_some] at h
    cases ok with
    | true =>
      simp only [Commit.webhookSet, DeliverWebhook.attempt, if_true] at h
      split at h
      · cases h
      · exact .inl (Option.some.inj h).symm
    | false =>
      cases hspent : DeliverWebhook.exhausted env loaded with
      | true =>
        simp only [Commit.webhookSet, DeliverWebhook.attempt, hspent, if_true, Bool.false_eq_true,
          if_false] at h
        split at h
        · cases h
        · exact .inr (Option.some.inj h).symm
      | false => simp [Commit.webhookSet, DeliverWebhook.attempt, hspent] at h

theorem delivered_cases (hf : (workers env).fire v m = some v')
    (hafter : v'.shared.db.batch.webhookStatus = .delivered) :
    v.shared.db.batch.webhookStatus = .delivered ∨ Sets env .delivered v m := by
  rw [status_of_fire hf] at hafter
  cases hset : (commitOf env v m).bind (·.webhookSet) with
  | none => exact .inl (by simpa [hset] using hafter)
  | some status => exact .inr (hset.trans (congrArg some (by simpa [hset] using hafter)))

theorem delivered_of_fire (hf : (workers env).fire v m = some v')
    (hbefore : v.shared.db.batch.webhookStatus = .delivered) (hnot : ¬ Sets env .dead v m) :
    v'.shared.db.batch.webhookStatus = .delivered := by
  rw [status_of_fire hf]
  cases hset : (commitOf env v m).bind (·.webhookSet) with
  | none => exact hbefore
  | some status =>
    rcases webhookSet_cases hset with rfl | rfl
    · rfl
    · exact absurd hset hnot

/-- What is said of a run, as what is said of its steps. -/
theorem keeps_iff {ms : List Moves} :
    ((workers env).NeverAfter (Sets env .delivered) (Sets env .dead) (created env now) ms ∧
        ∀ ms₁ v, ms₁ <+: ms →
          (workers env).run (fun _ _ => True) (created env now) ms₁ = some v →
            v.shared.db.batch.webhookAttempts =
              (workers env).count (commitsDelivery env) (created env now) ms₁) ↔
      (workers env).Along (DeliveryKept env) (created env now) ms := by
  have hcount : (workers env).Along (fun v m v' => v'.shared.db.batch.webhookAttempts =
        v.shared.db.batch.webhookAttempts + (commitsDelivery env v m).toNat)
      (created env now) ms ↔ _ :=
    Along.count_iff (f := fun v : World Shared Frame => v.shared.db.batch.webhookAttempts)
  have hfresh : (created env now).shared.db.batch.webhookStatus ≠ .delivered := by
    simp only [created]
    split <;> simp
  have hnever : (workers env).NeverAfter (Sets env .delivered) (Sets env .dead) (created env now)
      ms ∧ _ ↔ _ :=
    NeverAfter.iff_along
      (D := fun v : World Shared Frame => v.shared.db.batch.webhookStatus = .delivered)
      (fun v m v' hf hset => by rw [status_of_fire hf, hset, Option.getD_some])
      (fun v m v' => delivered_cases) (fun v m v' => delivered_of_fire) fun _ _ => fires_of_sets
  simp only [hfresh, false_implies, and_true] at hnever
  simp only [created, Nat.zero_add] at hcount hnever ⊢
  rw [hnever, ← hcount]
  exact ⟨fun h => (h.2.and h.1).mono fun _ _ _ h => h,
    fun h => ⟨h.mono fun _ _ _ h => h.2, h.mono fun _ _ _ h => h.1⟩⟩

/-- In a run, once a commit has set `delivered` none sets `dead`, and the count is that of the
committed deliveries in each state, if and only if the deliveries commit in turn. -/
theorem delivered_stays_iff (env : Env) (now : Int) (ms : List Moves) :
    ((workers env).NeverAfter (Sets env .delivered) (Sets env .dead) (created env now) ms ∧
        ∀ ms₁ v, ms₁ <+: ms →
          (workers env).run (fun _ _ => True) (created env now) ms₁ = some v →
            v.shared.db.batch.webhookAttempts =
              (workers env).count (commitsDelivery env) (created env now) ms₁) ↔
      (workers env).Along (fun v m _ => InTurn env v m) (created env now) ms := by
  have hany : (workers env).Along (fun _ _ _ => True) (created env now) ms :=
    .of_forall fun _ _ _ => trivial
  rw [keeps_iff]
  refine Along.congr (Q := fun v => ∀ f ∈ v.pool, f.Knows v.shared) hany
    (by simp [created, Frame.Knows]) fun v m v' hknows _ hf => ?_
  exact ⟨deliveryKept_iff hknows hf, knows_of_fire hknows hf⟩

/-- A webhook with one attempt. -/
def hookedOnce : Env := { hooked with webhookMaxAttempts := 1 }

/-- The chunk's worker and the poll have both led to a finalize_batch, and so there are two
deliveries. Both load the row; the first one's POST succeeds, the second one's fails. -/
def overlapRun : List Moves :=
  concatenatedRun ++ steps 0 5 ++ steps 1 7 ++ steps 0 6 ++
    [.act 0 (.posted true), .act 0 (.posted false)] ++ steps 0 2

/-- The second commit buries the delivered webhook, and takes the first one's attempt back. -/
theorem delivered_webhook_dead : ∃ w,
    (workers hookedOnce).run (fun _ _ => True) (created hookedOnce 0) overlapRun = some w ∧
    ¬ (workers hookedOnce).NeverAfter (Sets hookedOnce .delivered) (Sets hookedOnce .dead)
      (created hookedOnce 0) overlapRun ∧
    w.shared.db.batch.webhookStatus = .dead ∧ w.shared.db.batch.webhookAttempts = 1 ∧
    (workers hookedOnce).count (commitsDelivery hookedOnce) (created hookedOnce 0) overlapRun =
      2 := by
  have hrun : ((workers hookedOnce).run (fun _ _ => True) (created hookedOnce 0) overlapRun).map
      (fun w => (w.shared.db.batch.webhookStatus, w.shared.db.batch.webhookAttempts)) =
        some (.dead, 1) := by decide +kernel
  obtain ⟨w, hw, hseen⟩ := Option.map_eq_some_iff.mp hrun
  obtain ⟨hstatus, hattempts⟩ := Prod.mk.inj hseen
  exact ⟨w, hw, by decide +kernel, hstatus, hattempts, by decide +kernel⟩

end BatchInference
