import BatchInference.Services.Routing
import BatchInference.Services.Webhooks
import BatchInference.Workers.Announced
import BatchInference.Workers.Polling
import BatchInference.Workers.Published
import BatchInference.Workers.Represented

/-!
# What a webhook tells

deliver_batch_webhook describes the row as it finds it. An event is announced only by a job
that has committed its status, and with atomic transactions a completed batch stays completed
and a failed one can only become completed, so that no payload contradicts its event, however
late the delivery comes and however often it is tried.
-/

namespace BatchInference

open JobPool

variable {env : Env} {now : Int} {s : Shared} {frame f : Frame} {c : Choice} {e : Effect Frame}
  {event : Event} {v w : World Shared Frame} {m : Moves}

def Event.value : Event → String
  | .completed => "batch.completed"
  | .failed => "batch.failed"

namespace DeliverWebhook

/-- The URL for a results key, with `settings.public_base_url`; `presign` is
`generate_presigned_url`, `none` where it raises. -/
def urlOf (publicBaseUrl : Option String) (presign : ObjectKey → Option String)
    (batchId : String) (key : ObjectKey) : Option String :=
  let publicBase := rstripSlash (Routing.stripStr (publicBaseUrl.getD ""))
  if publicBase ≠ "" then some s!"{publicBase}/v1/batches/{batchId}/results" else presign key

/-- The payload that is posted. -/
def payload (publicBaseUrl : Option String) (presign : ObjectKey → Option String) (env : Env)
    (event : Event) (batch : Batch) (now : Int) : WebhookPayload :=
  buildWebhookPayload event.value env.spec.id batch.status.value
    (batch.resultsKey.bind (urlOf publicBaseUrl presign env.spec.id))
    [("total_items", env.spec.totalItems), ("completed_items", batch.completedItems),
      ("failed_items", batch.failedItems), ("retry_count", batch.retryCount)]
    batch.completedAt now

end DeliverWebhook

/-! ## Events and the status -/

/-- The status bears the event out. -/
def Event.Fits : Event → BatchStatus → Prop
  | .completed, status => status = .completed
  | .failed, status => status = .failed ∨ status = .completed

theorem Event.Fits.terminal {status : BatchStatus} (h : event.Fits status) :
    status.terminal = true := by
  cases event with
  | completed => rw [h]; rfl
  | failed => rcases h with h | h <;> rw [h] <;> rfl

theorem Transaction.fits {db : Db} {commit : Commit} (h : Transaction env now db commit)
    (hfits : event.Fits db.batch.status) : event.Fits (commit.onBatch db.batch).status := by
  have hended := hfits.terminal
  cases h with
  | orchestrate active | lease active | exhausted active | checked active =>
    simp [hended] at active
  | giveUp hrow spent running => simp [running, BatchStatus.terminal] at hended
  | finalize =>
    simp only [Commit.onBatch, Batch.flush_current, Finalize.complete]
    cases event with
    | completed => rfl
    | failed => exact .inr rfl
  | cancel =>
    rw [Commit.onBatch, Batch.flush_current, cancelBatch, if_pos hended]
    exact hfits
  | retry | webhook => simpa [Commit.onBatch, DeliverWebhook.attempt] using hfits
  | cancelRelease | success | requeue | reclaim => exact hfits

/-- The event that the job is to announce, or to deliver. -/
def Frame.news : Frame → Option Event
  | .processChunk _ _ (.handler _ _ .announceFailed) => some .failed
  | .checkBatchCompletion _ .announceFailed => some .failed
  | .finalizeBatch .announce => some .completed
  | .queued (.deliverBatchWebhook event _) | .deliverBatchWebhook event _ _ => some event
  | _ => none

theorem news_of_enqueues {job : Job} (h : Enqueues frame job)
    (hnews : (Frame.queued job).news = some event) : frame.news = some event := by
  cases h with
  | chunkFailed | batchFailed | completed | redelivery => exact hnews
  | _ => cases hnews

theorem news_of_job {deferBy : Nat} (h : frame.job = .deliverBatchWebhook event deferBy) :
    frame.news = some event := by
  cases frame with
  | queued job =>
    obtain rfl : job = _ := h
    rfl
  | deliverBatchWebhook => cases h; rfl
  | _ => cases h

/-- A commit that writes another status leaves it. -/
theorem status_of_flush {commit : Commit} {loaded new : Batch} (hc : e.commit = some commit)
    (hbatch : ∀ batch, commit.onBatch batch = loaded.flush new batch)
    (hne : new.status ≠ loaded.status) : (e.shared s).db.batch.status = new.status := by
  simp [Effect.shared, hc, hbatch, Batch.flush, column_of_ne hne]

/-- News comes with the commit of a status that bears it out. -/
theorem news_of_step (h : frame.step env s c = some e) (hm : f ∈ e.frames)
    (hnews : f.news = some event) :
    frame.news = some event ∨ event.Fits (e.shared s).db.batch.status := by
  cases f with
  | queued job =>
    left
    rcases List.mem_append.mp hm with hm | hm
    · have hjob := job_of_step h (Option.mem_toList.mp hm)
      cases job with
      | deliverBatchWebhook event' deferBy =>
        cases hnews
        exact news_of_job hjob.symm
      | _ => cases hnews
    · obtain ⟨job', hjob, heq⟩ := List.mem_map.mp hm
      cases heq
      exact news_of_enqueues (enqueues_of_step h job hjob) hnews
  | processChunk i deferBy pc =>
    right
    obtain ⟨-, rfl, -⟩ | ⟨pc₀, rfl, hgoes⟩ := processChunk_of_step h hm
    · cases hnews
    · generalize hcommit : e.commit = commit at hgoes
      cases hgoes with
      | @handler chunk exc pc pc' hpc =>
        have hhandler := ProcessChunk.Handler.goes_of_step hpc
        generalize (pc.step env s i exc).commit = commit at hhandler hcommit
        cases hhandler with
        | giveUp spent running =>
          cases hnews
          refine .inl (status_of_flush hcommit (fun _ => rfl) ?_)
          simp [ProcessChunk.failBatch, running]
        | _ => cases hnews
      | _ => cases hnews
  | checkBatchCompletion deferBy pc =>
    right
    obtain ⟨-, loaded, rfl⟩ | ⟨pc₀, rfl, rfl, hpc⟩ := checkBatchCompletion_of_step h hm
    · cases hnews
    · have hcommit : e.commit = (CheckCompletion.step s pc₀).commit := by
        cases h
        rfl
      cases pc₀ with
      | counted loaded now counts =>
        simp only [CheckCompletion.step] at hpc hcommit
        split_ifs at hpc hcommit with hexhausted
        · cases hpc
          cases hnews
          refine .inl (status_of_flush hcommit (fun _ => rfl) fun heq => ?_)
          have hactive := loaded.not_terminal
          rw [← heq] at hactive
          cases hactive
        all_goals cases hpc; cases hnews
      | gotBatch | reclaimed | selectPending => cases hpc; cases hnews
      | requeueing unleased todo => cases todo <;> cases hpc <;> cases hnews
      | announceFailed | enqueueFinalize | repoll => cases hpc
  | finalizeBatch pc =>
    right
    have hnot : ∀ job, Frame.finalizeBatch pc ≠ .queued job := by simp
    cases resumes_of_step h hm hnot with
    | start hstart =>
      simp only [Frame.job, Frame.start, Finalize.start] at hstart
      split at hstart <;> cases hstart
      cases hnews
    | next hnot h hnext hjob =>
      cases frame with
      | queued job => exact absurd rfl (hnot job)
      | finalizeBatch pc₀ =>
        obtain ⟨e₀, h₀, rfl⟩ := Option.map_eq_some_iff.mp h
        obtain ⟨pc', hpc, heq⟩ := Option.map_eq_some_iff.mp hnext
        cases heq
        have hgoes := Finalize.goes_of_step h₀ hpc
        generalize e₀.put = put at hgoes
        cases hgoes with
        | @commit snap =>
          obtain rfl := Option.some.inj h₀
          cases hnews
          have hne : (Finalize.complete s.now snap.batch).status ≠ snap.batch.status :=
            fun heq => snap.unfinished (.inl heq.symm)
          exact status_of_flush rfl (fun _ => rfl) hne
        | _ => cases hnews
      | _ => cases hjob
  | deliverBatchWebhook event' deferBy pc =>
    left
    rcases List.mem_append.mp hm with hm | hm
    · have hjob := job_of_step h (Option.mem_toList.mp hm)
      cases hnews
      exact news_of_job hjob.symm
    · simp at hm
  | _ => cases hnews

/-! ## Every run -/

/-- Transactions are atomic, and nobody else enqueues a delivery. -/
def Reported (v : World Shared Frame) (m : Moves) : Prop :=
  Atomic v m ∧ match m with
    | .env (.arrive job) => job.announces = false
    | _ => True

instance : DecidableRel Reported
  | v, .act i c => inferInstanceAs (Decidable (Atomic v (.act i c) ∧ True))
  | v, .env (.arrive job) =>
    inferInstanceAs (Decidable (Atomic v (.env (.arrive job)) ∧ job.announces = false))
  | v, .env (.tick seconds) => inferInstanceAs (Decidable (Atomic v (.env (.tick seconds)) ∧ True))

theorem news_fits_of_reach (h : (workers env).Reach Reported (created env now) w) :
    ∀ f ∈ w.pool, ∀ event ∈ f.news, event.Fits w.shared.db.batch.status := by
  have hmod : (workers env).Modular
      (fun v m => Reported v m ∧ (workers env).Reach Atomic (created env now) v)
      (fun _ => True) (fun s f => ∀ event ∈ f.news, event.Fits s.db.batch.status) := by
    have stays {v : World Shared Frame} {i : Nat} {c : Choice} {frame : Frame}
        {e : Effect Frame} {event : Event}
        (hr : (workers env).Reach Atomic (created env now) v) (hk : v.pool[i]? = some frame)
        (he : frame.step env v.shared c = some e) (hfits : event.Fits v.shared.db.batch.status) :
        event.Fits (e.shared v.shared).db.batch.status := by
      have hm := List.mem_of_getElem? hk
      rcases db_cases he with hdb | ⟨commit, hc, hdb⟩ <;> rw [hdb]
      · exact hfits
      · exact (hc.transaction ((ok_of_reach hr).2 frame hm)
          (snapshot_of_reach hr frame hm)).fits hfits
    refine modular_of_steps ?_ ?_ ?_ ?_
    · intro v i c frame e _ hpool hok hk he
      refine ⟨trivial, fun f hm event hnews => ?_⟩
      rcases news_of_step he hm hnews with hbefore | hfits
      · exact stays hok.2 hk he (hpool frame (List.mem_of_getElem? hk) event hbefore)
      · exact hfits
    · intro v i c frame e f _ hok hk _ he _ hf event hnews
      exact stays hok.2 hk he (hf event hnews)
    · intro v job hok event hnews
      cases job with
      | deliverBatchWebhook => cases hok.1.2
      | _ => cases hnews
    · exact fun s seconds _ => ⟨trivial, fun f hf => hf⟩
  refine (hmod.reach trivial ?_ (h.and fun v hv => hv.mono fun _ _ hok => hok.1)).2
  simp [created, Frame.news]

/-- The event and the row of the payload that the job is to post. -/
def Frame.posts : Frame → Option (Event × Batch)
  | .deliverBatchWebhook event _ (.posting loaded) => some (event, loaded)
  | _ => none

theorem eq_of_posts {loaded : Batch} (h : f.posts = some (event, loaded)) :
    ∃ deferBy, f = .deliverBatchWebhook event deferBy (.posting loaded) := by
  cases f with
  | deliverBatchWebhook event' deferBy pc =>
    cases pc with
    | posting => cases h; exact ⟨deferBy, rfl⟩
    | _ => cases h
  | _ => cases h

/-- A payload says what its event says. -/
def Event.Told : Event → WebhookPayload → Prop
  | .completed, payload => payload.status = "completed"
  | .failed, payload => payload.status = "failed" ∨ payload.status = "completed"

theorem Event.Fits.told {batch : Batch} {publicBaseUrl : Option String}
    {presign : ObjectKey → Option String} (h : event.Fits batch.status) :
    event.Told (DeliverWebhook.payload publicBaseUrl presign env event batch now) := by
  cases event with
  | completed => exact congrArg BatchStatus.value h
  | failed => exact h.imp (congrArg BatchStatus.value) (congrArg BatchStatus.value)

/-- Every payload that is posted bears out its event: the batch has ended, and not by being
cancelled; there is no URL for the results unless it is completed, and then the one that the
settings or presign give, if they do; the counts are in order. -/
theorem webhooks_truthful {loaded : Batch} (publicBaseUrl : Option String)
    (presign : ObjectKey → Option String)
    (h : (workers env).Reach Reported (created env now) w)
    (hm : f ∈ w.pool) (hposts : f.posts = some (event, loaded)) :
    let payload := DeliverWebhook.payload publicBaseUrl presign env event loaded w.shared.now
    payload.event = event.value ∧ payload.batchId = env.spec.id ∧ event.Told payload ∧
      payload.completedAt ≠ none ∧
      payload.resultUrl = (if payload.status = "completed" then
        DeliverWebhook.urlOf publicBaseUrl presign env.spec.id .results else none) ∧
      ∃ completed failed retries, failed ≤ completed ∧ completed ≤ env.spec.totalItems ∧
        payload.stats = [("total_items", env.spec.totalItems), ("completed_items", completed),
          ("failed_items", failed), ("retry_count", retries)] := by
  have hr : (workers env).Reach Atomic (created env now) w := h.mono fun _ _ hok => hok.1
  obtain ⟨deferBy, rfl⟩ := eq_of_posts hposts
  obtain rfl : loaded = w.shared.db.batch := snapshot_of_reach hr _ hm
  have hfits := news_fits_of_reach h _ hm event rfl
  have hcounted := counted_of_reach hr
  refine ⟨rfl, rfl, hfits.told, (sound_of_reach hr).completedAt.mpr hfits.terminal, ?_,
    _, _, _, hcounted.failed_le, hcounted.completed_le, rfl⟩
  have hcompleted : w.shared.db.batch.status.value = "completed" ↔
      w.shared.db.batch.resultsKey ≠ none := by
    rw [resultsKey_iff hr]
    cases w.shared.db.batch.status <;> decide
  simp only [DeliverWebhook.payload, buildWebhookPayload, hcompleted]
  cases hkey : w.shared.db.batch.resultsKey with
  | none => simp
  | some key =>
    obtain ⟨rfl, -⟩ := (valid_of_reach hr).resultsKey hkey
    simp

theorem webhooks_truthful_crashed : ∃ w f loaded,
    (workers hooked).Reach Reported (created hooked 0) w ∧ f ∈ w.pool ∧
    f.posts = some (.completed, loaded) ∧
    (DeliverWebhook.payload (some "http://api/ ") (fun _ => none) hooked .completed loaded
      w.shared.now).status = "completed" := by
  have hrun : ((workers hooked).run Reported (created hooked 0)
      (concatenatedRun ++ [.act 1 .crash] ++ steps 1 7 ++ steps 0 2)).map
        (fun w => (w.pool.head?.bind Frame.posts).map (·.1)) = some (some .completed) := by
    decide +kernel
  obtain ⟨w, hw, hseen⟩ := Option.map_eq_some_iff.mp hrun
  obtain ⟨⟨event, loaded⟩, hposts, hevent⟩ := Option.map_eq_some_iff.mp hseen
  obtain ⟨f, hf, hposts⟩ := Option.bind_eq_some_iff.mp hposts
  cases hevent
  have hm := List.mem_of_head? hf
  exact ⟨w, f, loaded, .of_run hw, hm, hposts,
    (webhooks_truthful (some "http://api/ ") (fun _ => none) (.of_run hw) hm hposts).2.2.1⟩

end BatchInference
