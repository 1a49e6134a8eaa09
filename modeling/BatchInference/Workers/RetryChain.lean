import BatchInference.Services.Webhooks
import BatchInference.Workers.Deliveries

/-!
# The retries of one webhook

A delivery that fails enqueues the next one, and the two know of each other only through the
row's count of attempts. One such chain, with no other delivery beside it and none of its jobs
lost, goes on until a POST succeeds or the attempts are spent, whatever the other jobs do.
-/

namespace BatchInference

open JobPool System

variable {env : Env} {s : Shared} {frame : Frame} {c : Choice} {e : Effect Frame}
  {v v' w w₀ : World Shared Frame} {m : Moves}

/-! ## One chain -/

/-- A delivery, in the queue or under way. -/
def Frame.delivers : Frame → Bool
  | .queued job => job.announces
  | .deliverBatchWebhook .. => true
  | _ => false

/-- No job of the chain is lost, and nobody else enqueues a delivery. -/
def OneChain (env : Env) (w : World Shared Frame) : Moves → Prop
  | .act i c => ∀ frame ∈ w.pool[i]?,
      if frame.delivers then c.kills = false else ¬ Announces env w (.act i c)
  | .env e => ¬ Announces env w (.env e)

/-- A step of the chain: a POST with its outcome, the next delivery with its `_defer_by`, or
another statement. -/
inductive ChainStep where
  | post (ok : Bool)
  | redelivery (deferBy : Nat)
  | statement
  deriving DecidableEq, Repr

def ChainStep.of (c : Choice) (jobs : List Job) : ChainStep :=
  match c with
  | .posted ok => .post ok
  | _ => match jobs with
    | .deliverBatchWebhook _ deferBy :: _ => .redelivery deferBy
    | _ => .statement

def Frame.seen (env : Env) (s : Shared) (c : Choice) (frame : Frame) : List ChainStep :=
  if frame.delivers then [.of c ((frame.step env s c).elim [] (·.jobs))] else []

def see (env : Env) (w : World Shared Frame) : Moves → List ChainStep
  | .act i c => w.pool[i]?.elim [] (Frame.seen env w.shared c)
  | .env _ => []

def posts (seen : List ChainStep) : List Bool :=
  seen.filterMap fun
    | .post ok => some ok
    | _ => none

def redeliveries (seen : List ChainStep) : List Nat :=
  seen.filterMap fun
    | .redelivery deferBy => some deferBy
    | _ => none

@[simp] theorem posts_append (seen seen' : List ChainStep) :
    posts (seen ++ seen') = posts seen ++ posts seen' := List.filterMap_append

@[simp] theorem redeliveries_append (seen seen' : List ChainStep) :
    redeliveries (seen ++ seen') = redeliveries seen ++ redeliveries seen' :=
  List.filterMap_append

/-! ## The last POST -/

/-- The position, from 1 on, of the first success if it is among the first `attempts`, and
else `attempts`. -/
def lastPost (attempts : Nat) (outcome : Nat → Bool) : Nat :=
  ((List.range attempts).find? outcome).elim attempts (· + 1)

variable {attempts n : Nat} {outcome : Nat → Bool}

theorem lastPost_eq (hn : n < attempts) (hfailed : ∀ k < n, outcome k = false)
    (hlast : outcome n = true ∨ n + 1 = attempts) : lastPost attempts outcome = n + 1 := by
  cases hok : outcome n with
  | true =>
    have hfirst : (List.range attempts).find? outcome = some n :=
      List.find?_range_eq_some.mpr ⟨hok, List.mem_range.mpr hn, by simpa using hfailed⟩
    rw [lastPost, hfirst, Option.elim_some]
  | false =>
    obtain rfl := hlast.resolve_left (by simp [hok])
    have hnone : (List.range (n + 1)).find? outcome = none := by
      refine List.find?_range_eq_none.mpr fun k hk => ?_
      rcases Nat.lt_succ_iff_lt_or_eq.mp hk with hk | rfl
      · simp [hfailed k hk]
      · simp [hok]
    rw [lastPost, hnone, Option.elim_none]

theorem lt_lastPost (hn : n < attempts) (hfailed : ∀ k < n, outcome k = false) :
    n < lastPost attempts outcome := by
  cases hfirst : (List.range attempts).find? outcome with
  | none => rwa [lastPost, hfirst]
  | some k =>
    rw [lastPost, hfirst, Option.elim_some]
    have hok := (List.find?_range_eq_some.mp hfirst).1
    refine Nat.lt_succ_of_le (not_lt.mp fun hk => ?_)
    simp [hfailed k hk] at hok

/-! ## One step of the chain -/

/-- Where the chain is: `n` deliveries have come back, and the POSTs of the one under way, if
it has made its POST, are `made`. -/
inductive Stage (env : Env) (batch : Batch) : List Frame → (n : Nat) → (made : List Bool) →
    (steps : Nat) → Prop where
  | queued {event : Event} {deferBy n : Nat} (h : batch.webhookAttempts = n) :
      Stage env batch [.queued (.deliverBatchWebhook event deferBy)] n [] 0
  | posting {event : Event} {deferBy n : Nat} {loaded : Batch}
      (h : loaded.webhookAttempts = n) (hstatus : loaded.webhookStatus = batch.webhookStatus) :
      Stage env batch [.deliverBatchWebhook event deferBy (.posting loaded)] n [] 1
  | posted {event : Event} {deferBy n : Nat} {loaded : Batch} {ok : Bool}
      (h : loaded.webhookAttempts = n) (hstatus : loaded.webhookStatus = batch.webhookStatus) :
      Stage env batch [.deliverBatchWebhook event deferBy (.posted loaded ok)] n [ok] 2
  | backingOff {event : Event} {deferBy n : Nat} (h : batch.webhookAttempts = n + 1)
      (hleft : n + 1 < env.webhookMaxAttempts) :
      Stage env batch [.deliverBatchWebhook event deferBy (.backingOff (n + 1))] n [false] 3
  | ended {n : Nat} {ok : Bool} (h : batch.webhookAttempts = n + 1)
      (hstatus : batch.webhookStatus = if ok then .delivered else .dead)
      (hlast : ok = true ∨ env.webhookMaxAttempts ≤ n + 1) : Stage env batch [] n [ok] 3

/-- The chain as far as it has been seen. -/
structure Chain (env : Env) (w : World Shared Frame) (seen : List ChainStep) (n : Nat)
    (made : List Bool) (steps : Nat) : Prop where
  stage : Stage env w.shared.db.batch (w.pool.filter Frame.delivers) n made steps
  posts_eq : posts seen = List.replicate n false ++ made
  length_redeliveries : (redeliveries seen).length = n
  length_seen : seen.length = 4 * n + steps
  lt_max : n < env.webhookMaxAttempts
  defer : ∀ deferBy ∈ redeliveries seen, 1 ≤ deferBy ∧ deferBy ≤ 300

theorem Stage.congr {batch batch' : Batch} {frames : List Frame} {made : List Bool}
    {steps : Nat} (h : Stage env batch frames n made steps)
    (ha : batch'.webhookAttempts = batch.webhookAttempts)
    (hs : batch'.webhookStatus = batch.webhookStatus) : Stage env batch' frames n made steps := by
  cases h with
  | queued h => exact .queued (ha.trans h)
  | posting h hstatus => exact .posting h (hstatus.trans hs.symm)
  | posted h hstatus => exact .posted h (hstatus.trans hs.symm)
  | backingOff h hleft => exact .backingOff (ha.trans h) hleft
  | ended h hstatus hlast => exact .ended (ha.trans h) (hs.trans hstatus) hlast

/-- The delay of a delivery that has failed: from one second to five minutes. -/
theorem deferBy_mem {attempts : Nat} {delay : ℚ}
    (h : 0 ≤ delay ∧ delay ≤ DeliverWebhook.backoffCap attempts) :
    1 ≤ DeliverWebhook.deferBy delay ∧ DeliverWebhook.deferBy delay ≤ 300 := by
  refine ⟨le_max_left .., max_le (by norm_num) ?_⟩
  have hcap : delay ≤ (300 : ℤ) := by
    refine h.2.trans ?_
    exact_mod_cast min_le_right (2 ^ (attempts - 1)) 300
  have := Rounding.roundHalfEven_le hcap
  omega

theorem OneChain.of_delivers {i : Nat} (hk : w.pool[i]? = some frame)
    (hd : frame.delivers = true) (h : OneChain env w (.act i c)) : c.kills = false := by
  simpa [hd] using h frame hk

theorem Frame.delivers_eq (frame : Frame) : frame.delivers = frame.job.announces := by
  cases frame <;> rfl

theorem filter_frames_of_others (h : frame.step env s c = some e) (hd : frame.delivers = false)
    (hjobs : ∀ job ∈ e.jobs, job.announces = false) : e.frames.filter Frame.delivers = [] := by
  rw [List.filter_eq_nil_iff]
  intro f hm
  rw [Bool.not_eq_true]
  rcases List.mem_append.mp hm with hm | hm
  · rw [f.delivers_eq, job_of_step h (by simpa using hm), ← frame.delivers_eq, hd]
  · obtain ⟨job, hj, rfl⟩ := List.mem_map.mp hm
    exact hjobs job hj

/-- The other moves leave the chain as it is. -/
theorem chain_of_others (h : OneChain env v m) (hf : (workers env).fire v m = some v')
    (hother : ∀ i c, m = .act i c → ∀ frame ∈ v.pool[i]?, frame.delivers = false) :
    see env v m = [] ∧ v'.pool.filter Frame.delivers = v.pool.filter Frame.delivers ∧
      v'.shared.db.batch.webhookAttempts = v.shared.db.batch.webhookAttempts ∧
      v'.shared.db.batch.webhookStatus = v.shared.db.batch.webhookStatus := by
  have hcolumns : v'.shared.db.batch.webhookAttempts = v.shared.db.batch.webhookAttempts ∧
      v'.shared.db.batch.webhookStatus = v.shared.db.batch.webhookStatus := by
    rcases delivery_cases env v m with ⟨-, -, hsame⟩ | ⟨i, event, deferBy, loaded, ok, rfl, hk, -⟩
    · exact hsame v' hf
    · cases hother i .next rfl _ hk
  cases m with
  | act i c =>
    obtain ⟨frame, r, hk, hs, rfl⟩ := fire_act_iff.mp hf
    obtain ⟨e, he, rfl⟩ := step_iff.mp hs
    have hd := hother i c rfl frame hk
    have hnot : ¬ Announces env v (.act i c) := by simpa [hd] using h frame hk
    refine ⟨by simp [see, hk, Frame.seen, hd], ?_, hcolumns⟩
    rw [List.filter_append, filter_others_of_not hk hd, filter_frames_of_others he hd,
      List.append_nil]
    intro job hm
    by_contra hj
    exact hnot ⟨job, by simpa [jobsOf, hk, he] using hm, by simpa using hj⟩
  | env e =>
    refine ⟨rfl, ?_, hcolumns⟩
    cases e with
    | arrive job =>
      cases hf
      have hj : job.announces = false := by
        by_contra hj
        exact h ⟨job, List.mem_singleton_self job, by simpa using hj⟩
      simp [Frame.delivers, hj]
    | tick seconds =>
      cases hf
      simp

theorem webhookStatus_onBatch_webhook (ok : Bool) {loaded batch : Batch}
    (h : loaded.webhookStatus = batch.webhookStatus) :
    ((Commit.webhook loaded (DeliverWebhook.attempt env ok loaded)).onBatch batch).webhookStatus =
      (DeliverWebhook.attempt env ok loaded).webhookStatus := by
  rw [Commit.webhookStatus_onBatch, Commit.webhookSet]
  split
  · rename_i hsame
    exact (hsame.trans h).symm
  · rfl

/-- How a step takes the chain from a stage to the next one. -/
theorem stage_of_step (hurl : env.spec.webhookUrl.all (· = "") = false)
    (h : frame.step env s c = some e) (hkills : c.kills = false) {made : List Bool} {steps : Nat}
    (hstage : Stage env s.db.batch [frame] n made steps) :
    (∃ step, frame.seen env s c = [step] ∧ redeliveries [step] = [] ∧
      Stage env (e.shared s).db.batch (e.frames.filter Frame.delivers) n (made ++ posts [step])
        (steps + 1)) ∨
    ∃ deferBy, frame.seen env s c = [.redelivery deferBy] ∧ made = [false] ∧ steps = 3 ∧
      1 ≤ deferBy ∧ deferBy ≤ 300 ∧ n + 1 < env.webhookMaxAttempts ∧
      Stage env (e.shared s).db.batch (e.frames.filter Frame.delivers) (n + 1) [] 0 := by
  have hturn := turns_of_step h
  cases hstage with
  | queued hn =>
    left
    cases hturn with
    | next h =>
      cases h
      have hstart : DeliverWebhook.start env s = .goto (.posting s.db.batch) := by
        simp [DeliverWebhook.start, hurl]
      refine ⟨.statement, ?_, rfl, ?_⟩
      · simp [Frame.seen, Frame.delivers, Job.announces, Frame.step, Frame.next, Frame.start,
          hstart, ChainStep.of]
      · rw [Frame.start, hstart]
        exact .posting hn rfl
    | raise | crash | timeout => cases hkills
  | posting hn hstatus =>
    left
    cases hturn with
    | next h => cases h
    | posted => exact ⟨.post _, rfl, rfl, .posted hn hstatus⟩
    | raise | crash | timeout => cases hkills
  | @posted event deferBy n loaded ok hn hstatus =>
    left
    cases hturn with
    | next h =>
      cases h
      let commit : Commit := .webhook loaded (DeliverWebhook.attempt env ok loaded)
      have hattempts : (commit.onBatch s.db.batch).webhookAttempts = n + 1 :=
        hn ▸ webhookAttempts_onBatch_webhook ok loaded s.db.batch
      have hafter : (commit.onBatch s.db.batch).webhookStatus =
          (DeliverWebhook.attempt env ok loaded).webhookStatus :=
        webhookStatus_onBatch_webhook ok hstatus
      refine ⟨.statement, rfl, rfl, ?_⟩
      cases ok with
      | true => exact .ended hattempts hafter (.inl rfl)
      | false =>
        cases hspent : DeliverWebhook.exhausted env loaded with
        | true =>
          have hmax : env.webhookMaxAttempts ≤ n + 1 := by
            simpa [DeliverWebhook.exhausted, hn] using hspent
          have hdead : (DeliverWebhook.attempt env false loaded).webhookStatus = .dead := by
            simp [DeliverWebhook.attempt, hspent]
          exact .ended hattempts (hafter.trans hdead) (.inr hmax)
        | false =>
          have hleft : (n : Int) + 1 < env.webhookMaxAttempts := by
            simpa [DeliverWebhook.exhausted, hn] using hspent
          subst hn
          exact .backingOff hattempts hleft
    | raise | crash | timeout => cases hkills
  | backingOff hn hleft =>
    right
    cases hturn with
    | next h => cases h
    | backoff hdelay =>
      obtain ⟨one_le, le_max⟩ := deferBy_mem hdelay
      refine ⟨_, ?_, rfl, rfl, one_le, le_max, hleft, .queued hn⟩
      simp [Frame.seen, Frame.delivers, h, ChainStep.of]
    | raise | crash | timeout => cases hkills

theorem Stage.eq_singleton {batch : Batch} {frames : List Frame} {made : List Bool} {steps : Nat}
    (h : Stage env batch frames n made steps) (hm : frame ∈ frames) : frames = [frame] := by
  cases h with
  | ended => cases hm
  | _ => rw [List.mem_singleton.mp hm]

theorem Stage.steps_le {batch : Batch} {frames : List Frame} {made : List Bool} {steps : Nat}
    (h : Stage env batch frames n made steps) : steps ≤ 3 := by
  cases h <;> omega

theorem Chain.step (hurl : env.spec.webhookUrl.all (· = "") = false) {seen : List ChainStep}
    {made : List Bool} {steps : Nat} (hm : OneChain env v m)
    (hf : (workers env).fire v m = some v') (h : Chain env v seen n made steps) :
    ∃ n made steps, Chain env v' (seen ++ see env v m) n made steps := by
  obtain ⟨hstage, hposts, hredeliveries, hlength, hmax, hdefer⟩ := h
  by_cases hother : ∀ i c, m = .act i c → ∀ frame ∈ v.pool[i]?, frame.delivers = false
  · obtain ⟨hsee, hpool, ha, hs⟩ := chain_of_others hm hf hother
    rw [hsee, List.append_nil]
    exact ⟨n, made, steps, hpool ▸ hstage.congr ha hs, hposts, hredeliveries, hlength, hmax, hdefer⟩
  · push Not at hother
    obtain ⟨i, c, rfl, frame, hk, hd⟩ := hother
    rw [ne_eq, Bool.not_eq_false] at hd
    obtain ⟨k, r, hk', hs, rfl⟩ := fire_act_iff.mp hf
    obtain rfl := Option.some.inj (hk.symm.trans hk')
    obtain ⟨e, he, rfl⟩ := step_iff.mp hs
    have hone := hstage.eq_singleton (List.mem_filter.mpr ⟨List.mem_of_getElem? hk', hd⟩)
    obtain ⟨-, hothers⟩ := filter_others_of_single hk' hd hone
    have hsee : see env v (.act i c) = frame.seen env v.shared c := by simp [see, hk']
    have hpool : (others v i ++ e.frames).filter Frame.delivers =
        e.frames.filter Frame.delivers := by rw [List.filter_append, hothers, List.nil_append]
    rw [hsee]
    rcases stage_of_step hurl he (hm.of_delivers hk' hd) (hone ▸ hstage) with
      ⟨step, hseen, hnone, hnext⟩ | ⟨deferBy, hseen, rfl, rfl, one_le, le_max, hleft, hnext⟩
    · rw [hseen]
      refine ⟨n, made ++ posts [step], steps + 1, hpool ▸ hnext, ?_, ?_, ?_, hmax, ?_⟩
      · rw [posts_append, hposts, List.append_assoc]
      · rwa [redeliveries_append, hnone, List.append_nil]
      · rw [List.length_append, hlength, List.length_singleton, Nat.add_assoc]
      · rwa [redeliveries_append, hnone, List.append_nil]
    · rw [hseen]
      refine ⟨n + 1, [], 0, hpool ▸ hnext, ?_, ?_, ?_, hleft, ?_⟩
      · rw [posts_append, hposts, List.replicate_succ', List.append_nil]
        exact List.append_nil _
      · rw [redeliveries_append, List.length_append, hredeliveries]
        rfl
      · rw [List.length_append, hlength, List.length_singleton]
        omega
      · rw [redeliveries_append]
        exact List.forall_mem_append.mpr ⟨hdefer, by simp [redeliveries, one_le, le_max]⟩

/-! ## Every run -/

instance (env : Env) : DecidableRel (OneChain env)
  | w, .act i c => inferInstanceAs <| Decidable <| ∀ frame ∈ w.pool[i]?,
      if frame.delivers then c.kills = false else ¬ Announces env w (.act i c)
  | w, .env e => inferInstanceAs (Decidable (¬ Announces env w (.env e)))

theorem ChainStep.of_eq_post {jobs : List Job} {ok : Bool} (h : ChainStep.of c jobs = .post ok) :
    c = .posted ok := by
  cases c with
  | posted => cases h; rfl
  | _ =>
    simp only [ChainStep.of] at h
    split at h <;> cases h

theorem choice_of_post {ok : Bool} (h : .post ok ∈ frame.seen env s c) : c = .posted ok := by
  rw [Frame.seen] at h
  split at h
  · exact ChainStep.of_eq_post (List.mem_singleton.mp h).symm
  · cases h

variable (outcome) in
/-- A chain that is not over can go on, and it does what the receiver answers. -/
theorem Chain.goes_on {seen : List ChainStep} {made : List Bool} {steps : Nat}
    (h : Chain env w seen n made steps) (hleft : w.pool.filter Frame.delivers ≠ []) :
    ∃ m w', OneChain env w m ∧ (workers env).fire w m = some w' ∧ see env w m ≠ [] ∧
      ∀ ok, .post ok ∈ see env w m → ok = outcome (posts seen).length := by
  have move {frame : Frame} (hd : w.pool.filter Frame.delivers = [frame]) (c : Choice)
      (hkills : c.kills = false) (hstep : (frame.step env w.shared c).isSome)
      (hok : ∀ ok, .post ok ∈ frame.seen env w.shared c → ok = outcome (posts seen).length) :
      ∃ m w', OneChain env w m ∧ (workers env).fire w m = some w' ∧ see env w m ≠ [] ∧
        ∀ ok, .post ok ∈ see env w m → ok = outcome (posts seen).length := by
    obtain ⟨hmem, hdelivers⟩ := List.mem_filter.mp (hd ▸ List.mem_singleton_self frame)
    obtain ⟨i, hk⟩ := List.mem_iff_getElem?.mp hmem
    obtain ⟨e, he⟩ := Option.isSome_iff_exists.mp hstep
    refine ⟨.act i c, _, ?_, fire_act_iff.mpr ⟨_, _, hk, step_iff.mpr ⟨e, he, rfl⟩, rfl⟩, ?_, ?_⟩
    · simp [OneChain, hk, hdelivers, hkills]
    · simp [see, hk, Frame.seen, hdelivers]
    · simpa [see, hk] using hok
  have hstage := h.stage
  generalize hd : w.pool.filter Frame.delivers = frames at hstage
  cases hstage with
  | queued => exact move hd .next rfl rfl fun ok hm => nomatch choice_of_post hm
  | posting =>
    exact move hd (.posted (outcome (posts seen).length)) rfl rfl fun ok hm => by
      cases choice_of_post hm
      rfl
  | posted => exact move hd .next rfl rfl fun ok hm => nomatch choice_of_post hm
  | backingOff =>
    refine move hd (.backoff 0) rfl ?_ fun ok hm => nomatch choice_of_post hm
    simp [Frame.step, DeliverWebhook.backoff]
  | ended => exact absurd hd hleft

variable (outcome) in
theorem Chain.of_failed {seen : List ChainStep} {made : List Bool} {steps : Nat}
    (h : Chain env w seen n made steps)
    (hanswers : ∀ k ok, (posts seen)[k]? = some ok → ok = outcome k) :
    ∀ k < n, outcome k = false := by
  intro k hk
  refine (hanswers k false ?_).symm
  rw [h.posts_eq, List.getElem?_append_left (by simpa using hk)]
  simp [hk]

/-- How many POSTs a chain makes that gets these answers. -/
def postsOf (env : Env) (answer : Nat → Answer) : Nat :=
  lastPost env.webhookMaxAttempts.toNat fun n => (answer n).accepts

/-- The chain of one delivery, in every run with no other delivery beside it. It makes its POSTs
up to the first success or to the last attempt, enqueues a delivery between any two of them, each
a second to five minutes later, and then the row says how it went. Until then it can go on, and
it takes no more than four steps for a POST. -/
theorem retry_chain {answer : Nat → Answer} {url : String} {event : Event} {deferBy : Nat}
    {ms : List Moves} {seen : List ChainStep} (hurl : env.spec.webhookUrl = some url)
    (hne : url ≠ "") (hmax : 1 ≤ env.webhookMaxAttempts)
    (hattempts : w₀.shared.db.batch.webhookAttempts = 0)
    (hone : w₀.pool.filter Frame.delivers = [.queued (.deliverBatchWebhook event deferBy)])
    (hrun : (workers env).run (OneChain env) w₀ ms = some w)
    (hseen : (workers env).log (see env) w₀ ms = seen)
    (hanswers : ∀ k ok, (posts seen)[k]? = some ok → ok = (answer k).accepts) :
    (w.pool.filter Frame.delivers = [] →
      (posts seen).length = postsOf env answer ∧
      (redeliveries seen).length = postsOf env answer - 1 ∧
      w.shared.db.batch.webhookAttempts = postsOf env answer ∧
      w.shared.db.batch.webhookStatus =
        if (answer (postsOf env answer - 1)).accepts then .delivered else .dead) ∧
    (∀ deferBy ∈ redeliveries seen, 1 ≤ deferBy ∧ deferBy ≤ 300) ∧
    seen.length ≤ 4 * postsOf env answer ∧
    (w.pool.filter Frame.delivers ≠ [] →
      ∃ m w', OneChain env w m ∧ (workers env).fire w m = some w' ∧ see env w m ≠ [] ∧
        ∀ ok, .post ok ∈ see env w m → ok = (answer (posts seen).length).accepts) := by
  have hurl' : env.spec.webhookUrl.all (· = "") = false := by simp [hurl, hne]
  have hstart : Chain env w₀ [] 0 [] 0 :=
    ⟨hone ▸ .queued hattempts, rfl, rfl, rfl, by omega, by simp [redeliveries]⟩
  have hchain : ∃ n made steps, Chain env w ([] ++ seen) n made steps := by
    rw [← hseen]
    exact log_invariant (I := fun w seen => ∃ n made steps, Chain env w seen n made steps)
      ⟨0, [], 0, hstart⟩ (fun v m v' l ⟨n, made, steps, h⟩ hm hf => h.step hurl' hm hf) hrun
  obtain ⟨n, made, steps, h⟩ := hchain
  rw [List.nil_append] at h
  have hfailed := h.of_failed (fun k => (answer k).accepts) hanswers
  have hlt : n < env.webhookMaxAttempts.toNat := by
    have := h.lt_max
    omega
  refine ⟨fun hover => ?_, h.defer, ?_, h.goes_on fun k => (answer k).accepts⟩
  · have hstage := h.stage
    rw [hover] at hstage
    cases hstage with
    | @ended _ ok hcount hstatus hlast =>
      have hlast' : (answer n).accepts = ok := by
        refine (hanswers n ok ?_).symm
        rw [h.posts_eq, List.getElem?_append_right (by simp)]
        simp
      have hposts : postsOf env answer = n + 1 := by
        refine lastPost_eq hlt hfailed (hlast.imp (fun hok => hlast'.trans hok) fun hspent => ?_)
        omega
      rw [hposts, Nat.add_sub_cancel, hlast', h.posts_eq]
      exact ⟨by simp, h.length_redeliveries, hcount, hstatus⟩
  · have hsteps : steps ≤ 3 := h.stage.steps_le
    have := lt_lastPost hlt hfailed
    rw [h.length_seen, postsOf]
    omega

/-- A webhook with two attempts. -/
def hookedTwice : Env := { hooked with webhookMaxAttempts := 2 }

/-- The batch's one delivery, in the queue. -/
def enqueuedOnce : World Shared Frame :=
  { created hookedTwice 0 with pool := [.queued (.deliverBatchWebhook .completed 0)] }

/-- The receiver cannot be reached at first. -/
def lateAnswer (n : Nat) : Answer :=
  if n = 0 then .raised "All connection attempts failed" else .response 204 ""

def retriedOnce : List Moves :=
  [.act 0 .next, .act 0 (.posted false), .act 0 .next, .act 0 (.backoff (1 / 2)),
    .act 0 .next, .act 0 (.posted true), .act 0 .next]

theorem retry_chain_delivered : ∃ w,
    (workers hookedTwice).run (OneChain hookedTwice) enqueuedOnce retriedOnce = some w ∧
    w.shared.db.batch.webhookAttempts = 2 ∧ w.shared.db.batch.webhookStatus = .delivered := by
  have hrun : ((workers hookedTwice).run (OneChain hookedTwice) enqueuedOnce retriedOnce).map
      (fun w => w.pool.countP Frame.delivers) = some 0 := by decide +kernel
  obtain ⟨w, hw, hover⟩ := Option.map_eq_some_iff.mp hrun
  have hseen : posts ((workers hookedTwice).log (see hookedTwice) enqueuedOnce retriedOnce) =
      [false, true] := by decide +kernel
  have hanswers : ∀ k ok, (posts ((workers hookedTwice).log (see hookedTwice) enqueuedOnce
      retriedOnce))[k]? = some ok → ok = (lateAnswer k).accepts := by
    rw [hseen]
    rintro (_ | _ | k) ok hk <;> cases hk <;> decide
  have hposts : postsOf hookedTwice lateAnswer = 2 := by decide +kernel
  have h := retry_chain (show hookedTwice.spec.webhookUrl = some _ from rfl) (by decide)
    (by decide) rfl rfl hw rfl hanswers
  rw [hposts] at h
  rw [List.countP_eq_length_filter, List.length_eq_zero_iff] at hover
  obtain ⟨-, -, hattempts, hstatus⟩ := h.1 hover
  exact ⟨w, hw, hattempts, hstatus⟩

end BatchInference
