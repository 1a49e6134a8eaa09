import BatchInference.Api.Idempotency
import BatchInference.Api.Runnable
import BatchInference.Workers.Deployment

/-!
# From a request to the queue

A create request puts its prompts object, commits its row and enqueues `orchestrate_batch`,
one after the other, on three systems. Here any number of requests with any keys, or none, do
so at once, and each of them may be cut at any point: a statement raises, the client is gone or
the process dies, and the open transaction is rolled back. Nothing but the endpoints enqueues
`orchestrate_batch`, so a request that is cut between its commit and the queue leaves a batch
that no job knows of, until a request with its Idempotency-Key comes. Objects of batches that
are refused are left out.
-/

namespace BatchInference.Handover

open Endpoints JobPool System

/-! ## Statement by statement -/

/-- The batches, the keys of the rows that are not committed, the bucket, the ids that have
been drawn, and the orchestrations that have been enqueued. -/
structure Desk where
  rows : List NewBatch := []
  claimed : List String := []
  bucket : Bucket := fun _ => none
  drawn : List String := []
  queue : List String := []

inductive Pc where
  | received
  | notFound
  | put (batch : NewBatch)
  | inserted (batch : NewBatch)
  | committed (id : String)
  | ended (answer : Endpoints.Answer)

def Pc.answer : Pc → Option Endpoints.Answer
  | .ended answer => some answer
  | _ => none

/-- A request under way; nothing more happens to one that has been cut. -/
structure Visit where
  call : Incoming
  pc : Pc := .received
  cut : Bool := false

/-- The key of a row that is committed or rolled back. -/
def release (claimed : List String) : Option String → List String
  | some key => claimed.erase key
  | none => claimed

/-- `none` is a request that is done, whose INSERT waits, or whose id is not a new one. -/
def step (s : Desk) (call : Incoming) : Pc → Option (Desk × Pc)
  | .received => some <| match call.request.refusal with
    | some answer => (s, .ended answer)
    | none => match findExisting s.rows call.key with
      | some existing => (s, .committed existing.id)
      | none => (s, .notFound)
  | .notFound => match call.createRequest.build call.request.w with
    | .error exc => some (s, .ended (answerOf exc))
    | .ok batch =>
      if batch.id ∈ s.drawn then none
      else some
        ({ s with
            drawn := batch.id :: s.drawn
            bucket := Function.update s.bucket (promptsKey batch.id)
              (some (.prompts batch.prompts)) }, .put batch)
  | .put batch =>
    if !call.request.choiceFits then some (s, .ended (answerOf (.other "DataError")))
    else match batch.insert s.rows with
      | .error exc => some (s, .ended (answerOf exc))
      | .ok () =>
        if batch.idempotencyKey.any (· ∈ s.claimed) then none
        else some
          ({ s with claimed := batch.idempotencyKey.toList ++ s.claimed }, .inserted batch)
  | .inserted batch => some
      ({ s with
          rows := s.rows ++ [batch]
          claimed := release s.claimed batch.idempotencyKey }, .committed batch.id)
  | .committed id => some ({ s with queue := s.queue ++ [id] }, .ended (.accepted id))
  | .ended _ => none

def rollback (s : Desk) : Pc → Desk
  | .inserted batch => { s with claimed := release s.claimed batch.idempotencyKey }
  | _ => s

inductive Turn where
  | next
  | cut
  deriving DecidableEq

def handover : System Desk Visit Turn Incoming where
  step turn s v :=
    if v.cut then none
    else match turn with
      | .next => (step s v.call v.pc).map fun (s', pc) => (s', [{ v with pc }])
      | .cut => some (rollback s v.pc, [{ v with cut := true }])
  env call s := some (s, [{ call := call }])

/-- Before the first request. -/
def opened : World Desk Visit := ⟨{}, []⟩

/-! ## Steps -/

/-- The row is a batch as the jobs know it, and its prompts object is in the bucket. -/
def Backed (s : Desk) (batch : NewBatch) : Prop :=
  ∃ spec : BatchSpec, spec.id = batch.id ∧ spec.totalItems = batch.totalItems ∧
    spec.chunkSize = batch.chunkSize ∧ spec.webhookUrl = batch.webhookUrl ∧
    s.bucket (promptsKey batch.id) = some (.prompts spec.prompts)

variable {s s' : Desk} {call : Incoming} {pc pc' : Pc} {batch : NewBatch} {key : String}

/-- What one statement of a request does. -/
inductive Goes (s : Desk) (call : Incoming) : Pc → Desk → Pc → Prop where
  | refused {answer : Endpoints.Answer} (h : answer.isAccepted = false) :
      Goes s call .received s (.ended answer)
  | raised {answer : Endpoints.Answer} (h : answer.isAccepted = false) :
      Goes s call .notFound s (.ended answer)
  | fails {batch : NewBatch} {answer : Endpoints.Answer} (h : answer.isAccepted = false) :
      Goes s call (.put batch) s (.ended answer)
  | found {existing : NewBatch} (h : findExisting s.rows call.key = some existing) :
      Goes s call .received s (.committed existing.id)
  | notFound : Goes s call .received s .notFound
  | put {batch : NewBatch} (built : call.createRequest.build call.request.w = .ok batch)
      (new : batch.id ∉ s.drawn) :
      Goes s call .notFound
        { s with
          drawn := batch.id :: s.drawn
          bucket := Function.update s.bucket (promptsKey batch.id)
            (some (.prompts batch.prompts)) } (.put batch)
  | inserted {batch : NewBatch} (fits : batch.fits = true)
      (rows : batch.clashes s.rows = false)
      (claimed : ∀ key ∈ batch.idempotencyKey, key ∉ s.claimed) :
      Goes s call (.put batch)
        { s with claimed := batch.idempotencyKey.toList ++ s.claimed } (.inserted batch)
  | committed {batch : NewBatch} :
      Goes s call (.inserted batch)
        { s with
          rows := s.rows ++ [batch]
          claimed := release s.claimed batch.idempotencyKey } (.committed batch.id)
  | enqueued {id : String} :
      Goes s call (.committed id) { s with queue := s.queue ++ [id] } (.ended (.accepted id))

theorem goes_of_step (h : step s call pc = some (s', pc')) : Goes s call pc s' pc' := by
  cases pc with
  | received =>
    simp only [step] at h
    split at h
    · rename_i answer hrefusal
      cases h
      exact .refused (isAccepted_of_refusal hrefusal)
    · split at h
      · cases h; exact .found ‹_›
      · cases h; exact .notFound
  | notFound =>
    simp only [step] at h
    split at h
    · cases h; exact .raised (isAccepted_answerOf _)
    · split at h
      · cases h
      · cases h; exact .put ‹_› ‹_›
  | put batch =>
    simp only [step] at h
    split at h
    · cases h; exact .fails rfl
    · rcases insert_cases batch s.rows with ⟨hinsert, hfits, hrows⟩ | ⟨name, hinsert, -⟩
      · rw [hinsert] at h
        dsimp only at h
        split at h
        · cases h
        · rename_i hclaimed
          cases h
          refine .inserted hfits hrows fun key hkey => ?_
          simpa [Option.mem_def.mp hkey] using hclaimed
      · rw [hinsert] at h
        cases h
        exact .fails (isAccepted_answerOf _)
  | inserted batch => cases h; exact .committed
  | committed id => cases h; exact .enqueued
  | ended answer => cases h

/-- A move is a request's next statement, a request that is cut, or one that arrives. -/
theorem fire_cases {w w' : World Desk Visit} {m : Move Turn Incoming}
    (h : handover.fire w m = some w') :
    (∃ (i : Nat) (v : Visit) (pc : Pc), w.pool[i]? = some v ∧ v.cut = false ∧
      Goes w.shared v.call v.pc w'.shared pc ∧ w'.pool = others w i ++ [{ v with pc }]) ∨
    (∃ (i : Nat) (v : Visit), w.pool[i]? = some v ∧ v.cut = false ∧
      w'.shared = rollback w.shared v.pc ∧ w'.pool = others w i ++ [{ v with cut := true }]) ∨
    ∃ call : Incoming, w' = ⟨w.shared, w.pool ++ [{ call := call }]⟩ := by
  cases m with
  | act i turn =>
    obtain ⟨v, r, hv, hs, rfl⟩ := fire_act_iff.mp h
    simp only [handover] at hs
    split at hs
    · cases hs
    · rename_i hcut
      cases turn with
      | next =>
        obtain ⟨⟨s', pc'⟩, hstep, rfl⟩ := Option.map_eq_some_iff.mp hs
        exact .inl ⟨i, v, pc', hv, by simpa using hcut, goes_of_step hstep, rfl⟩
      | cut =>
        cases hs
        exact .inr (.inl ⟨i, v, hv, by simpa using hcut, rfl, rfl⟩)
  | env call =>
    obtain ⟨r, hr, rfl⟩ := fire_env_iff.mp h
    cases hr
    exact .inr (.inr ⟨call, rfl⟩)

/-! ## What stays -/

theorem promptsKey_injective {a b : String} (h : promptsKey a = promptsKey b) : a = b := by
  unfold promptsKey batchPrefix at h
  rw [List.append_assoc, List.append_assoc, List.append_cancel_left_eq,
    List.append_cancel_right_eq] at h
  exact String.toList_inj.mp h

/-- The rows, the queue and the prompts objects that there are. -/
structure Grows (s s' : Desk) : Prop where
  rows : s.rows ⊆ s'.rows
  queue : s.queue ⊆ s'.queue
  drawn : s.drawn ⊆ s'.drawn
  bucket : ∀ id ∈ s.drawn, s'.bucket (promptsKey id) = s.bucket (promptsKey id)

theorem grows_refl (s : Desk) : Grows s s :=
  ⟨List.Subset.refl _, List.Subset.refl _, List.Subset.refl _, fun _ _ => rfl⟩

theorem Goes.grows (h : Goes s call pc s' pc') : Grows s s' := by
  cases h with
  | @put batch built new =>
    refine ⟨List.Subset.refl _, List.Subset.refl _, List.subset_cons_self _ _, fun id hid => ?_⟩
    refine Function.update_of_ne (fun heq => new ?_) ..
    exact promptsKey_injective heq ▸ hid
  | committed => exact { grows_refl s with rows := List.subset_append_left _ _ }
  | enqueued => exact { grows_refl s with queue := List.subset_append_left _ _ }
  | _ => exact { grows_refl s with }

theorem grows_rollback (s : Desk) (pc : Pc) : Grows s (rollback s pc) := by
  cases pc <;> exact { grows_refl s with }

theorem Grows.backed (h : Grows s s') (hid : batch.id ∈ s.drawn) (hb : Backed s batch) :
    Backed s' batch := by
  obtain ⟨spec, hspec, htotal, hsize, hurl, hprompts⟩ := hb
  exact ⟨spec, hspec, htotal, hsize, hurl, (h.bucket _ hid).trans hprompts⟩

/-! ## What holds of every request -/

def Visit.Ok (s : Desk) (v : Visit) : Prop :=
  match v.pc with
  | .received | .notFound => True
  | .put batch =>
    batch.id ∈ s.drawn ∧ v.call.createRequest.build v.call.request.w = .ok batch ∧
      s.bucket (promptsKey batch.id) = some (.prompts batch.prompts)
  | .inserted batch => batch.id ∈ s.drawn ∧ Backed s batch
  | .committed id => ∃ row ∈ s.rows, row.id = id
  | .ended answer => ∀ id, answer = .accepted id → id ∈ s.queue

theorem Visit.Ok.mono {v : Visit} (h : v.Ok s) (hg : Grows s s') : v.Ok s' := by
  obtain ⟨call, pc, cut⟩ := v
  cases pc with
  | received | notFound => trivial
  | put batch =>
    obtain ⟨hid, hbuild, hprompts⟩ := h
    exact ⟨hg.drawn hid, hbuild, (hg.bucket _ hid).trans hprompts⟩
  | inserted batch => exact ⟨hg.drawn h.1, hg.backed h.1 h.2⟩
  | committed id =>
    obtain ⟨row, hrow, hid⟩ := h
    exact ⟨row, hg.rows hrow, hid⟩
  | ended answer => exact fun id hid => hg.queue (h id hid)

/-- Who has been refused is not told of a batch. -/
theorem ok_of_refused {answer : Endpoints.Answer} (h : answer.isAccepted = false) :
    ∀ id, answer = .accepted id → id ∈ s.queue := by
  rintro id rfl
  cases h

theorem backed_of_build (hbuild : call.createRequest.build call.request.w = .ok batch)
    (hfits : batch.fits = true)
    (hprompts : s.bucket (promptsKey batch.id) = some (.prompts batch.prompts)) :
    Backed s batch := by
  have hcreate : createBatch call.request.w [] call.createRequest = .ok batch := by
    have hinsert : batch.insert [] = .ok () := by
      simp [NewBatch.insert, NewBatch.clashes, hfits]
    rw [createBatch, findExisting_nil]
    simp [hbuild, hinsert, Bind.bind, Except.bind, Pure.pure, Except.pure]
  obtain ⟨spec, hid, htotal, hsize, hurl, hspec⟩ :=
    spec_of_createBatch hcreate (List.not_mem_nil)
  exact ⟨spec, hid, htotal, hsize, hurl, hspec ▸ hprompts⟩

theorem Goes.ok (h : Goes s call pc s' pc') {cut : Bool} (hok : Visit.Ok s ⟨call, pc, cut⟩) :
    Visit.Ok s' ⟨call, pc', cut⟩ := by
  cases h with
  | refused h | raised h | fails h => exact ok_of_refused h
  | found h => exact ⟨_, (findExisting_some h).1, rfl⟩
  | notFound => trivial
  | put built new => exact ⟨List.mem_cons_self, built, Function.update_self ..⟩
  | inserted fits rows claimed =>
    obtain ⟨hid, hbuild, hprompts⟩ := hok
    exact ⟨hid, backed_of_build hbuild fits hprompts⟩
  | @committed batch => exact ⟨batch, by simp, rfl⟩
  | enqueued =>
    intro id hid
    cases hid
    simp

/-! ## One row for each key -/

/-- The request's row is not committed, and has the key. -/
def Pc.holds (key : String) : Pc → Bool
  | .inserted batch => batch.idempotencyKey = some key
  | _ => false

def Visit.holds (key : String) (v : Visit) : Bool := !v.cut && v.pc.holds key

theorem count_release (hpos : (Pc.inserted batch).holds key = true → 0 < s.claimed.count key) :
    (release s.claimed batch.idempotencyKey).count key +
      ((Pc.inserted batch).holds key).toNat = s.claimed.count key := by
  cases hkey : batch.idempotencyKey with
  | none => simp [release, Pc.holds, hkey]
  | some other =>
    by_cases h : other = key
    · subst h
      have := hpos (decide_eq_true hkey)
      simp only [release, Pc.holds, hkey, decide_true, Bool.toNat_true, List.count_erase_self]
      omega
    · simp [release, Pc.holds, hkey, h, List.count_erase_of_ne (Ne.symm h)]

/-- The unique constraint: an INSERT goes through where no row has the key, committed or not. -/
theorem Goes.unique (h : Goes s call pc s' pc')
    (hunique : keyed key s.rows + s.claimed.count key ≤ 1)
    (hpos : pc.holds key = true → 0 < s.claimed.count key) :
    keyed key s'.rows + s'.claimed.count key ≤ 1 ∧
      s'.claimed.count key + (pc.holds key).toNat =
        s.claimed.count key + (pc'.holds key).toNat := by
  cases h with
  | @inserted batch fits rows claimed =>
    cases hkey : batch.idempotencyKey with
    | none => simpa [Pc.holds, hkey] using hunique
    | some other =>
      by_cases h : other = key
      · subst h
        have hrows : ¬ 0 < keyed other s.rows := by rw [← clashes_iff hkey, rows]; simp
        have hclaimed : s.claimed.count other = 0 :=
          List.count_eq_zero_of_not_mem (claimed other hkey)
        simp [Pc.holds, hkey, hclaimed]
        omega
      · simpa [Pc.holds, hkey, h, List.count_cons] using hunique
  | @committed batch =>
    have hcount := count_release hpos
    have hsingle : keyed key [batch] = ((Pc.inserted batch).holds key).toNat := by
      by_cases h : batch.idempotencyKey = some key <;> simp [keyed_singleton, Pc.holds, h]
    have hdone : ((Pc.committed batch.id).holds key).toNat = 0 := rfl
    simp only [keyed_append, hsingle, hdone]
    omega
  | _ => exact ⟨hunique, rfl⟩

theorem unique_rollback (hunique : keyed key s.rows + s.claimed.count key ≤ 1)
    (hpos : pc.holds key = true → 0 < s.claimed.count key) :
    keyed key (rollback s pc).rows + (rollback s pc).claimed.count key ≤ 1 ∧
      (rollback s pc).claimed.count key + (pc.holds key).toNat = s.claimed.count key := by
  cases pc with
  | inserted batch =>
    have hcount := count_release hpos
    refine ⟨?_, hcount⟩
    simp only [rollback]
    omega
  | _ => exact ⟨hunique, rfl⟩

/-! ## Runs -/

variable {w w' : World Desk Visit} {m : Move Turn Incoming}

/-- What the three systems know of each other. -/
structure Sound (w : World Desk Visit) : Prop where
  visits : ∀ v ∈ w.pool, v.Ok w.shared
  rows : ∀ row ∈ w.shared.rows, row.id ∈ w.shared.drawn ∧ Backed w.shared row
  queue : ∀ id ∈ w.shared.queue, ∃ row ∈ w.shared.rows, row.id = id
  handed : ∀ row ∈ w.shared.rows,
    row.id ∈ w.shared.queue ∨ ∃ v ∈ w.pool, v.pc = .committed row.id
  unique : ∀ key, keyed key w.shared.rows + w.shared.claimed.count key ≤ 1
  writers : ∀ key, w.pool.countP (·.holds key) = w.shared.claimed.count key

theorem Sound.pos (h : Sound w) {v : Visit} (hv : v ∈ w.pool) (hcut : v.cut = false)
    (hholds : v.pc.holds key = true) : 0 < w.shared.claimed.count key := by
  rw [← h.writers]
  exact List.countP_pos_iff.mpr ⟨v, hv, by simp [Visit.holds, hcut, hholds]⟩

theorem Goes.rows_cases (h : Goes s call pc s' pc') {row : NewBatch} (hrow : row ∈ s'.rows) :
    row ∈ s.rows ∨ pc = .inserted row ∧ pc' = .committed row.id := by
  cases h with
  | committed =>
    rcases List.mem_append.mp hrow with hrow | hrow
    · exact .inl hrow
    · obtain rfl := List.mem_singleton.mp hrow
      exact .inr ⟨rfl, rfl⟩
  | _ => exact .inl hrow

theorem Goes.queue_cases (h : Goes s call pc s' pc') {id : String} (hid : id ∈ s'.queue) :
    id ∈ s.queue ∨ pc = .committed id ∧ pc' = .ended (.accepted id) := by
  cases h with
  | enqueued =>
    rcases List.mem_append.mp hid with hid | hid
    · exact .inl hid
    · obtain rfl := List.mem_singleton.mp hid
      exact .inr ⟨rfl, rfl⟩
  | _ => exact .inl hid

/-- A request goes on. -/
theorem Sound.next (h : Sound w) {i : Nat} {v : Visit} (hv : w.pool[i]? = some v)
    (hcut : v.cut = false) (hgoes : Goes w.shared v.call v.pc s' pc') :
    Sound ⟨s', others w i ++ [{ v with pc := pc' }]⟩ := by
  have hmem := List.mem_of_getElem? hv
  have hgrows := hgoes.grows
  have hunique (key : String) := hgoes.unique (h.unique key) (h.pos hmem hcut)
  constructor
  · intro u hu
    rcases List.mem_append.mp hu with hu | hu
    · exact (h.visits u (mem_of_mem_others hu)).mono hgrows
    · obtain rfl := List.mem_singleton.mp hu
      exact hgoes.ok (h.visits v hmem)
  · intro row hrow
    rcases hgoes.rows_cases hrow with hrow | ⟨hpc, -⟩
    · obtain ⟨hid, hbacked⟩ := h.rows row hrow
      exact ⟨hgrows.drawn hid, hgrows.backed hid hbacked⟩
    · have hok := h.visits v hmem
      rw [Visit.Ok, hpc] at hok
      exact ⟨hgrows.drawn hok.1, hgrows.backed hok.1 hok.2⟩
  · intro id hid
    rcases hgoes.queue_cases hid with hid | ⟨hpc, -⟩
    · obtain ⟨row, hrow, hid⟩ := h.queue id hid
      exact ⟨row, hgrows.rows hrow, hid⟩
    · have hok := h.visits v hmem
      rw [Visit.Ok, hpc] at hok
      obtain ⟨row, hrow, hid⟩ := hok
      exact ⟨row, hgrows.rows hrow, hid⟩
  · intro row hrow
    rcases hgoes.rows_cases hrow with hrow | ⟨-, hpc⟩
    · rcases h.handed row hrow with hqueue | ⟨u, hu, hpc⟩
      · exact .inl (hgrows.queue hqueue)
      · rcases (mem_iff_others hv u).mp hu with rfl | hu
        · rw [hpc] at hgoes
          cases hgoes
          exact .inl (by simp)
        · exact .inr ⟨u, List.mem_append_left _ hu, hpc⟩
    · exact .inr ⟨_, List.mem_append_right _ List.mem_cons_self, hpc⟩
  · exact fun key => (hunique key).1
  · intro key
    have hcount := countP_replace hv { v with pc := pc' } (·.holds key)
    have hbalance := (hunique key).2
    have hwriters := h.writers key
    simp only [Visit.holds, hcut, Bool.not_false, Bool.true_and] at hcount hwriters ⊢
    omega

/-- A request is cut. -/
theorem Sound.cut (h : Sound w) {i : Nat} {v : Visit} (hv : w.pool[i]? = some v)
    (hcut : v.cut = false) :
    Sound ⟨rollback w.shared v.pc, others w i ++ [{ v with cut := true }]⟩ := by
  have hmem := List.mem_of_getElem? hv
  have hgrows := grows_rollback w.shared v.pc
  have hsame : (rollback w.shared v.pc).rows = w.shared.rows ∧
      (rollback w.shared v.pc).queue = w.shared.queue := by
    cases v.pc <;> exact ⟨rfl, rfl⟩
  have hunique (key : String) := unique_rollback (h.unique key) (h.pos hmem hcut)
  constructor
  · intro u hu
    rcases List.mem_append.mp hu with hu | hu
    · exact (h.visits u (mem_of_mem_others hu)).mono hgrows
    · obtain rfl := List.mem_singleton.mp hu
      exact Visit.Ok.mono (v := { v with cut := true }) (h.visits v hmem) hgrows
  · intro row hrow
    obtain ⟨hid, hbacked⟩ := h.rows row (hsame.1 ▸ hrow)
    exact ⟨hgrows.drawn hid, hgrows.backed hid hbacked⟩
  · intro id hid
    obtain ⟨row, hrow, hid⟩ := h.queue id (hsame.2 ▸ hid)
    exact ⟨row, hgrows.rows hrow, hid⟩
  · intro row hrow
    refine (h.handed row (hsame.1 ▸ hrow)).imp (fun hqueue => hgrows.queue hqueue) ?_
    rintro ⟨u, hu, hpc⟩
    rcases (mem_iff_others hv u).mp hu with rfl | hu
    · exact ⟨_, List.mem_append_right _ List.mem_cons_self, hpc⟩
    · exact ⟨u, List.mem_append_left _ hu, hpc⟩
  · exact fun key => (hunique key).1
  · intro key
    have hcount := countP_replace hv { v with cut := true } (·.holds key)
    have hbalance := (hunique key).2
    have hwriters := h.writers key
    simp only [Visit.holds, hcut, Bool.not_false, Bool.not_true, Bool.true_and, Bool.false_and,
      Bool.toNat_false] at hcount hwriters ⊢
    omega

/-- A request arrives. -/
theorem Sound.arrive (h : Sound w) (call : Incoming) :
    Sound ⟨w.shared, w.pool ++ [{ call := call }]⟩ where
  visits v hv := by
    rcases List.mem_append.mp hv with hv | hv
    · exact h.visits v hv
    · obtain rfl := List.mem_singleton.mp hv
      trivial
  rows := h.rows
  queue := h.queue
  handed row hrow := (h.handed row hrow).imp_right fun ⟨v, hv, hpc⟩ =>
    ⟨v, List.mem_append_left _ hv, hpc⟩
  unique := h.unique
  writers key := by
    have hnew : ({ call := call } : Visit).holds key = false := rfl
    simp [List.countP_append, hnew, h.writers key]

theorem Sound.fire (h : Sound w) (hf : handover.fire w m = some w') : Sound w' := by
  obtain ⟨s', pool'⟩ := w'
  rcases fire_cases hf with ⟨i, v, pc, hv, hcut, hgoes, rfl⟩ | ⟨i, v, hv, hcut, rfl, rfl⟩ |
    ⟨call, hw'⟩
  · exact h.next hv hcut hgoes
  · exact h.cut hv hcut
  · exact hw' ▸ h.arrive call

theorem sound_of_reach (h : handover.Reach (fun _ _ => True) opened w) : Sound w := by
  refine Reach.invariant (A := fun _ => True) (fun _ _ => trivial) ?_
    (fun _ _ _ _ hv _ hf => hv.fire hf) h
  constructor <;> simp [opened]

/-- A request with the key of a row finds this row. -/
theorem Sound.findExisting_eq (h : Sound w) {row : NewBatch} (hrow : row ∈ w.shared.rows)
    (hkey : row.idempotencyKey = some key) (hne : key ≠ "") :
    findExisting w.shared.rows (some key) = some row := by
  have htruthy : truthy (some key) = some key := by simp [truthy, hne]
  cases hfind : w.shared.rows.find? (·.idempotencyKey = some key) with
  | none =>
    have := List.find?_eq_none.mp hfind row hrow
    simp [hkey] at this
  | some found =>
    have hfound : found.idempotencyKey = some key := by simpa using List.find?_some hfind
    have hmem : row ∈ w.shared.rows.filter (·.idempotencyKey = some key) :=
      List.mem_filter.mpr ⟨hrow, by simpa using hkey⟩
    have hone : (w.shared.rows.filter (·.idempotencyKey = some key)).length ≤ 1 := by
      rw [← List.countP_eq_length_filter]
      exact (Nat.le_add_right _ _).trans (h.unique key)
    obtain ⟨only, honly⟩ := List.length_eq_one_iff.mp (hone.antisymm (List.length_pos_of_mem hmem))
    have heq : found = row := by
      have hfilter : found ∈ w.shared.rows.filter (·.idempotencyKey = some key) :=
        List.mem_filter.mpr ⟨List.mem_of_find?_eq_some hfind, by simpa using hfound⟩
      rw [honly, List.mem_singleton] at hmem hfilter
      rw [hfilter, hmem]
    rw [findExisting, htruthy, Option.bind_some, hfind, heq]

/-- The next request with the key enqueues the batch. -/
theorem Sound.retry (h : Sound w) {row : NewBatch} (hrow : row ∈ w.shared.rows)
    (hkey : row.idempotencyKey = some key) (hne : key ≠ "") (hcall : call.key = some key)
    (hadmitted : call.request.refusal = none) :
    handover.Reach (fun _ _ => True) w
      ⟨{ w.shared with queue := w.shared.queue ++ [row.id] },
        w.pool ++ [{ call, pc := .ended (.accepted row.id) }]⟩ := by
  have harrive : handover.fire w (.env call) =
      some ⟨w.shared, w.pool ++ [{ call := call }]⟩ := rfl
  have hlookup : handover.step .next w.shared { call := call } =
      some (w.shared, [{ call, pc := .committed row.id }]) := by
    simp [handover, step, hadmitted, hcall, h.findExisting_eq hrow hkey hne]
  have henqueue : handover.step .next w.shared { call, pc := .committed row.id } =
      some ({ w.shared with queue := w.shared.queue ++ [row.id] },
        [{ call, pc := .ended (.accepted row.id) }]) := rfl
  exact ((Reach.refl.step trivial harrive).step trivial (fire_last _ hlookup)).step trivial
    (fire_last _ henqueue)

end BatchInference.Handover
