import BatchInference.Api.Routes
import BatchInference.Library.Machine
import BatchInference.Workers.Calls
import Mathlib.Data.List.Induction

/-!
# Batches that the jobs can run

`plan_chunks` raises for a chunk size below 1, and `acquire` does not limit a rate of 0 or
less. `create_batch` takes the defaults for 0 and for what is left out, and any other value as
it is, nan too. The JSON body has bounds for the three fields, the upload form has none.
-/

namespace BatchInference

open Machine Endpoints

structure Settings.Positive (settings : Settings) : Prop where
  chunkSize : 1 ≤ settings.defaultChunkSize
  rateLimitRps : settings.defaultRateLimitRps.pos = true
  maxConcurrency : 1 ≤ settings.defaultMaxConcurrency

/-- The jobs plan the batch, and its calls are limited. -/
structure NewBatch.Runnable (batch : NewBatch) : Prop where
  chunkSize : 1 ≤ batch.chunkSize
  rateLimitRps : batch.rateLimitRps.pos = true
  maxConcurrency : 1 ≤ batch.maxConcurrency
  planned : ∃ plan, planChunks batch.totalItems batch.chunkSize = .ok plan
  /-- `acquire` does not return at its `rate <= 0`. -/
  notUnlimited : batch.rateLimitRps.nonpos = false
  limited : ∀ rate, batch.rateLimitRps = .number rate → ∀ floatOfStr s,
    ProviderCalls.Stage.turn floatOfStr rate s .next .acquire =
      some { next := some (.reading (s.now + ProviderCalls.maxWait)) }

namespace Endpoints

/-- A request with its Idempotency-Key header. -/
structure Incoming where
  request : Request
  key : Option String := none

def Incoming.createRequest (call : Incoming) : CreateRequest :=
  { call.request.createRequest (call.key.getD "") with idempotencyKey := call.key }

/-- A whole request: the table after it, and the batch of its 202, or another answer. -/
def serve (rows : List NewBatch) (call : Incoming) : List NewBatch × Except Answer NewBatch :=
  match call.request.refusal with
  | some answer => (rows, .error answer)
  | none =>
    match createBatch call.request.w rows call.createRequest with
    | .error exc => (rows, .error (answerOf exc))
    | .ok batch =>
      if (findExisting rows call.key).isSome then (rows, .ok batch)
      else if !call.request.choiceFits then (rows, .error (answerOf (.other "DataError")))
      else (rows ++ [batch], .ok batch)

/-- No field of the form is negative, and its rate is not nan; of a JSON body, whose fields are
checked, the rate is not nan. -/
def Body.Nonneg : Body → Prop
  | .json body => body.rateLimitRps ≠ some .nan
  | .upload form =>
    (∀ size ∈ form.chunkSize, 0 ≤ size) ∧ (∀ rate ∈ form.rateLimitRps, rate.nonneg = true) ∧
      ∀ limit ∈ form.maxConcurrency, 0 ≤ limit

/-- Every batch that is answered with 202 is runnable. -/
def AdmitsRunnable (rows : List NewBatch) (calls : List Incoming) : Prop :=
  ∀ pre call, pre ++ [call] <+: calls →
    ∀ batch, (serve (after serve rows pre) call).2 = .ok batch → batch.Runnable

/-! ## One request -/

variable {rows : List NewBatch} {call : Incoming} {calls pre : List Incoming}
  {batch : NewBatch} {req : CreateRequest} {w : Outer}

theorem runnable_iff : batch.Runnable ↔
    1 ≤ batch.chunkSize ∧ batch.rateLimitRps.pos = true ∧ 1 ≤ batch.maxConcurrency := by
  constructor
  · intro h
    exact ⟨h.chunkSize, h.rateLimitRps, h.maxConcurrency⟩
  · rintro ⟨hsize, hrate, hlimit⟩
    refine ⟨hsize, hrate, hlimit, ?_, Rate.nonpos_of_pos hrate, fun rate hnumber _ _ => ?_⟩
    · exact ⟨_, if_neg (by omega)⟩
    · have hpos : 0 < rate := by simpa [hnumber, Rate.pos] using hrate
      simp [ProviderCalls.Stage.turn, hpos]

/-- `x or default` for a positive default. -/
theorem one_le_getD {x : Option Int} {default : Int} (h : 1 ≤ default) :
    1 ≤ (x.filter (· ≠ 0)).getD default ↔ ∀ n ∈ x, 0 ≤ n := by
  cases x with
  | none => simpa using h
  | some n =>
    by_cases hn : n = 0
    · simpa [Option.filter, hn] using h
    · simp [Option.filter, hn]
      omega

theorem pos_getD {x : Option Rate} {default : Rate} (h : default.pos = true) :
    ((x.filter (·.truthy)).getD default).pos = true ↔ ∀ rate ∈ x, rate.nonneg = true := by
  cases x with
  | none => simpa using h
  | some rate =>
    cases rate with
    | number q =>
      by_cases hq : q = 0
      · simpa [Option.filter, Rate.truthy, Rate.nonneg, hq] using h
      · simp [Option.filter, Rate.truthy, Rate.pos, Rate.nonneg, hq, lt_iff_le_and_ne, Ne.symm hq]
    | _ => simp [Option.filter, Rate.truthy, Rate.pos, Rate.nonneg]

theorem row_runnable_iff (hw : w.settings.Positive) (prompts : Bytes) (total : Nat) :
    (req.row w prompts total).Runnable ↔
      (∀ size ∈ req.chunkSize, 0 ≤ size) ∧ (∀ rate ∈ req.rateLimitRps, rate.nonneg = true) ∧
        ∀ limit ∈ req.maxConcurrency, 0 ≤ limit := by
  simp only [runnable_iff, CreateRequest.row, one_le_getD hw.chunkSize,
    pos_getD hw.rateLimitRps, one_le_getD hw.maxConcurrency]

theorem Rate.nonneg_iff_of_within {nanWithin : Bool} {rate : Rate}
    (h : rate.within nanWithin = true) : rate.nonneg = true ↔ rate ≠ .nan := by
  cases rate with
  | number q =>
    have hpos : 0 < q ∧ q ≤ 10000 := by simpa [Rate.within] using h
    simpa [Rate.nonneg] using hpos.1.le
  | inf | negInf => cases h
  | nan => simp [Rate.nonneg]

/-- The bounds of the JSON body. -/
theorem nonneg_iff_of_valid {nanWithin : Bool} {body : BatchCreateRequest}
    (h : body.valid nanWithin = true) :
    body.rateLimitRps ≠ some .nan ↔
      (∀ size ∈ body.chunkSize, 0 ≤ size) ∧ (∀ rate ∈ body.rateLimitRps, rate.nonneg = true) ∧
        ∀ limit ∈ body.maxConcurrency, 0 ≤ limit := by
  simp only [BatchCreateRequest.valid, within, Bool.and_eq_true, Option.all_eq_true,
    decide_eq_true_eq] at h
  obtain ⟨⟨⟨⟨-, hsize⟩, hrate⟩, hlimit⟩, -⟩ := h
  constructor
  · intro hnan
    refine ⟨fun size hmem => ?_, fun rate hmem => ?_, fun limit hmem => ?_⟩
    · have := (hsize size hmem).1
      omega
    · refine (Rate.nonneg_iff_of_within (hrate rate hmem)).mpr ?_
      rintro rfl
      exact hnan hmem
    · have := (hlimit limit hmem).1
      omega
  · rintro ⟨-, hnonneg, -⟩ hnan
    exact (Rate.nonneg_iff_of_within (hrate _ hnan)).mp (hnonneg _ hnan) rfl

theorem nonneg_iff (h : call.request.refusal = none) :
    call.request.body.Nonneg ↔
      (∀ size ∈ call.createRequest.chunkSize, 0 ≤ size) ∧
        (∀ rate ∈ call.createRequest.rateLimitRps, rate.nonneg = true) ∧
        ∀ limit ∈ call.createRequest.maxConcurrency, 0 ≤ limit := by
  obtain ⟨⟨body, w, provider, model, nanWithin⟩, key⟩ := call
  cases body with
  | json body =>
    have hvalid : body.valid nanWithin = true := by
      by_contra hinvalid
      simp [Request.refusal, hinvalid] at h
    exact nonneg_iff_of_valid hvalid
  | upload form => exact Iff.rfl

/-- A request that is answered 202 finds its batch, or puts a row of its own. -/
theorem serve_cases (h : (serve rows call).2 = .ok batch) :
    (findExisting rows call.key).isSome = true ∧ batch ∈ rows ∧ (serve rows call).1 = rows ∨
      findExisting rows call.key = none ∧ call.request.refusal = none ∧
        (∃ prompts total, batch = call.createRequest.row call.request.w prompts total) ∧
        (serve rows call).1 = rows ++ [batch] := by
  unfold serve at h ⊢
  split at h
  · cases h
  · rename_i hrefusal
    split at h
    · cases h
    · rename_i new hcreate
      unfold createBatch at hcreate
      have hkey : call.createRequest.idempotencyKey = call.key := rfl
      rw [hkey] at hcreate
      cases hfound : findExisting rows call.key with
      | some existing =>
        rw [hfound] at h hcreate
        cases hcreate
        cases h
        exact .inl ⟨rfl, (findExisting_some hfound).1, rfl⟩
      | none =>
        rw [hfound] at h hcreate
        obtain ⟨built, hbuild, hcreate⟩ := bind_ok hcreate
        obtain ⟨_, -, hcreate⟩ := bind_ok hcreate
        cases hcreate
        obtain ⟨prompts, total, -, -, hrow⟩ := build_ok hbuild
        cases hchoice : call.request.choiceFits with
        | false => simp [hchoice] at h
        | true =>
          obtain rfl : new = batch := by simpa [hchoice] using h
          exact .inr ⟨rfl, hrefusal, ⟨prompts, total, hrow⟩, by simp⟩

/-- The table after a request: the same, or with the batch that it is answered with. -/
theorem table_of_serve (rows : List NewBatch) (call : Incoming) : (serve rows call).1 = rows ∨
    ∃ batch, (serve rows call).2 = .ok batch ∧ (serve rows call).1 = rows ++ [batch] := by
  unfold serve
  split
  · exact .inl rfl
  · split
    · exact .inl rfl
    · rename_i batch _
      split_ifs
      · exact .inl rfl
      · exact .inl rfl
      · exact .inr ⟨batch, rfl, rfl⟩

/-- A 202 gives a runnable batch if the rows are runnable, and if the form of a new batch has no
negative field and its rate is not nan. -/
theorem runnable_of_serve (hrows : ∀ row ∈ rows, row.Runnable)
    (hw : call.request.w.settings.Positive) (h : (serve rows call).2 = .ok batch)
    (hform : (findExisting rows call.key).isSome = true ∨ call.request.body.Nonneg) :
    batch.Runnable := by
  rcases serve_cases h with ⟨-, hmem, -⟩ | ⟨hfound, hrefusal, ⟨prompts, total, rfl⟩, -⟩
  · exact hrows batch hmem
  · have hnonneg := hform.resolve_left (by simp [hfound])
    exact (row_runnable_iff hw ..).mpr ((nonneg_iff hrefusal).mp hnonneg)

theorem rows_runnable (hrows : ∀ row ∈ rows, row.Runnable)
    (hw : call.request.w.settings.Positive)
    (hform : ∀ batch, (serve rows call).2 = .ok batch →
      (findExisting rows call.key).isSome = true ∨ call.request.body.Nonneg) :
    ∀ row ∈ (serve rows call).1, row.Runnable := by
  rcases table_of_serve rows call with htable | ⟨batch, h, htable⟩
  · rwa [htable]
  · rw [htable]
    intro row hrow
    rcases List.mem_append.mp hrow with hrow | hrow
    · exact hrows row hrow
    · rw [List.mem_singleton.mp hrow]
      exact runnable_of_serve hrows hw h (hform batch h)

/-! ## Any number of requests -/

/-- A request that is answered with a new batch has no negative field in its form, and its rate
is not nan. -/
def FormsNonneg (rows : List NewBatch) (calls : List Incoming) : Prop :=
  ∀ pre call, pre ++ [call] <+: calls →
    ∀ batch, (serve (after serve rows pre) call).2 = .ok batch →
      (findExisting (after serve rows pre) call.key).isSome = true ∨ call.request.body.Nonneg

theorem after_runnable (hrows : ∀ row ∈ rows, row.Runnable)
    (hw : ∀ call ∈ calls, call.request.w.settings.Positive) (hforms : FormsNonneg rows calls)
    (hpre : pre <+: calls) : ∀ row ∈ after serve rows pre, row.Runnable := by
  induction pre using List.reverseRecOn with
  | nil => exact hrows
  | append_singleton pre call ih =>
    rw [after_append]
    exact rows_runnable (ih ((List.prefix_append ..).trans hpre))
      (hw call (hpre.subset (by simp))) (hforms pre call hpre)

/-- Both endpoints admit runnable batches only if and only if no form of a new batch has a
negative field and no rate of one is nan. -/
theorem admits_runnable_iff (hrows : ∀ row ∈ rows, row.Runnable)
    (hw : ∀ call ∈ calls, call.request.w.settings.Positive) :
    AdmitsRunnable rows calls ↔ FormsNonneg rows calls := by
  constructor
  · intro h pre call hpre batch hbatch
    rcases serve_cases hbatch with ⟨hfound, -, -⟩ | ⟨-, hrefusal, ⟨prompts, total, hrow⟩, -⟩
    · exact .inl hfound
    · have hrunnable := h pre call hpre batch hbatch
      rw [hrow, row_runnable_iff (hw call (hpre.subset (by simp)))] at hrunnable
      exact .inr ((nonneg_iff hrefusal).mpr hrunnable)
  · intro hforms pre call hpre batch hbatch
    exact runnable_of_serve
      (after_runnable hrows hw hforms ((List.prefix_append ..).trans hpre))
      (hw call (hpre.subset (by simp))) hbatch (hforms pre call hpre batch hbatch)

/-- A file of one line, with these fields in its form. -/
def oneLine (chunkSize : Option Int) (rateLimitRps : Option Rate) (maxConcurrency : Option Int) :
    Incoming where
  request :=
    { body := .upload { file := [97], chunkSize, rateLimitRps, maxConcurrency }
      w := plainText
      provider := "mock"
      model := "mock-model" }

theorem plainText_positive : plainText.settings.Positive :=
  ⟨by decide, by decide +kernel, by decide⟩

theorem admits_runnable_iff_twice :
    AdmitsRunnable [] [oneLine none none none, oneLine (some 0) (some .inf) none] := by
  refine (admits_runnable_iff (by simp) ?_).mpr fun pre call hpre _ _ => .inr ?_
  · simp [oneLine, plainText_positive]
  · have hcall : call ∈ [oneLine none none none, oneLine (some 0) (some .inf) none] :=
      hpre.subset (by simp)
    rcases List.mem_pair.mp hcall with rfl | rfl <;>
      simp [oneLine, Body.Nonneg, Rate.nonneg]

/-- An upload with three negative fields is accepted. The plan of its batch raises, and its
calls are not limited. -/
theorem negative_form_admitted :
    (∀ call ∈ [oneLine (some (-1)) (some (.number (-1))) (some (-1))],
      call.request.w.settings.Positive) ∧
    (∃ batch, (serve [] (oneLine (some (-1)) (some (.number (-1))) (some (-1)))).2 = .ok batch ∧
      planChunks batch.totalItems batch.chunkSize = .error "chunk_size must be >= 1" ∧
      batch.rateLimitRps.nonpos = true ∧ batch.maxConcurrency < 1) ∧
    ¬ AdmitsRunnable [] [oneLine (some (-1)) (some (.number (-1))) (some (-1))] := by
  have hseen : (serve [] (oneLine (some (-1)) (some (.number (-1))) (some (-1)))).2.toOption.map
      (fun batch => (batch.chunkSize, batch.rateLimitRps, batch.maxConcurrency)) =
      some (-1, .number (-1), -1) := by
    decide +kernel
  obtain ⟨batch, hbatch, hvalues⟩ := ok_of_toOption hseen
  obtain ⟨hsize, hrate, hlimit⟩ := by simpa only [Prod.mk.injEq] using hvalues
  refine ⟨by simp [oneLine, plainText_positive], ⟨batch, hbatch, ?_, ?_, ?_⟩, fun h => ?_⟩
  · exact planChunks_error (by omega)
  · rw [hrate]
    decide +kernel
  · omega
  · have := (h [] _ (List.prefix_refl _) batch hbatch).chunkSize
    omega

/-- nan is stored as it is. -/
example : (serve [] (oneLine none (some .nan) none)).2.toOption.map (·.rateLimitRps) =
    some .nan := by decide +kernel

end Endpoints

end BatchInference
