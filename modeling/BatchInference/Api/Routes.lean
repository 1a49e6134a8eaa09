import BatchInference.Library.JobPool
import BatchInference.Services.CreateBatch

/-!
# The endpoints that create batches

Both of them, `create_batch_endpoint` and `upload_batch_endpoint`, call `create_batch` on a
session of their own and commit. Here they run statement by statement, any number of them at
once, for requests with one Idempotency-Key. Of another transaction a request sees the rows
that are committed, and an INSERT waits for an uncommitted row with its key. The provider and
the model of the row are as `resolve_model` has chosen them. Redis does not fail.
-/

namespace BatchInference

/-! ## Requests -/

/-- The JSON body of `POST /v1/batches`. -/
structure BatchCreateRequest where
  prompts : Option (List Prompt) := none
  promptsUrl : Option String := none
  promptsKey : Option String := none
  provider : Option String := none
  model : Option String := none
  costPreference : Option String := none
  webhookUrl : Option String := none
  webhookSecret : Option String := none
  chunkSize : Option Int := none
  rateLimitRps : Option Rate := none
  maxConcurrency : Option Int := none

/-- The form of `POST /v1/batches/upload`. -/
structure UploadForm where
  file : Bytes
  provider : Option String := none
  model : Option String := none
  costPreference : Option String := none
  webhookUrl : Option String := none
  chunkSize : Option Int := none
  rateLimitRps : Option Rate := none
  maxConcurrency : Option Int := none

/-- `Field(min_length=…, max_length=…)` -/
def lengthWithin (lo hi : Nat) (x : Option String) : Bool :=
  x.all fun s => lo ≤ s.length && s.length ≤ hi

/-- `Field(ge=…, le=…)` -/
def within (lo hi : Int) (x : Option Int) : Bool := x.all fun n => lo ≤ n && n ≤ hi

/-- `Field(gt=0, le=10_000)`; `nanWithin` is whether such bounds let nan through. -/
def Rate.within (nanWithin : Bool) : Rate → Bool
  | .number q => 0 < q && q ≤ 10000
  | .inf | .negInf => false
  | .nan => nanWithin

namespace BatchCreateRequest

/-- The fields' constraints and both validators. -/
def valid (nanWithin : Bool) (body : BatchCreateRequest) : Bool :=
  body.prompts.all (fun prompts => 1 ≤ prompts.length && prompts.length ≤ 50000) &&
  lengthWithin 1 64 body.provider && lengthWithin 1 128 body.model &&
  lengthWithin 0 32 body.costPreference && within 1 10000 body.chunkSize &&
  body.rateLimitRps.all (Rate.within nanWithin) &&
  within 1 1024 body.maxConcurrency &&
  (body.prompts.any (!·.isEmpty) || (truthy body.promptsUrl).isSome ||
    (truthy body.promptsKey).isSome)

def createRequest (body : BatchCreateRequest) (key : String) : CreateRequest where
  prompts := body.prompts
  sourceKey := body.promptsKey
  promptsUrl := body.promptsUrl
  webhookUrl := body.webhookUrl
  webhookSecret := body.webhookSecret
  chunkSize := body.chunkSize
  rateLimitRps := body.rateLimitRps
  maxConcurrency := body.maxConcurrency
  idempotencyKey := some key

end BatchCreateRequest

def UploadForm.createRequest (form : UploadForm) (key : String) : CreateRequest where
  rawNdjson := some form.file
  webhookUrl := form.webhookUrl
  chunkSize := form.chunkSize
  rateLimitRps := form.rateLimitRps
  maxConcurrency := form.maxConcurrency
  idempotencyKey := some key

namespace Endpoints

/-- 202, 422, 400 with `str(exc)` for its detail, and 500. -/
inductive Answer where
  | accepted (id : String)
  | unprocessable
  | badRequest (exc : PyError)
  | serverError
  deriving DecidableEq, Repr

def Answer.isAccepted : Answer → Bool
  | accepted _ => true
  | _ => false

/-- What an exception is turned into: the endpoints catch `ValueError`, and `get_db` rolls
back and raises again. -/
def answerOf (exc : PyError) : Answer :=
  if exc.isValueError then .badRequest exc else .serverError

inductive Body where
  | json (body : BatchCreateRequest)
  | upload (form : UploadForm)

/-- `provider` and `model` are what `resolve_model` returns for it, `nanWithin` is whether the
bounds of a JSON field let nan through. -/
structure Request where
  body : Body
  w : Outer
  provider : String
  model : String
  nanWithin : Bool := false

namespace Request

/-- What is answered before `create_batch` is called. -/
def refusal (r : Request) : Option Answer :=
  match r.body with
  | .json body => if body.valid r.nanWithin then none else some .unprocessable
  | .upload form =>
    if strip form.file = [] then some (.badRequest (.valueError "uploaded file is empty"))
    else none

def createRequest (r : Request) (key : String) : CreateRequest :=
  match r.body with
  | .json body => body.createRequest key
  | .upload form => form.createRequest key

/-- The columns of `resolve_model`. -/
def choiceFits (r : Request) : Bool := r.provider.length ≤ 64 && r.model.length ≤ 128

/-- The request is one that would be answered 202 if it were the only one. -/
def valid (key : String) (r : Request) : Bool :=
  r.refusal.isNone && r.choiceFits && (createBatch r.w [] (r.createRequest key)).toOption.isSome

end Request

/-! ## Statement by statement -/

inductive Pc where
  | received
  | notFound
  | built (batch : NewBatch)
  | inserted (batch : NewBatch)
  | found (existing : NewBatch)
  | answered (answer : Answer)

namespace Pc

def isReceived : Pc → Bool
  | received => true
  | _ => false

def isInserted : Pc → Bool
  | inserted _ => true
  | _ => false

def answer : Pc → Option Answer
  | answered a => some a
  | _ => none

end Pc

structure Call where
  request : Request
  pc : Pc

/-- The table of batches; `uncommitted` is a row of an open transaction. -/
structure Table where
  rows : List NewBatch
  uncommitted : Option NewBatch := none

/-- `none` is a call that has been answered, or whose INSERT waits. -/
def step (key : String) (t : Table) (r : Request) : Pc → Option (Table × Pc)
  | .received => some <| match r.refusal with
    | some answer => (t, .answered answer)
    | none => match findExisting t.rows (r.createRequest key).idempotencyKey with
      | some existing => (t, .found existing)
      | none => (t, .notFound)
  | .notFound => some <| match (r.createRequest key).build r.w with
    | .error exc => (t, .answered (answerOf exc))
    | .ok batch => (t, .built batch)
  | .built batch =>
    if !r.choiceFits then some (t, .answered (answerOf (.other "DataError")))
    else match batch.insert t.rows with
      | .error exc => some (t, .answered (answerOf exc))
      | .ok () =>
        if batch.clashes t.uncommitted.toList then none
        else some ({ t with uncommitted := some batch }, .inserted batch)
  | .inserted batch => some ({ rows := t.rows ++ [batch] }, .answered (.accepted batch.id))
  | .found existing => some (t, .answered (.accepted existing.id))
  | .answered _ => none

/-- Requests arrive at any time, and others put rows without the key. -/
inductive Outside where
  | arrive (r : Request)
  | other (batch : NewBatch)

open JobPool

def endpoints (key : String) : System Table Call Unit Outside where
  step _ t call := (step key t call.request call.pc).map fun (t', pc) =>
    (t', [{ call with pc }])
  env
    | .arrive r, t => some (t, [⟨r, .received⟩])
    | .other batch, t =>
      if batch.idempotencyKey = some key then none
      else some ({ t with rows := t.rows ++ [batch] }, [])

abbrev Moves := Move Unit Outside

/-- No request has arrived yet. -/
def start (rows : List NewBatch) : World Table Call where
  shared := { rows }
  pool := []

/-! ## One request alone -/

variable {key : String} {rows : List NewBatch} {t t' : Table} {r : Request} {pc pc' : Pc}

@[simp] theorem idempotencyKey_createRequest (key : String) (r : Request) :
    (r.createRequest key).idempotencyKey = some key := by
  unfold Request.createRequest
  split <;> rfl

theorem reach_alone {w : World Table Call} (h : step key t r pc = some (t', pc'))
    (hw : (endpoints key).Reach (fun _ _ => True) ⟨t', [⟨r, pc'⟩]⟩ w) :
    (endpoints key).Reach (fun _ _ => True) ⟨t, [⟨r, pc⟩]⟩ w := by
  have hf : (endpoints key).fire ⟨t, [⟨r, pc⟩]⟩ (.act 0 ()) = some ⟨t', [⟨r, pc'⟩]⟩ := by
    simp [System.fire, endpoints, h, System.others]
  exact (System.Reach.refl.step trivial hf).trans hw

/-- Nobody else being there, the statements are `create_batch`, and the answer is its result. -/
theorem answered_alone (hadmitted : r.refusal = none) (hchoice : r.choiceFits = true) :
    ∃ w, (endpoints key).Reach (fun _ _ => True) ⟨{ rows }, [⟨r, .received⟩]⟩ w ∧
      w.pool = [⟨r, .answered <| match createBatch r.w rows (r.createRequest key) with
        | .ok batch => .accepted batch.id
        | .error exc => answerOf exc⟩] := by
  rw [createBatch, idempotencyKey_createRequest]
  cases hfound : findExisting rows (some key) with
  | some existing =>
    have hlookup : step key { rows } r .received = some ({ rows }, .found existing) := by
      simp [step, hadmitted, hfound]
    exact ⟨_, reach_alone hlookup (reach_alone rfl .refl), rfl⟩
  | none =>
    have hlookup : step key { rows } r .received = some ({ rows }, .notFound) := by
      simp [step, hadmitted, hfound]
    cases hbuild : (r.createRequest key).build r.w with
    | error exc =>
      have hraised : step key { rows } r .notFound =
          some ({ rows }, .answered (answerOf exc)) := by
        simp [step, hbuild]
      exact ⟨_, reach_alone hlookup (reach_alone hraised .refl), rfl⟩
    | ok batch =>
      have hbuilt : step key { rows } r .notFound = some ({ rows }, .built batch) := by
        simp [step, hbuild]
      cases hinsert : batch.insert rows with
      | error exc =>
        have hfails : step key { rows } r (.built batch) =
            some ({ rows }, .answered (answerOf exc)) := by
          simp [step, hchoice, hinsert]
        refine ⟨_, reach_alone hlookup (reach_alone hbuilt (reach_alone hfails .refl)), ?_⟩
        simp [hinsert, Bind.bind, Except.bind]
      | ok inserted =>
        have hinserted : step key { rows } r (.built batch) =
            some ({ rows, uncommitted := some batch }, .inserted batch) := by
          simp [step, hchoice, hinsert, NewBatch.clashes]
        refine ⟨_, reach_alone hlookup (reach_alone hbuilt
          (reach_alone hinserted (reach_alone rfl .refl))), ?_⟩
        simp [hinsert, Bind.bind, Except.bind, Pure.pure, Except.pure]

end Endpoints

end BatchInference
