import BatchInference.Workers.RunOne

/-!
# The HTTP provider

The request that `run_one` builds from an item, and `OpenAIProvider.infer`: the payload, and
what becomes of a reply. `none` is an exception that `infer` lets through.
-/

namespace BatchInference

/-- The truth value of `x` in `x or y`. -/
def Json.truthy : Json → Bool
  | .null => false
  | .bool b => b
  | .int n => n ≠ 0
  | .float x => x.repr ≠ "0.0".toList && x.repr ≠ "-0.0".toList
  | .str s => s ≠ ""
  | .arr xs => !xs.isEmpty
  | .obj fields => !fields.isEmpty

/-- `dict.get`, with `None` where the key is missing. -/
def getItem (fields : List (String × Json)) (key : String) : Json :=
  (fields.lookup key).getD .null

structure InferenceRequest where
  prompt : String
  model : String
  provider : String
  index : Int
  metadata : List (String × Json)
  system : Json
  temperature : Json
  maxTokens : Json

/-- What `run_one` and the provider are given: the columns `model` and `provider` of the batch,
`str`, and whether the HTTP client can encode a payload (it raises where it cannot). -/
structure Upstream where
  model : String
  provider : String
  str : Json → String
  encodes : Json → Bool

/-- `item.get("prompt") or item.get("input") or ""` -/
def promptOf (item : List (String × Json)) : Json :=
  if (getItem item "prompt").truthy then getItem item "prompt"
  else if (getItem item "input").truthy then getItem item "input"
  else .str ""

/-- The request that `run_one` builds. -/
def Upstream.request (up : Upstream) (item : List (String × Json)) (index : Int) :
    InferenceRequest where
  prompt := up.str (promptOf item)
  model := up.model
  provider := up.provider
  index := index
  metadata := item.filter fun field => field.1 ≠ "prompt" && field.1 ≠ "input"
  system := getItem item "system"
  temperature := getItem item "temperature"
  maxTokens := getItem item "max_tokens"

/-! ## infer -/

/-- What comes of `client.post`: a `TimeoutException` or `TransportError`, another exception
(a body that cannot be decompressed), or a response with the result of its `json()`. -/
inductive HttpReply where
  | transportError (message : String)
  | otherError
  | response (status : Nat) (retryAfter : Option String) (text : String) (json : Option Json)

/-- `_classify_status` -/
def classifyStatus (status : Nat) : ErrorKind :=
  if status = 429 ∨ 500 ≤ status then .retryable else .terminal

def payload (request : InferenceRequest) : Json :=
  let message (role : String) (content : Json) : Json :=
    .obj [("role", .str role), ("content", content)]
  let system := if request.system.truthy then [message "system" request.system] else []
  let given (key : String) : Json → List (String × Json)
    | .null => []
    | value => [(key, value)]
  .obj <|
    [("model", .str request.model),
      ("messages", .arr (system ++ [message "user" (.str request.prompt)]))] ++
    given "temperature" request.temperature ++ given "max_tokens" request.maxTokens

/-- `x[0]` -/
def first : Json → Option Json
  | .arr xs => xs.head?
  | .str s => s.toList.head?.map fun c => .str (String.ofList [c])
  | _ => none

/-- `data["choices"][0]["message"]["content"]` -/
def contentOf (data : Json) : Option Json := do
  let choices ← data.get? "choices"
  let choice ← first choices
  let message ← choice.get? "message"
  message.get? "content"

/-- `OpenAIProvider.infer`: the result, and `raw.get("retry_after")` of an error. -/
def Upstream.infer (up : Upstream) (request : InferenceRequest) (reply : HttpReply) :
    Option (InferenceResult × Option String) :=
  if !up.encodes (payload request) then none
  else match reply with
    | .transportError message =>
      some ({ ok := false, error := some message, errorKind := some .retryable }, none)
    | .otherError => none
    | .response status retryAfter text json =>
      if 400 ≤ status then
        some
          ({ ok := false
             error := some s!"HTTP {status}: {String.ofList (text.toList.take 500)}"
             errorKind := some (classifyStatus status) }, retryAfter)
      else do
        let data ← json
        let content ← contentOf data
        let usage := (data.get? "usage").getD .null
        return ({ ok := true, output := content, usage := if usage.truthy then usage else .obj [] },
          none)

/-! ## Replies that are results -/

namespace HttpReply

/-- An error that the code classifies, or a body with a content. -/
def Fine : HttpReply → Prop
  | transportError _ => True
  | otherError => False
  | response status _ _ json => 400 ≤ status ∨ ∃ data, json = some data ∧ (contentOf data).isSome

/-- After this reply the loop goes on to its next attempt. -/
def Retried : HttpReply → Prop
  | transportError _ => True
  | otherError => False
  | response status _ _ _ => status = 429 ∨ 500 ≤ status

end HttpReply

variable {up : Upstream} {request : InferenceRequest} {reply : HttpReply}

theorem infer_isSome_iff : (up.infer request reply).isSome = true ↔
    up.encodes (payload request) = true ∧ reply.Fine := by
  unfold Upstream.infer
  cases up.encodes (payload request) with
  | false => simp
  | true =>
    cases reply with
    | transportError message => simp [HttpReply.Fine]
    | otherError => simp [HttpReply.Fine]
    | response status retryAfter text json =>
      by_cases hstatus : 400 ≤ status
      · simp [HttpReply.Fine, hstatus]
      · cases json with
        | none => simp [HttpReply.Fine, hstatus]
        | some data =>
          cases hcontent : contentOf data <;> simp [HttpReply.Fine, hstatus, hcontent]

/-- The result that `infer` makes of a reply. -/
inductive Inferred : HttpReply → InferenceResult → Prop where
  | unreached {message : String} :
      Inferred (.transportError message)
        { ok := false, error := some message, errorKind := some .retryable }
  | refused {status : Nat} {retryAfter : Option String} {text : String} {json : Option Json}
      (hstatus : 400 ≤ status) :
      Inferred (.response status retryAfter text json)
        { ok := false
          error := some s!"HTTP {status}: {String.ofList (text.toList.take 500)}"
          errorKind := some (classifyStatus status) }
  | answered {status : Nat} {retryAfter : Option String} {text : String} {data content : Json}
      (hstatus : ¬ 400 ≤ status) (hcontent : contentOf data = some content) :
      Inferred (.response status retryAfter text (some data))
        { ok := true
          output := content
          usage :=
            let usage := (data.get? "usage").getD .null
            if usage.truthy then usage else .obj [] }

theorem inferred_of_infer {result : InferenceResult} {retryAfter : Option String}
    (h : up.infer request reply = some (result, retryAfter)) : Inferred reply result := by
  unfold Upstream.infer at h
  split at h
  · cases h
  · cases reply with
    | transportError message => cases h; exact .unreached
    | otherError => cases h
    | response status retryAfter text json =>
      by_cases hstatus : 400 ≤ status
      · simp only [hstatus, if_true] at h
        cases h
        exact .refused hstatus
      · simp only [hstatus, if_false] at h
        obtain ⟨data, hdata, h⟩ := Option.bind_eq_some_iff.mp h
        obtain ⟨content, hcontent, h⟩ := Option.bind_eq_some_iff.mp h
        cases h
        exact hdata ▸ .answered hstatus hcontent

/-- The loop goes on after the results of these replies, and after no other. -/
theorem retryable_infer {result : InferenceResult} {retryAfter : Option String}
    (h : up.infer request reply = some (result, retryAfter)) :
    result.ok = false ∧ result.errorKind = some .retryable ↔ reply.Retried := by
  cases inferred_of_infer h with
  | unreached => simp [HttpReply.Retried]
  | @refused status =>
    by_cases hretry : status = 429 ∨ 500 ≤ status <;>
      simp [HttpReply.Retried, classifyStatus, hretry]
  | answered hstatus =>
    simp [HttpReply.Retried]
    omega

end BatchInference
