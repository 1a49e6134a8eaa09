import BatchInference.Models

/-!
# The POST of a webhook

`deliver_webhook` as its caller sees it: whether the receiver has taken the POST, and the error
text if not; and the payload that it is given. What the HTTP client brings is a parameter; the
bytes of the body and their signature are left out, since no job reads them.
-/

namespace BatchInference

/-- What `client.post` comes to: a response, or an exception with its text. -/
inductive Answer where
  | response (statusCode : Nat) (text : String)
  | raised (exc : String)
  deriving DecidableEq, Repr

/-- `deliver_webhook` -/
def deliverWebhook : Answer → Bool × Option String
  | .response statusCode text =>
    if 200 ≤ statusCode ∧ statusCode < 300 then (true, none)
    else (false, some s!"HTTP {statusCode}: {String.ofList (text.toList.take 300)}")
  | .raised exc => (false, some exc)

/-- The receiver has taken the POST. -/
def Answer.accepts (answer : Answer) : Bool := (deliverWebhook answer).1

/-- An error text comes with every POST that has failed, and with no other one. -/
theorem error_deliverWebhook (answer : Answer) :
    (deliverWebhook answer).2.isSome = !answer.accepts := by
  cases answer with
  | response statusCode text =>
    simp only [Answer.accepts, deliverWebhook]
    split <;> rfl
  | raised exc => rfl

structure WebhookPayload where
  event : String
  batchId : String
  status : String
  resultUrl : Option String
  stats : List (String × Nat)
  completedAt : Option Int
  timestamp : Int
  deriving DecidableEq, Repr

/-- `build_webhook_payload`; `now` is the clock. -/
def buildWebhookPayload (event batchId status : String) (resultUrl : Option String)
    (stats : List (String × Nat)) (completedAt : Option Int) (now : Int) : WebhookPayload where
  event := event
  batchId := batchId
  status := status
  resultUrl := resultUrl
  stats := stats
  completedAt := completedAt
  timestamp := now

end BatchInference
