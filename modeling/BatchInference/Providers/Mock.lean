import BatchInference.Providers.OpenAI

/-!
# The local provider

`MockProvider`, which stands in for an upstream in tests and in local runs. What it answers
depends on the prompt only.
-/

namespace BatchInference

/-- `text.split()` -/
def splitWords (text : String) : List (List Char) :=
  (text.toList.splitOnP isUnicodeSpace).filter (· ≠ [])

def startsWith (marker text : String) : Bool := marker.toList.isPrefixOf text.toList

namespace MockProvider

def infer (request : InferenceRequest) : InferenceResult :=
  if startsWith "__fail_retry__" request.prompt then
    { ok := false, error := some "forced retryable failure", errorKind := some .retryable }
  else if startsWith "__fail_terminal__" request.prompt then
    { ok := false, error := some "forced terminal failure", errorKind := some .terminal }
  else
    { ok := true
      output := .str ("echo:" ++ request.prompt)
      usage := .obj
        [("prompt_tokens", .int (splitWords request.prompt).length),
          ("completion_tokens", .int 1)] }

/-- The prompts that it refuses. -/
def fails (prompt : String) : Bool :=
  startsWith "__fail_retry__" prompt || startsWith "__fail_terminal__" prompt

theorem ok_infer (request : InferenceRequest) : (infer request).ok = !fails request.prompt := by
  unfold infer fails
  cases startsWith "__fail_retry__" request.prompt <;>
    cases startsWith "__fail_terminal__" request.prompt <;> rfl

example : (splitWords " a  b\tc ").length = 3 := by decide

end MockProvider

end BatchInference
