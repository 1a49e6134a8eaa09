import BatchInference.Models
import Mathlib.Data.List.Sort

/-!
# One item

`run_one` of `process_chunk`: the index of an item, the retry loop around `provider.infer`
and the result row. What the provider answers is a parameter.
-/

namespace BatchInference

inductive ErrorKind where
  | retryable | terminal
  deriving DecidableEq, Repr

def ErrorKind.value : ErrorKind → String
  | .retryable => "retryable"
  | .terminal => "terminal"

structure InferenceResult where
  ok : Bool
  output : Json := .null
  error : Option String := none
  errorKind : Option ErrorKind := none
  usage : Json := .obj []

/-- A row of a checkpoint object. -/
inductive Outcome where
  | ok (index : Int) (output usage : Json)
  | failed (index : Int) (error : Option String) (errorKind : Option ErrorKind)
  | cancelled (index : Int)

namespace Outcome

def index : Outcome → Int
  | ok index _ _ | failed index _ _ | cancelled index => index

def isOk : Outcome → Bool
  | ok .. => true
  | failed .. | cancelled _ => false

def isCancelled : Outcome → Bool
  | cancelled _ => true
  | ok .. | failed .. => false

def optStr : Option String → Json
  | some s => .str s
  | none => .null

def toJson : Outcome → Json
  | ok index output usage =>
    .obj [("index", .int index), ("ok", .bool true), ("output", output),
      ("usage", usage)]
  | failed index error errorKind =>
    .obj [("index", .int index), ("ok", .bool false), ("error", optStr error),
      ("error_kind", optStr (errorKind.map ErrorKind.value))]
  | cancelled index =>
    .obj [("index", .int index), ("ok", .bool false), ("error", .str "cancelled"),
      ("cancelled", .bool true)]

end Outcome

/-- `int(item.get("index", chunk.offset))`, `none` where it raises. -/
def itemIndex (intOfStr : String → Option Int) (offset : Int) : Json → Option Int
  | .obj fields => match fields.lookup "index" with
    | none => some offset
    | some (.int n) => some n
    | some (.bool b) => some b.toInt
    | some (.float x) => x.trunc
    | some (.str s) => intOfStr s
    | some .null | some (.arr _) | some (.obj _) => none
  | _ => none

/-- The loop over `attempt`: the reply it ends with, `none` if it has not ended with these. -/
def inferLoop : Nat → List InferenceResult → Option InferenceResult
  | 0, _ => none
  | _ + 1, [] => none
  | attempts + 1, last :: replies =>
    if last.ok ∨ last.errorKind ≠ some .retryable ∨ attempts = 0 then some last
    else inferLoop attempts replies

/-- `run_one`; `status` is what its own session reads. -/
def runOne (intOfStr : String → Option Int) (offset : Int) (status : BatchStatus)
    (item : Json) (replies : List InferenceResult) : Option Outcome := do
  let index ← itemIndex intOfStr offset item
  if status = .cancelled then
    return .cancelled index
  let last ← inferLoop 3 replies
  return if last.ok then .ok index last.output last.usage
    else .failed index last.error last.errorKind

/-- A row carries the index of its item, whatever happens to the call. -/
theorem index_runOne {intOfStr : String → Option Int} {offset : Int} {status : BatchStatus}
    {item : Json} {replies : List InferenceResult} {outcome : Outcome}
    (h : runOne intOfStr offset status item replies = some outcome) :
    itemIndex intOfStr offset item = some outcome.index := by
  obtain ⟨index, hindex, h⟩ := Option.bind_eq_some_iff.mp h
  rw [hindex]
  by_cases hs : status = .cancelled
  · rw [if_pos hs] at h
    cases h
    rfl
  · rw [if_neg hs] at h
    obtain ⟨last, -, h⟩ := Option.bind_eq_some_iff.mp h
    split_ifs at h <;> cases h <;> rfl

/-- An item is cancelled in a batch that is, and only there. -/
theorem isCancelled_runOne {intOfStr : String → Option Int} {offset : Int} {status : BatchStatus}
    {item : Json} {replies : List InferenceResult} {outcome : Outcome}
    (h : runOne intOfStr offset status item replies = some outcome) :
    outcome.isCancelled = true ↔ status = .cancelled := by
  obtain ⟨index, -, h⟩ := Option.bind_eq_some_iff.mp h
  by_cases hs : status = .cancelled
  · rw [if_pos hs] at h
    cases h
    exact iff_of_true rfl hs
  · rw [if_neg hs] at h
    obtain ⟨last, -, h⟩ := Option.bind_eq_some_iff.mp h
    split_ifs at h <;> cases h <;> exact iff_of_false Bool.false_ne_true hs

/-! ## The rows of a chunk -/

/-- `sorted(outcomes, key=lambda r: r["index"])` -/
def sortResults (outcomes : List Outcome) : List Outcome :=
  outcomes.insertionSort fun a b => a.index ≤ b.index

def okCount (results : List Outcome) : Nat := results.countP (·.isOk)

def failCount (results : List Outcome) : Nat := results.countP fun r => !r.isOk

def splitOf (results : List Outcome) : Nat × Nat := (okCount results, failCount results)

theorem perm_sortResults (outcomes : List Outcome) : (sortResults outcomes).Perm outcomes :=
  List.perm_insertionSort _ outcomes

theorem okCount_add_failCount (results : List Outcome) :
    okCount results + failCount results = results.length := by
  have := List.length_eq_countP_add_countP Outcome.isOk (l := results)
  simpa [okCount, failCount] using this.symm

theorem length_flatten_eq (segments : List (List Outcome)) :
    segments.flatten.length = ((segments.map splitOf).map fun n => n.1 + n.2).sum := by
  simp [List.length_flatten, splitOf, Function.comp_def, okCount_add_failCount]

theorem failCount_flatten (segments : List (List Outcome)) :
    failCount segments.flatten = ((segments.map splitOf).map (·.2)).sum := by
  simp [failCount, List.countP_flatten, splitOf, Function.comp_def]

end BatchInference
