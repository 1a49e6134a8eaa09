import BatchInference.Library.Rounding
import BatchInference.Workers.Transactions
import Mathlib.Data.List.DropRight

/-!
# The endpoints that read

`get_batch_endpoint` and `get_batch_results`, on the row and the objects as they are when the
request is served. Of a response the columns that only `create_batch` writes are left out,
except those that the progress and the URLs are made from.
-/

namespace BatchInference

def BatchStatus.value : BatchStatus → String
  | .pending => "pending"
  | .running => "running"
  | .completed => "completed"
  | .failed => "failed"
  | .cancelled => "cancelled"

def WebhookStatus.value : WebhookStatus → String
  | .pending => "pending"
  | .delivered => "delivered"
  | .dead => "dead"
  | .none => "none"

structure BatchProgress where
  totalItems : Nat
  completedItems : Nat
  failedItems : Nat
  retryCount : Nat
  fraction : ℚ

structure BatchResponse where
  id : String
  status : String
  progress : BatchProgress
  chunkSize : Int
  resultsKey : Option ObjectKey
  manifestKey : Option ObjectKey
  resultUrl : Option String
  webhookUrl : Option String
  webhookStatus : String
  error : Option String
  startedAt : Option Int
  completedAt : Option Int

/-- `round(completed_items / (total_items or 1), 6)` on doubles. -/
def fraction (completedItems totalItems : Nat) : ℚ :=
  Rounding.roundDecimal 6 <| Rounding.roundSig 53 <|
    (completedItems : ℚ) / (if totalItems = 0 then 1 else totalItems : Nat)

/-- `_to_response` -/
def toResponse (spec : BatchSpec) (batch : Batch) (resultUrl : Option String) : BatchResponse where
  id := spec.id
  status := batch.status.value
  progress :=
    { totalItems := spec.totalItems
      completedItems := batch.completedItems
      failedItems := batch.failedItems
      retryCount := batch.retryCount
      fraction := fraction batch.completedItems spec.totalItems }
  chunkSize := spec.chunkSize
  resultsKey := batch.resultsKey
  manifestKey := batch.manifestKey
  resultUrl := resultUrl
  webhookUrl := spec.webhookUrl
  webhookStatus := batch.webhookStatus.value
  error := batch.error
  startedAt := batch.startedAt
  completedAt := batch.completedAt

structure HTTPException where
  statusCode : Nat
  detail : String
  deriving DecidableEq, Repr

/-- `x.rstrip("/")` -/
def rstripSlash (x : String) : String := String.ofList (x.toList.rdropWhile (· = '/'))

/-- `_api_results_url`, with `str(request.base_url)`. -/
def apiResultsUrl (baseUrl batchId : String) : String :=
  s!"{rstripSlash baseUrl}/v1/batches/{batchId}/results"

/-- `get_batch_endpoint`; the row is what `get_batch` returns. -/
def getBatchEndpoint (baseUrl : String) :
    Option (BatchSpec × Batch) → Except HTTPException BatchResponse
  | none => .error ⟨404, "Batch not found"⟩
  | some (spec, batch) =>
    .ok (toResponse spec batch (batch.resultsKey.map fun _ => apiResultsUrl baseUrl spec.id))

/-- What `get_batch_results` returns; a body is `none` where the get of its object raises. -/
inductive ResultsResponse where
  | redirect (url : String)
  | stream (body : Option Bytes) (filename : String)
  deriving DecidableEq, Repr

/-- `get_batch_results`; `presign` is `generate_presigned_url`. -/
def getBatchResults (presign : ObjectKey → String) (store : Store) (redirect : Bool) :
    Option (BatchSpec × Batch) → Except HTTPException ResultsResponse
  | none => .error ⟨404, "Batch not found"⟩
  | some (spec, batch) => match batch.resultsKey with
    | none => .error ⟨409, "Results not ready"⟩
    | some key =>
      if redirect then .ok (.redirect (presign key))
      else .ok (.stream (store.body key) s!"{spec.id}-results.ndjson")

/-! ## The fraction -/

/-- A quotient of counts below `2 ^ 31` that is not the last one `round` takes down lies too far
from it for the rounding to a double to carry it across. -/
theorem le_roundSig_iff {completed total : Nat} (h : 1 ≤ total) (hlt : total < 2 ^ 31)
    (hle : completed ≤ total) :
    (1999999 / 2000000 : ℚ) ≤ Rounding.roundSig 53 ((completed : ℚ) / total) ↔
      1999999 * total ≤ 2000000 * completed := by
  have htotal : (1 : ℚ) ≤ total := by exact_mod_cast h
  have hwidth : (total : ℚ) < 2 ^ 31 := by exact_mod_cast hlt
  have hquot : (completed : ℚ) / total ≤ 1 :=
    div_le_one_of_le₀ (by exact_mod_cast hle) (by linarith)
  rcases Nat.eq_zero_or_pos completed with rfl | hpos
  · rw [Nat.cast_zero, zero_div, Rounding.roundSig_zero]
    exact iff_of_false (by norm_num) (by omega)
  have herror := abs_le.mp
    (Rounding.abs_roundSig_sub_le (p := 53) (x := (completed : ℚ) / total) (by positivity))
  have hsmall : (completed : ℚ) / total / 2 ^ 53 ≤ 1 / 2 ^ 53 := by gcongr
  -- the numerator of the distance is an integer, and the denominator is below `2 ^ 52`
  have hgap : (1 : ℚ) / 2 ^ 53 < 1 / (2000000 * total) := by
    apply one_div_lt_one_div_of_lt <;> linarith
  have hdistance : (completed : ℚ) / total - 1999999 / 2000000 =
      (2000000 * completed - 1999999 * total) / (2000000 * total) := by
    field_simp
  rcases lt_trichotomy (1999999 * total) (2000000 * completed) with hgt | heq | hbelow
  · refine iff_of_true ?_ hgt.le
    have hfar : (1 : ℚ) ≤ 2000000 * completed - 1999999 * total := by
      have : ((1999999 * total + 1 : Nat) : ℚ) ≤ (2000000 * completed : Nat) := by
        exact_mod_cast hgt
      push_cast at this
      linarith
    have hstep : (1 : ℚ) / (2000000 * total) ≤
        (2000000 * completed - 1999999 * total) / (2000000 * total) := by gcongr
    linarith
  · refine iff_of_true ?_ heq.le
    have hquotient : (completed : ℚ) / total = 1999999 / 2000000 := by
      have : (1999999 * total : ℚ) = 2000000 * completed := by exact_mod_cast heq
      field_simp
      linarith
    rw [hquotient]
    decide +kernel
  · refine iff_of_false (not_le.mpr ?_) hbelow.not_ge
    have hfar : (2000000 * completed - 1999999 * total : ℚ) ≤ -1 := by
      have : ((2000000 * completed + 1 : Nat) : ℚ) ≤ (1999999 * total : Nat) := by
        exact_mod_cast hbelow
      push_cast at this
      linarith
    have hstep : (2000000 * completed - 1999999 * total : ℚ) / (2000000 * total) ≤
        -1 / (2000000 * total) := by gcongr
    rw [neg_div] at hstep
    linarith

/-- The fraction is 1 as soon as the items that are left are at most one in two million. -/
theorem fraction_unit {completed total : Nat} (h : 1 ≤ total) (hlt : total < 2 ^ 31)
    (hle : completed ≤ total) : 0 ≤ fraction completed total ∧ fraction completed total ≤ 1 ∧
      (fraction completed total = 1 ↔ 2000000 * (total - completed) ≤ total) := by
  have hquot : (completed : ℚ) / total ≤ 1 :=
    div_le_one_of_le₀ (by exact_mod_cast hle) (by positivity)
  have hnonneg := Rounding.roundSig_nonneg 53 (x := (completed : ℚ) / total) (by positivity)
  have hle_one := Rounding.roundSig_le_one (p := 53) (by norm_num) (by positivity) hquot
  have hiff := le_roundSig_iff h hlt hle
  obtain ⟨hunit, hone⟩ := Rounding.roundDecimal_unit (n := 6) (by norm_num) (by norm_num)
    hnonneg hle_one
  rw [fraction, if_neg (by omega)]
  refine ⟨Rounding.roundDecimal_nonneg 6 hnonneg, hunit, hone.trans ?_⟩
  have hscale : (10 : ℚ) ^ 6 - 1 / 2 ≤ Rounding.roundSig 53 ((completed : ℚ) / total) * 10 ^ 6 ↔
      (1999999 / 2000000 : ℚ) ≤ Rounding.roundSig 53 ((completed : ℚ) / total) := by
    constructor <;> intro <;> linarith
  rw [hscale, hiff]
  omega

end BatchInference
