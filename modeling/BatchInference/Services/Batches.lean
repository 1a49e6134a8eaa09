import Mathlib.Algebra.Order.Floor.Div
import BatchInference.Models
import BatchInference.Library.Rounding

/-!
# Planning and cancelling

`planChunks` divides in floating point, as the code does; `planChunks_eq` is the integer
plan it amounts to. The rest is what the plan is used for: its entries partition the items.
-/

namespace BatchInference

/-- `math.ceil(total_items / chunk_size)` on IEEE doubles. -/
def ceilDiv (totalItems : Nat) (chunkSize : Int) : Nat :=
  ⌈Rounding.roundSig 53 ((totalItems : ℚ) / chunkSize)⌉.toNat

/-- `plan_chunks`: (chunk_index, offset, limit) -/
def planChunks (totalItems : Nat) (chunkSize : Int) : Except String (List (Nat × Int × Int)) :=
  if chunkSize < 1 then
    .error "chunk_size must be >= 1"
  else
    let n := if totalItems = 0 then 0 else ceilDiv totalItems chunkSize
    .ok <| (List.range n).map fun (i : Nat) =>
      let offset : Int := i * chunkSize
      (i, offset, min chunkSize (totalItems - offset))

/-- The row of an entry of the plan. -/
def BatchChunk.ofPlan (entry : Nat × Int × Int) : BatchChunk where
  chunkIndex := entry.1
  offset := entry.2.1
  limit := entry.2.2

/-- `create_chunk_rows`: the rows there are, or those of the plan. -/
def createChunkRows (spec : BatchSpec) (existing : List BatchChunk) :
    Except String (List BatchChunk) :=
  if existing ≠ [] then
    .ok existing
  else do
    let chunks ← planChunks spec.totalItems spec.chunkSize
    return chunks.map .ofPlan

/-- `cancel_batch` -/
def cancelBatch (now : Int) (batch : Batch) : Batch :=
  if batch.status.terminal then batch
  else { batch with status := .cancelled, completedAt := some now }

/-! ## The plan in integers -/

theorem ceilDiv_eq {totalItems chunkSize : Nat} (ht : 0 < totalItems)
    (hlt : totalItems < 2 ^ 53) (hc : 1 ≤ chunkSize) :
    ceilDiv totalItems chunkSize = (totalItems + chunkSize - 1) / chunkSize := by
  have := Rounding.ceil_roundSig_div ht hlt hc
  unfold ceilDiv
  push_cast at this ⊢
  rw [this]
  exact Int.toNat_natCast _

theorem planChunks_eq {totalItems chunkSize : Nat} (hlt : totalItems < 2 ^ 53)
    (hc : 1 ≤ chunkSize) :
    planChunks totalItems chunkSize =
      .ok ((List.range ((totalItems + chunkSize - 1) / chunkSize)).map fun i =>
        (i, i * chunkSize, min (chunkSize : Int) (totalItems - i * chunkSize))) := by
  have hpos : ¬ (chunkSize : Int) < 1 := by omega
  rcases Nat.eq_zero_or_pos totalItems with rfl | ht
  · have : (0 + chunkSize - 1) / chunkSize = 0 := Nat.div_eq_of_lt (by omega)
    simp only [planChunks, if_neg hpos, if_true, this, List.range_zero, List.map_nil]
  · simp [planChunks, hpos, ht.ne', ceilDiv_eq ht hlt hc]

theorem planChunks_error {totalItems : Nat} {chunkSize : Int} (h : chunkSize < 1) :
    planChunks totalItems chunkSize = .error "chunk_size must be >= 1" := by
  simp [planChunks, h]

theorem lt_of_lt_plan {totalItems size i : Nat} (hi : i < (totalItems + size - 1) / size) :
    i * size < totalItems := by
  have h := Nat.mul_le_of_le_div _ _ _ (Nat.succ_le_of_lt hi)
  have hpos : 0 < size := by
    rcases Nat.eq_zero_or_pos size with rfl | hpos
    · simp at hi
    · exact hpos
  rw [Nat.succ_mul] at h
  omega

/-- The chunks of a plan have room for all items. -/
theorem le_plan_mul {totalItems size : Nat} (h : 0 < size) :
    totalItems ≤ (totalItems + size - 1) / size * size := by
  have hceil : totalItems ≤ size • (totalItems ⌈/⌉ size) := le_smul_ceilDiv h
  rwa [Nat.ceilDiv_eq_add_pred_div, smul_eq_mul, mul_comm] at hceil

/-- The first `k` entries cover the items before `k * size`. -/
theorem sum_limits_prefix {totalItems size : Nat} (k : Nat)
    (hk : ∀ i < k, i * size < totalItems) :
    ((List.range k).map fun i : Nat => min (size : Int) (totalItems - i * size)).sum =
      min ((k * size : Nat) : Int) totalItems := by
  induction k with
  | zero => simp
  | succ k ih =>
    have hlast := hk k k.lt_succ_self
    rw [List.range_succ, List.map_append, List.sum_append,
      ih fun i hi => hk i (hi.trans k.lt_succ_self)]
    simp only [List.map_cons, List.map_nil, List.sum_cons, List.sum_nil, Nat.succ_mul]
    push_cast
    zify at hlast
    omega

/-- What the jobs rely on: the entries are numbered, lie inside the input and add up to it. -/
structure IsPlan (totalItems : Nat) (plan : List (Nat × Int × Int)) : Prop where
  index : ∀ {i : Nat} {entry : Nat × Int × Int}, plan[i]? = some entry → entry.1 = i
  offset_nonneg : ∀ {entry : Nat × Int × Int}, entry ∈ plan → 0 ≤ entry.2.1
  one_le_limit : ∀ {entry : Nat × Int × Int}, entry ∈ plan → 1 ≤ entry.2.2
  end_le : ∀ {entry : Nat × Int × Int}, entry ∈ plan → entry.2.1 + entry.2.2 ≤ totalItems
  sum_limits : (plan.map fun entry => entry.2.2).sum = totalItems

theorem isPlan_of_planChunks {totalItems : Nat} {chunkSize : Int}
    {plan : List (Nat × Int × Int)} (hlt : totalItems < 2 ^ 53)
    (h : planChunks totalItems chunkSize = .ok plan) : IsPlan totalItems plan := by
  have hc : 1 ≤ chunkSize := by
    by_contra hc
    simp [planChunks_error (not_le.mp hc)] at h
  obtain ⟨size, rfl⟩ := Int.eq_ofNat_of_zero_le (by omega : 0 ≤ chunkSize)
  replace hc : 1 ≤ size := by exact_mod_cast hc
  rw [planChunks_eq hlt hc, Except.ok.injEq] at h
  have entry_of_mem {entry : Nat × Int × Int} (he : entry ∈ plan) :
      ∃ i : Nat, i * size < totalItems ∧
        entry = (i, (i : Int) * size, min (size : Int) (totalItems - i * size)) := by
    obtain ⟨i, hi, rfl⟩ := List.mem_map.mp (h ▸ he)
    exact ⟨i, lt_of_lt_plan (List.mem_range.mp hi), rfl⟩
  refine ⟨?_, ?_, ?_, ?_, ?_⟩
  · intro i entry he
    obtain ⟨j, hj, rfl⟩ := by simpa [← h] using he
    obtain ⟨-, rfl⟩ := List.getElem?_eq_some_iff.mp hj
    exact List.getElem_range _
  · intro entry he
    obtain ⟨i, hi, rfl⟩ := entry_of_mem he
    positivity
  · intro entry he
    obtain ⟨i, hi, rfl⟩ := entry_of_mem he
    zify at hi
    dsimp only
    omega
  · intro entry he
    obtain ⟨i, hi, rfl⟩ := entry_of_mem he
    dsimp only
    omega
  · have hsum := sum_limits_prefix ((totalItems + size - 1) / size) fun _ => lt_of_lt_plan
    have hroom : totalItems ≤ (totalItems + size - 1) / size * size := le_plan_mul hc
    rw [← h, List.map_map, Function.comp_def, hsum]
    omega

theorem IsPlan.map_index {totalItems : Nat} {plan : List (Nat × Int × Int)}
    (h : IsPlan totalItems plan) : plan.map (·.1) = List.range plan.length := by
  refine List.ext_getElem (by simp) fun i hi _ => ?_
  rw [List.length_map] at hi
  simpa using h.index (List.getElem?_eq_getElem hi)

theorem IsPlan.ne_nil {totalItems : Nat} {plan : List (Nat × Int × Int)}
    (h : IsPlan totalItems plan) (ht : 1 ≤ totalItems) : plan ≠ [] := by
  rintro rfl
  have := h.sum_limits
  simp at this
  omega

end BatchInference
