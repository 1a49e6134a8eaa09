import BatchInference.Services.Batches

/-!
# The plan under any division

What the quotient of `plan_chunks` must be for the plan to be right: itself if it is a double,
and else within the relative error of a division. The rounding of the model is one such
quotient, and the nearest double is one as long as it is not subnormal.
-/

namespace BatchInference

open Rounding

/-- `plan_chunks`, where `total_items / chunk_size` comes to `quotient`. -/
def planChunksBy (quotient : ℚ) (totalItems : Nat) (chunkSize : Int) :
    Except String (List (Nat × Int × Int)) :=
  if chunkSize < 1 then
    .error "chunk_size must be >= 1"
  else
    let n := if totalItems = 0 then 0 else ⌈quotient⌉.toNat
    .ok <| (List.range n).map fun (i : Nat) =>
      let offset : Int := i * chunkSize
      (i, offset, min chunkSize (totalItems - offset))

theorem planChunks_eq_by (totalItems : Nat) (chunkSize : Int) :
    planChunks totalItems chunkSize =
      planChunksBy (roundSig 53 (totalItems / chunkSize)) totalItems chunkSize := rfl

/-- The plan's entry `i` in integers. -/
def planEntry (totalItems size i : Nat) : Nat × Int × Int :=
  (i, i * size, min (size : Int) (totalItems - i * size))

theorem planChunksBy_eq {quotient : ℚ} {totalItems size : Nat} (hlt : totalItems < 2 ^ 53)
    (hsize : 1 ≤ size) (hq : Rounds (totalItems / size) quotient) :
    planChunksBy quotient totalItems size =
      .ok ((List.range ((totalItems + size - 1) / size)).map (planEntry totalItems size)) := by
  have hpos : ¬ (size : Int) < 1 := by omega
  rcases Nat.eq_zero_or_pos totalItems with rfl | ht
  · have : (0 + size - 1) / size = 0 := Nat.div_eq_of_lt (by omega)
    simp only [planChunksBy, if_neg hpos, if_true, this, List.range_zero, List.map_nil]
  · have hn : ⌈quotient⌉.toNat = (totalItems + size - 1) / size := by
      rw [hq.ceil_div ht hlt hsize]
      exact Int.toNat_natCast _
    simp [planChunksBy, planEntry, hpos, ht.ne', hn]

/-- The entries of a plan in their order: each has its index and starts where the one before has
ended, none is empty or too long, only the last one may be short, and it ends with the input. -/
structure Partitions (totalItems : Nat) (chunkSize : Int) (plan : List (Nat × Int × Int)) :
    Prop where
  entry : ∀ {i : Nat} {entry : Nat × Int × Int}, plan[i]? = some entry →
    entry.1 = i ∧ entry.2.1 = i * chunkSize ∧ 1 ≤ entry.2.2 ∧ entry.2.2 ≤ chunkSize
  full : ∀ {i : Nat} {entry : Nat × Int × Int}, plan[i]? = some entry →
    i + 1 < plan.length → entry.2.2 = chunkSize
  next : ∀ {i : Nat} {entry next : Nat × Int × Int}, plan[i]? = some entry →
    plan[i + 1]? = some next → next.2.1 = entry.2.1 + entry.2.2
  last : ∀ {entry : Nat × Int × Int}, plan.getLast? = some entry →
    entry.2.1 + entry.2.2 = totalItems

theorem partitions_plan {totalItems size : Nat} (hsize : 1 ≤ size) :
    Partitions totalItems size
      ((List.range ((totalItems + size - 1) / size)).map (planEntry totalItems size)) := by
  have hroom : totalItems ≤ (totalItems + size - 1) / size * size := le_plan_mul hsize
  generalize hn : (totalItems + size - 1) / size = n at hroom
  have inside {i : Nat} (hi : i < n) : (i : Int) * size < totalItems := by
    exact_mod_cast lt_of_lt_plan (hn ▸ hi)
  have entry_of {i : Nat} {entry : Nat × Int × Int}
      (h : ((List.range n).map (planEntry totalItems size))[i]? = some entry) :
      i < n ∧ entry = planEntry totalItems size i := by
    obtain ⟨j, hj, rfl⟩ := by simpa using h
    obtain ⟨hi, rfl⟩ := List.getElem?_eq_some_iff.mp hj
    exact ⟨by simpa using hi, by simp⟩
  refine ⟨fun h => ?_, fun h hi => ?_, fun h hnext => ?_, fun h => ?_⟩
  · obtain ⟨hi, rfl⟩ := entry_of h
    have := inside hi
    exact ⟨rfl, rfl, by dsimp only [planEntry]; omega, min_le_left ..⟩
  · obtain ⟨-, rfl⟩ := entry_of h
    rw [List.length_map, List.length_range] at hi
    have := inside hi
    push_cast [add_mul] at this
    exact min_eq_left (by omega)
  · obtain ⟨-, rfl⟩ := entry_of h
    obtain ⟨hi, rfl⟩ := entry_of hnext
    have := inside hi
    push_cast [add_mul] at this
    dsimp only [planEntry]
    rw [min_eq_left (by omega)]
    push_cast
    ring
  · rw [List.getLast?_eq_getElem?, List.length_map, List.length_range] at h
    obtain ⟨hi, rfl⟩ := entry_of h
    have hlast : ((n - 1 : Nat) : Int) * size + size = n * size := by
      rw [← add_one_mul]
      exact_mod_cast congrArg (· * size) (Nat.sub_one_add_one (by omega : n ≠ 0))
    zify at hroom
    dsimp only [planEntry]
    omega

/-- The nearest double is within the error of a division, unless the chunks are so much longer
than the input that it is subnormal. -/
theorem rounds_of_nearest {quotient : ℚ} {totalItems : Nat} {chunkSize : Int}
    (hlt : totalItems < 2 ^ 53) (hsize : 1 ≤ chunkSize)
    (hnormal : 2 ^ (-1022 : ℤ) ≤ (totalItems : ℚ) / chunkSize)
    (hq : IsNearest (totalItems / chunkSize) quotient) :
    Rounds (totalItems / chunkSize) quotient := by
  have hone : (1 : ℚ) ≤ chunkSize := by exact_mod_cast hsize
  have hdividend : (totalItems : ℚ) < 2 ^ (53 : ℤ) := by exact_mod_cast hlt
  exact hq.rounds hnormal ((div_le_self totalItems.cast_nonneg hone).trans_lt hdividend)

/-- For every division that errs by no more than it may, the plan is the exact one. -/
theorem planChunksBy_exact {quotient : ℚ} {totalItems : Nat} {chunkSize : Int}
    (hlt : totalItems < 2 ^ 53) (hsize : 1 ≤ chunkSize)
    (hq : Rounds (totalItems / chunkSize) quotient) :
    ∃ plan, planChunksBy quotient totalItems chunkSize = .ok plan ∧
      (plan.length : Int) = (totalItems + chunkSize - 1) / chunkSize ∧
      Partitions totalItems chunkSize plan := by
  obtain ⟨size, rfl⟩ := Int.eq_ofNat_of_zero_le (by omega : 0 ≤ chunkSize)
  replace hsize : 1 ≤ size := by exact_mod_cast hsize
  refine ⟨_, planChunksBy_eq hlt hsize (by simpa only [Int.cast_natCast] using hq), ?_,
    partitions_plan hsize⟩
  rw [List.length_map, List.length_range]
  push_cast [Nat.cast_sub (by omega : 1 ≤ totalItems + size)]
  rfl

/-- No double is a third of 10. -/
theorem planChunks_ten_thirds : ∃ plan, planChunks 10 3 = .ok plan ∧
    (plan.length : Int) = 4 ∧ Partitions 10 3 plan := by
  rw [planChunks_eq_by]
  exact planChunksBy_exact (by norm_num) (by norm_num) (rounds_roundSig (by norm_num))

end BatchInference
