import BatchInference.Providers.OpenAI
import BatchInference.Workers.Invariant

/-!
# The rows of items

The row that `run_one` makes of an item and of the provider's replies to it, and the items
that get one.
-/

namespace BatchInference

/-! ## The row of an item -/

/-- What the attempts of `run_one` get; `none` if one of them raises. -/
def Upstream.results (up : Upstream) (request : InferenceRequest) :
    Nat → (Nat → HttpReply) → Option (List InferenceResult)
  | 0, _ => some []
  | attempts + 1, replies => do
    let (result, _) ← up.infer request (replies 0)
    if result.ok ∨ result.errorKind ≠ some .retryable then
      return [result]
    let rest ← up.results request attempts fun m => replies (m + 1)
    return result :: rest

/-- What a chunk meets outside: the provider, its reply to each attempt of each item, and
whether `write_chunk_results` can write a value (it raises where it cannot). -/
structure Surroundings where
  up : Upstream
  replies : Nat → Nat → HttpReply
  writes : Json → Bool

def Outcome.writable (writes : Json → Bool) : Outcome → Bool
  | ok _ output usage => writes output && writes usage
  | failed _ error _ => error.all fun text => writes (.str text)
  | cancelled _ => true

namespace Surroundings

variable (out : Surroundings) (env : Env) (chunk : BatchChunk)

/-- The results of item `j`; `none` if its `run_one` raises. -/
def results (j : Nat) : Json → Option (List InferenceResult)
  | .obj fields => do
    let index ← itemIndex env.intOfStr chunk.offset (.obj fields)
    out.up.results (out.up.request fields index) 3 (out.replies j)
  | _ => none

/-- The row of item `j`: nothing but this item and the replies to it goes into it. -/
def row (j : Nat) (item : Json) : Option Outcome :=
  (out.results env chunk j item).bind (runOne env.intOfStr chunk.offset .running item)

end Surroundings

/-! ## Items and replies that give a row -/

namespace HttpReply

/-- What `run_one` keeps of the reply can be written. -/
def Writable (writes : Json → Bool) : HttpReply → Prop
  | transportError message => writes (.str message) = true
  | otherError => True
  | response status _ text json =>
    if 400 ≤ status then
      writes (.str s!"HTTP {status}: {String.ofList (text.toList.take 500)}") = true
    else
      ∀ data ∈ json, ∀ content ∈ contentOf data,
        let usage := (data.get? "usage").getD .null
        writes content = true ∧ writes (if usage.truthy then usage else .obj []) = true

end HttpReply

/-- Each reply that the loop asks for is an error that the code classifies or has a content, and
what the last of them says can be written. -/
def Served (writes : Json → Bool) (attempts : Nat) (replies : Nat → HttpReply) : Prop :=
  ∀ m < attempts, (∀ k < m, (replies k).Retried) → (replies m).Fine ∧
    (m + 1 = attempts ∨ ¬ (replies m).Retried → (replies m).Writable writes)

/-- An object with an index that `int` accepts, a request that can be sent, and replies that
give it a row. -/
def Surroundings.Fine (out : Surroundings) (env : Env) (chunk : BatchChunk) (j : Nat)
    (item : Json) : Prop :=
  ∃ fields index, item = .obj fields ∧
    itemIndex env.intOfStr chunk.offset item = some index ∧
    out.up.encodes (payload (out.up.request fields index)) = true ∧
    Served out.writes 3 (out.replies j)

/-- The row that `run_one` makes of the last result. -/
def rowOf (index : Int) (last : InferenceResult) : Outcome :=
  if last.ok then .ok index last.output last.usage else .failed index last.error last.errorKind

theorem index_rowOf (index : Int) (last : InferenceResult) : (rowOf index last).index = index := by
  unfold rowOf
  split <;> rfl

theorem isCancelled_rowOf (index : Int) (last : InferenceResult) :
    (rowOf index last).isCancelled = false := by
  unfold rowOf
  split <;> rfl

section Rows

variable {up : Upstream} {request : InferenceRequest} {reply : HttpReply}
  {replies : Nat → HttpReply} {writes : Json → Bool} {index : Int} {attempts : Nat}

theorem writable_infer {result : InferenceResult} {retryAfter : Option String}
    (h : up.infer request reply = some (result, retryAfter)) :
    (rowOf index result).writable writes = true ↔ reply.Writable writes := by
  cases inferred_of_infer h with
  | unreached => simp [rowOf, Outcome.writable, HttpReply.Writable]
  | refused hstatus => simp [rowOf, Outcome.writable, HttpReply.Writable, hstatus]
  | answered hstatus hcontent =>
    simp [rowOf, Outcome.writable, HttpReply.Writable, hstatus, hcontent]

/-- The result that the loop over `attempt` ends with. -/
def Upstream.last (up : Upstream) (request : InferenceRequest) (attempts : Nat)
    (replies : Nat → HttpReply) : Option InferenceResult :=
  (up.results request attempts replies).bind (inferLoop attempts)

/-- The loop goes on, or it ends with the first result. -/
theorem last_cases {result : InferenceResult} {retryAfter : Option String}
    (h : up.infer request (replies 0) = some (result, retryAfter)) :
    ((replies 0).Retried ∧ attempts ≠ 0) ∧
        up.last request (attempts + 1) replies =
          (up.last request attempts fun m => replies (m + 1)) ∨
      ¬ ((replies 0).Retried ∧ attempts ≠ 0) ∧
        up.last request (attempts + 1) replies = some result := by
  rw [← retryable_infer h, Upstream.last, Upstream.results, h]
  by_cases hretry : result.ok = false ∧ result.errorKind = some .retryable
  · obtain ⟨hok, hkind⟩ := hretry
    cases attempts with
    | zero => exact .inr ⟨by simp, by simp [Upstream.results, inferLoop]⟩
    | succ attempts =>
      exact .inl ⟨⟨⟨hok, hkind⟩, by omega⟩,
        by simp [hok, hkind, inferLoop, Upstream.last, Option.bind_assoc]⟩
  · have hstop : result.ok = true ∨ result.errorKind ≠ some .retryable := by
      rw [not_and_or] at hretry
      simpa using hretry
    exact .inr ⟨fun hmore => hretry hmore.1, by simp [hstop, inferLoop, ← or_assoc]⟩

theorem served_more (hfine : (replies 0).Fine) (hretried : (replies 0).Retried)
    (hmore : attempts ≠ 0) :
    Served writes (attempts + 1) replies ↔ Served writes attempts fun m => replies (m + 1) := by
  have hall (m : Nat) : (∀ k < m + 1, (replies k).Retried) ↔
      ∀ k < m, (replies (k + 1)).Retried := by
    rw [Nat.forall_lt_succ_left]
    exact and_iff_right hretried
  constructor
  · intro h m hm hbefore
    obtain ⟨hnext, hwritable⟩ := h (m + 1) (by omega) ((hall m).mpr hbefore)
    exact ⟨hnext, fun hlast => hwritable (hlast.imp_left (congrArg (· + 1)))⟩
  · intro h m hm hbefore
    cases m with
    | zero =>
      refine ⟨hfine, ?_⟩
      rintro (hone | hnot)
      · omega
      · exact absurd hretried hnot
    | succ m =>
      obtain ⟨hnext, hwritable⟩ := h m (by omega) ((hall m).mp hbefore)
      exact ⟨hnext, fun hlast => hwritable (hlast.imp_left Nat.succ.inj)⟩

theorem served_once (hends : ¬ ((replies 0).Retried ∧ attempts ≠ 0)) :
    Served writes (attempts + 1) replies ↔
      (replies 0).Fine ∧ (replies 0).Writable writes := by
  constructor
  · intro h
    obtain ⟨hfine, hwritable⟩ := h 0 (by omega) (by omega)
    refine ⟨hfine, hwritable ?_⟩
    by_cases hzero : attempts = 0
    · exact .inl (by omega)
    · exact .inr fun hretried => hends ⟨hretried, hzero⟩
  · rintro ⟨hfine, hwritable⟩ m hm hbefore
    cases m with
    | zero => exact ⟨hfine, fun _ => hwritable⟩
    | succ m => exact absurd ⟨hbefore 0 (by omega), by omega⟩ hends

/-- What the attempts need to end with a result that can be written. -/
theorem last_iff (index : Int) (hpos : attempts ≠ 0) :
    (∃ last, up.last request attempts replies = some last ∧
        (rowOf index last).writable writes = true) ↔
      up.encodes (payload request) = true ∧ Served writes attempts replies := by
  induction attempts generalizing replies with
  | zero => exact absurd rfl hpos
  | succ attempts ih =>
    cases hinfer : up.infer request (replies 0) with
    | none =>
      have hnone : up.last request (attempts + 1) replies = none := by
        rw [Upstream.last, Upstream.results, hinfer]
        rfl
      have hbad : ¬ (up.encodes (payload request) = true ∧ (replies 0).Fine) := by
        rw [← infer_isSome_iff, hinfer]
        simp
      refine iff_of_false ?_ fun ⟨hencodes, hserved⟩ =>
        hbad ⟨hencodes, (hserved 0 (by omega) (by omega)).1⟩
      rintro ⟨last, hlast, -⟩
      rw [hnone] at hlast
      cases hlast
    | some got =>
      obtain ⟨result, retryAfter⟩ := got
      obtain ⟨hencodes, hfine⟩ := infer_isSome_iff.mp (by rw [hinfer]; rfl)
      rcases last_cases hinfer with ⟨⟨hretried, hmore⟩, hlast⟩ | ⟨hends, hlast⟩
      · rw [hlast, ih hmore, served_more hfine hretried hmore]
      · rw [hlast, served_once hends]
        simp [hencodes, hfine, writable_infer hinfer]

/-- Attempts that do not raise end the loop. -/
theorem inferLoop_results {results : List InferenceResult} (hpos : attempts ≠ 0)
    (h : up.results request attempts replies = some results) :
    ∃ last, inferLoop attempts results = some last := by
  induction attempts generalizing replies results with
  | zero => exact absurd rfl hpos
  | succ attempts ih =>
    obtain ⟨⟨result, retryAfter⟩, -, h⟩ := Option.bind_eq_some_iff.mp h
    simp only at h
    split_ifs at h with hstop
    · cases h
      exact ⟨result, if_pos (hstop.imp_right .inl)⟩
    · obtain ⟨rest, hrest, h⟩ := Option.bind_eq_some_iff.mp h
      cases h
      unfold inferLoop
      split_ifs with hends
      · exact ⟨result, rfl⟩
      · exact ih (fun hzero => hends (.inr (.inr hzero))) hrest

end Rows

namespace Surroundings

variable {out : Surroundings} {env : Env} {chunk : BatchChunk} {j : Nat} {item : Json}

theorem results_eq_some {results : List InferenceResult}
    (h : out.results env chunk j item = some results) :
    ∃ fields index, item = .obj fields ∧
      itemIndex env.intOfStr chunk.offset item = some index ∧
      out.up.results (out.up.request fields index) 3 (out.replies j) = some results := by
  cases item with
  | obj fields =>
    obtain ⟨index, hindex, h⟩ := Option.bind_eq_some_iff.mp h
    exact ⟨fields, index, rfl, hindex, h⟩
  | _ => cases h

theorem row_obj {fields : List (String × Json)} {index : Int}
    (hindex : itemIndex env.intOfStr chunk.offset (.obj fields) = some index) :
    out.row env chunk j (.obj fields) =
      (out.up.last (out.up.request fields index) 3 (out.replies j)).map (rowOf index) := by
  have hrun (results : List InferenceResult) :
      runOne env.intOfStr chunk.offset .running (.obj fields) results =
        (inferLoop 3 results).map (rowOf index) := by
    rw [runOne, hindex]
    cases inferLoop 3 results <;> rfl
  rw [row, results, hindex, Upstream.last, Option.map_bind]
  exact congrArg _ (funext hrun)

/-- An item whose `run_one` does not raise has a row. -/
theorem exists_row {results : List InferenceResult}
    (h : out.results env chunk j item = some results) :
    ∃ outcome, out.row env chunk j item = some outcome := by
  obtain ⟨fields, index, rfl, hindex, hresults⟩ := results_eq_some h
  obtain ⟨last, hlast⟩ := inferLoop_results (by omega) hresults
  refine ⟨rowOf index last, ?_⟩
  rw [row_obj hindex, Upstream.last, hresults, Option.bind_some, hlast, Option.map_some]

theorem fine_iff : out.Fine env chunk j item ↔
    ∃ outcome, out.row env chunk j item = some outcome ∧
      outcome.writable out.writes = true := by
  constructor
  · rintro ⟨fields, index, rfl, hindex, hencodes, hreplies⟩
    obtain ⟨last, hlast, hwrites⟩ :=
      (last_iff index (by omega)).mpr ⟨hencodes, hreplies⟩
    exact ⟨rowOf index last, by rw [row_obj hindex, hlast, Option.map_some], hwrites⟩
  · rintro ⟨outcome, hrow, hwrites⟩
    obtain ⟨results, hresults, -⟩ := Option.bind_eq_some_iff.mp hrow
    obtain ⟨fields, index, rfl, hindex, -⟩ := results_eq_some hresults
    rw [row_obj hindex] at hrow
    obtain ⟨last, hlast, rfl⟩ := Option.map_eq_some_iff.mp hrow
    exact ⟨fields, index, rfl, hindex, (last_iff index (by omega)).mp ⟨last, hlast, hwrites⟩⟩

end Surroundings

/-! ## The rows of a chunk -/

namespace Surroundings

section Definitions

variable (out : Surroundings) (env : Env) (chunk : BatchChunk) (items : List Json)

def rows : List (Option Outcome) := items.mapIdx (out.row env chunk)

def AllFine : Prop := ∀ j item, items[j]? = some item → out.Fine env chunk j item

end Definitions

variable {out : Surroundings} {env : Env} {chunk : BatchChunk} {items : List Json}

theorem length_rows (out : Surroundings) (env : Env) (chunk : BatchChunk) (items : List Json) :
    (out.rows env chunk items).length = items.length := by
  simp [rows]

theorem getElem?_rows (out : Surroundings) (env : Env) (chunk : BatchChunk) {j : Nat}
    {item : Json} (h : items[j]? = some item) :
    (out.rows env chunk items)[j]? = some (out.row env chunk j item) := by
  simp [rows, h]

theorem any_isCancelled {outcomes : List Outcome}
    (h : outcomes.map some = out.rows env chunk items) :
    outcomes.any (·.isCancelled) = false := by
  rw [List.any_eq_false]
  intro outcome hmem hcancelled
  have hrows : some outcome ∈ out.rows env chunk items := h ▸ List.mem_map_of_mem hmem
  obtain ⟨j, hj, hrow⟩ := List.mem_mapIdx.mp hrows
  obtain ⟨results, -, hrun⟩ := Option.bind_eq_some_iff.mp hrow
  cases (isCancelled_runOne hrun).mp hcancelled

theorem map_some_of_gathered {outcomes : List (Option Outcome)} {all : List Outcome}
    (hrows : List.Forall₂ (fun row o => ∀ x ∈ o, row = some x) (out.rows env chunk items) outcomes)
    (hall : outcomes.mapM id = some all) : all.map some = out.rows env chunk items := by
  rw [eq_map_some hall, List.forall₂_map_right_iff] at hrows
  have heq : List.Forall₂ (· = ·) (out.rows env chunk items) (all.map some) :=
    List.forall₂_map_right_iff.mpr (hrows.imp fun row x h => h x rfl)
  exact (List.forall₂_eq_eq_eq ▸ heq).symm

/-- Where all items have rows, they are fine if and only if the rows can be written. -/
theorem allFine_iff {outcomes : List Outcome}
    (h : outcomes.map some = out.rows env chunk items) : out.AllFine env chunk items ↔
      ∀ row ∈ outcomes, row.writable out.writes = true := by
  have hget (j : Nat) (item : Json) (hitem : items[j]? = some item) :
      ∃ outcome, outcomes[j]? = some outcome ∧ out.row env chunk j item = some outcome := by
    have hrow := getElem?_rows out env chunk hitem
    rw [← h, List.getElem?_map] at hrow
    obtain ⟨outcome, houtcome, hrow⟩ := Option.map_eq_some_iff.mp hrow
    exact ⟨outcome, houtcome, hrow.symm⟩
  constructor
  · intro hfine row hmem
    obtain ⟨j, hj⟩ := List.getElem?_of_mem hmem
    have hlength : outcomes.length = items.length := by
      rw [← length_rows out env chunk, ← h, List.length_map]
    have hlt := (List.getElem?_eq_some_iff.mp hj).1
    have hitem := List.getElem?_eq_getElem (hlength ▸ hlt)
    obtain ⟨outcome, houtcome, hrow⟩ := hget j _ hitem
    obtain ⟨outcome', hrow', hwrites⟩ := fine_iff.mp (hfine j _ hitem)
    obtain rfl := Option.some.inj (hj.symm.trans houtcome)
    obtain rfl := Option.some.inj (hrow.symm.trans hrow')
    exact hwrites
  · intro hwrites j item hitem
    obtain ⟨outcome, houtcome, hrow⟩ := hget j item hitem
    exact fine_iff.mpr ⟨outcome, hrow, hwrites outcome (List.mem_of_getElem? houtcome)⟩

/-- Two chunks with the same items and replies, but for item `k` and the replies to it. -/
structure AlikeBut (k : Nat) (out out' : Surroundings) (env env' : Env) (chunk chunk' : BatchChunk)
    (items items' : List Json) : Prop where
  up : out'.up = out.up
  intOfStr : env'.intOfStr = env.intOfStr
  offset : chunk'.offset = chunk.offset
  items : ∀ j ≠ k, items'[j]? = items[j]?
  replies : ∀ j ≠ k, out'.replies j = out.replies j

theorem AlikeBut.rows {k : Nat} {out out' : Surroundings} {env env' : Env}
    {chunk chunk' : BatchChunk} {items items' : List Json}
    (h : AlikeBut k out out' env env' chunk chunk' items items') {j : Nat} (hj : j ≠ k) :
    (out'.rows env' chunk' items')[j]? = (out.rows env chunk items)[j]? := by
  have hresults (item : Json) : out'.results env' chunk' j item = out.results env chunk j item := by
    cases item <;> simp [results, h.up, h.intOfStr, h.offset, h.replies j hj]
  have hrow : out'.row env' chunk' j = out.row env chunk j := by
    funext item
    rw [row, row, hresults, h.intOfStr, h.offset]
  simp [Surroundings.rows, h.items j hj, hrow]

end Surroundings

end BatchInference
