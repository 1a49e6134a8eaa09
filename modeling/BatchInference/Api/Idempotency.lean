import BatchInference.Api.Routes

/-!
# Creates with one Idempotency-Key

Each valid request whose lookup finds no row ends as a row or as a 500. These requests,
counted together with the row that may have been there before, are what decides: the unique
constraint lets one row be, so that all valid requests are answered with its id if and only
if the count is one (`one_batch_iff`). The lookup of a second one must come after the first
commit, and it must be made: an empty key is stored, but not looked up.
-/

namespace BatchInference.Endpoints

open JobPool System

/-- The rows with the key. -/
def keyed (key : String) (rows : List NewBatch) : Nat :=
  rows.countP fun row => row.idempotencyKey = some key

variable {key : String} {rows : List NewBatch} {t t' : Table} {r : Request} {pc pc' : Pc}
  {batch : NewBatch}

theorem idempotencyKey_of_build (h : (r.createRequest key).build r.w = .ok batch) :
    batch.idempotencyKey = some key := by
  obtain ⟨prompts, total, -, -, rfl⟩ := build_ok h
  exact idempotencyKey_createRequest key r

theorem clashes_iff (h : batch.idempotencyKey = some key) (rows : List NewBatch) :
    batch.clashes rows = true ↔ 0 < keyed key rows := by
  simp [NewBatch.clashes, keyed, h, List.countP_pos_iff]

@[simp] theorem keyed_nil : keyed key [] = 0 := rfl

theorem keyed_append (rows rows' : List NewBatch) :
    keyed key (rows ++ rows') = keyed key rows + keyed key rows' := List.countP_append

theorem keyed_singleton (batch : NewBatch) :
    keyed key [batch] = if batch.idempotencyKey = some key then 1 else 0 := by
  simp [keyed, List.countP_cons]

theorem Request.valid_iff : r.valid key = true ↔ r.refusal = none ∧ r.choiceFits = true ∧
    ∃ batch, (r.createRequest key).build r.w = .ok batch ∧ batch.fits = true := by
  have hcreate : (createBatch r.w [] (r.createRequest key)).toOption.isSome = true ↔
      ∃ batch, (r.createRequest key).build r.w = .ok batch ∧ batch.fits = true := by
    rw [createBatch, findExisting_nil]
    cases hbuild : (r.createRequest key).build r.w with
    | error exc => simp [Bind.bind, Except.bind, Except.toOption]
    | ok batch =>
      have hclashes : batch.clashes [] = false := by simp [NewBatch.clashes]
      rcases insert_cases batch [] with ⟨hinsert, hfits, -⟩ | ⟨name, hinsert, hfits⟩
      · simp [hinsert, hfits, Bind.bind, Except.bind, Pure.pure, Except.pure, Except.toOption]
      · rw [hclashes] at hfits
        simp [hinsert, hfits.resolve_right (by simp), Bind.bind, Except.bind, Except.toOption]
  simp [valid, hcreate, and_assoc]

theorem valid_of_refusal {answer : Answer} (h : r.refusal = some answer) :
    r.valid key = false := by
  simp [Request.valid, h]

theorem valid_of_raised {exc : PyError} (h : (r.createRequest key).build r.w = .error exc) :
    r.valid key = false := by
  by_contra hvalid
  obtain ⟨-, -, batch, hbuilt, -⟩ := Request.valid_iff.mp (eq_true_of_ne_false hvalid)
  simp [hbuilt] at h

/-! ## Steps -/

/-- What one statement of a request does. -/
inductive Goes (key : String) (t : Table) (r : Request) : Pc → Table → Pc → Prop where
  | refused {answer : Answer} (h : r.refusal = some answer) :
      Goes key t r .received t (.answered answer)
  | found {existing : NewBatch} (h : findExisting t.rows (some key) = some existing) :
      Goes key t r .received t (.found existing)
  | notFound (admitted : r.refusal = none) (h : findExisting t.rows (some key) = none) :
      Goes key t r .received t .notFound
  | raised {exc : PyError} (h : (r.createRequest key).build r.w = .error exc) :
      Goes key t r .notFound t (.answered (answerOf exc))
  | built {batch : NewBatch} (h : (r.createRequest key).build r.w = .ok batch) :
      Goes key t r .notFound t (.built batch)
  | fails {batch : NewBatch}
      (h : r.choiceFits = false ∨ batch.fits = false ∨ batch.clashes t.rows = true) :
      Goes key t r (.built batch) t (.answered .serverError)
  | inserted {batch : NewBatch} (choice : r.choiceFits = true) (fits : batch.fits = true)
      (rows : batch.clashes t.rows = false)
      (uncommitted : batch.clashes t.uncommitted.toList = false) :
      Goes key t r (.built batch) { t with uncommitted := some batch } (.inserted batch)
  | committed {batch : NewBatch} :
      Goes key t r (.inserted batch) { rows := t.rows ++ [batch] }
        (.answered (.accepted batch.id))
  | returned {existing : NewBatch} :
      Goes key t r (.found existing) t (.answered (.accepted existing.id))

theorem goes_of_step (h : step key t r pc = some (t', pc')) : Goes key t r pc t' pc' := by
  cases pc with
  | received =>
    simp only [step, idempotencyKey_createRequest] at h
    split at h
    · cases h; exact .refused ‹_›
    · split at h
      · cases h; exact .found ‹_›
      · cases h; exact .notFound ‹_› ‹_›
  | notFound =>
    simp only [step] at h
    split at h
    · cases h; exact .raised ‹_›
    · cases h; exact .built ‹_›
  | built batch =>
    simp only [step] at h
    split at h
    · rename_i hchoice
      cases h
      exact .fails (.inl (by simpa using hchoice))
    · rename_i hchoice
      rcases insert_cases batch t.rows with ⟨hinsert, hfits, hrows⟩ | ⟨name, hinsert, hfails⟩
      · rw [hinsert] at h
        dsimp only at h
        split at h
        · cases h
        · rename_i huncommitted
          cases h
          exact .inserted (by simpa using hchoice) hfits hrows (by simpa using huncommitted)
      · rw [hinsert] at h
        cases h
        exact .fails (.inr hfails)
  | inserted batch => cases h; exact .committed
  | found existing => cases h; exact .returned
  | answered answer => cases h

/-- A move is a request's next statement, or it adds a request or a row without the key. -/
theorem fire_cases {v v' : World Table Call} {m : Moves}
    (h : (endpoints key).fire v m = some v') :
    (∃ i r pc pc', m = .act i () ∧ v.pool[i]? = some ⟨r, pc⟩ ∧
      Goes key v.shared r pc v'.shared pc' ∧ v'.pool = others v i ++ [⟨r, pc'⟩]) ∨
    ∃ (rows : List NewBatch) (requests : List Request), (∃ e, m = .env e) ∧
      v'.shared = { v.shared with rows := v.shared.rows ++ rows } ∧ keyed key rows = 0 ∧
      v'.pool = v.pool ++ requests.map (⟨·, .received⟩) := by
  cases m with
  | act i c =>
    obtain ⟨call, ⟨t, calls⟩, hcall, hs, rfl⟩ := fire_act_iff.mp h
    obtain ⟨⟨t', pc'⟩, hstep, hr⟩ := Option.map_eq_some_iff.mp hs
    cases hr
    exact .inl ⟨i, call.request, call.pc, pc', rfl, hcall, goes_of_step hstep, rfl⟩
  | env e =>
    obtain ⟨⟨t, calls⟩, he, rfl⟩ := fire_env_iff.mp h
    right
    cases e with
    | arrive r => cases he; exact ⟨[], [r], ⟨_, rfl⟩, by simp, rfl, rfl⟩
    | other batch =>
      simp only [endpoints] at he
      split at he
      · cases he
      · rename_i hkey
        cases he
        exact ⟨[batch], [], ⟨_, rfl⟩, rfl, by simp [keyed_singleton, hkey], rfl⟩

/-! ## What holds of every request -/

def Call.Ok (key : String) (t : Table) (c : Call) : Prop :=
  match c.pc with
  | .received => True
  | .notFound => c.request.refusal = none
  | .built batch =>
    c.request.refusal = none ∧ (c.request.createRequest key).build c.request.w = .ok batch
  | .inserted batch => c.request.valid key = true ∧ batch.idempotencyKey = some key
  | .found existing => existing ∈ t.rows ∧ existing.idempotencyKey = some key
  | .answered answer =>
    (∀ id, answer = .accepted id → ∃ row ∈ t.rows, row.idempotencyKey = some key ∧ row.id = id) ∧
    (c.request.valid key = true → answer.isAccepted = false → 0 < keyed key t.rows)

theorem keyed_pos_iff : 0 < keyed key rows ↔ ∃ row ∈ rows, row.idempotencyKey = some key := by
  simp [keyed, List.countP_pos_iff]

theorem Call.Ok.mono {c : Call} (h : c.Ok key t) (hrows : t.rows ⊆ t'.rows) : c.Ok key t' := by
  obtain ⟨r, pc⟩ := c
  cases pc with
  | found existing => exact ⟨hrows h.1, h.2⟩
  | answered answer =>
    refine ⟨fun id hid => ?_, fun hvalid hanswer => ?_⟩
    · obtain ⟨row, hrow, hkey⟩ := h.1 id hid
      exact ⟨row, hrows hrow, hkey⟩
    · obtain ⟨row, hrow, hkey⟩ := keyed_pos_iff.mp (h.2 hvalid hanswer)
      exact keyed_pos_iff.mpr ⟨row, hrows hrow, hkey⟩
  | _ => exact h

theorem isAccepted_of_refusal {answer : Answer} (h : r.refusal = some answer) :
    answer.isAccepted = false := by
  unfold Request.refusal at h
  split at h <;> split at h <;> cases h <;> rfl

theorem isAccepted_answerOf (exc : PyError) : (answerOf exc).isAccepted = false := by
  unfold answerOf
  split <;> rfl

/-- A request that is not answered 202 is not valid, or there is a row. -/
theorem Call.Ok.of_refused {answer : Answer} (hanswer : answer.isAccepted = false)
    (h : r.valid key = true → 0 < keyed key t.rows) : Call.Ok key t ⟨r, .answered answer⟩ := by
  refine ⟨fun id hid => ?_, fun hvalid _ => h hvalid⟩
  simp [hid, Answer.isAccepted] at hanswer

theorem Goes.ok (h : Goes key t r pc t' pc') (hok : Call.Ok key t ⟨r, pc⟩) :
    Call.Ok key t' ⟨r, pc'⟩ := by
  cases h with
  | refused hrefused =>
    refine .of_refused (isAccepted_of_refusal hrefused) fun hvalid => ?_
    simp [valid_of_refusal hrefused] at hvalid
  | found hfound => exact findExisting_some hfound
  | notFound hadmitted => exact hadmitted
  | @raised exc hraised =>
    refine .of_refused (isAccepted_answerOf exc) fun hvalid => ?_
    simp [valid_of_raised hraised] at hvalid
  | built hbuilt => exact ⟨hok, hbuilt⟩
  | @fails batch hfails =>
    refine .of_refused rfl fun hvalid => ?_
    obtain ⟨-, hchoice, batch', hbuilt, hfits⟩ := Request.valid_iff.mp hvalid
    obtain rfl : batch = batch' := Except.ok.inj (hok.2.symm.trans hbuilt)
    have hclashes : batch.clashes t.rows = true := by simpa [hchoice, hfits] using hfails
    exact (clashes_iff (idempotencyKey_of_build hbuilt) _).mp hclashes
  | @inserted batch hchoice hfits =>
    exact ⟨Request.valid_iff.mpr ⟨hok.1, hchoice, batch, hok.2, hfits⟩,
      idempotencyKey_of_build hok.2⟩
  | @committed batch =>
    exact ⟨fun id hid => ⟨batch, by simp, hok.2, Answer.accepted.inj hid⟩, nofun⟩
  | @returned existing =>
    exact ⟨fun id hid => ⟨existing, hok.1, hok.2, Answer.accepted.inj hid⟩, nofun⟩

theorem Goes.subset (h : Goes key t r pc t' pc') : t.rows ⊆ t'.rows := by
  cases h with
  | committed => exact List.subset_append_left _ _
  | _ => exact List.Subset.refl _

/-- An INSERT goes through where no row has the key, committed or not. -/
theorem Goes.unique (h : Goes key t r pc t' pc') (hok : Call.Ok key t ⟨r, pc⟩)
    (hunique : keyed key t.rows + keyed key t.uncommitted.toList ≤ 1)
    (hwriter : pc.isInserted = true → 0 < keyed key t.uncommitted.toList) :
    keyed key t'.rows + keyed key t'.uncommitted.toList ≤ 1 ∧
      keyed key t'.uncommitted.toList + pc.isInserted.toNat =
        keyed key t.uncommitted.toList + pc'.isInserted.toNat := by
  cases h with
  | @inserted batch hchoice hfits hrows huncommitted =>
    have hkey := idempotencyKey_of_build hok.2
    have hrows : ¬ 0 < keyed key t.rows := by rw [← clashes_iff hkey, hrows]; simp
    have huncommitted : ¬ 0 < keyed key t.uncommitted.toList := by
      rw [← clashes_iff hkey, huncommitted]; simp
    simp only [Option.toList_some, keyed_singleton, hkey, if_true, Pc.isInserted,
      Bool.toNat_true, Bool.toNat_false]
    omega
  | @committed batch =>
    simp only [Option.toList_none, keyed_nil, keyed_append, keyed_singleton, hok.2, if_true,
      Pc.isInserted, Bool.toNat_true, Bool.toNat_false, forall_const] at hwriter ⊢
    omega
  | _ => exact ⟨hunique, rfl⟩

/-- The unique constraint, and what the INSERTs know of each other. -/
structure Sound (key : String) (w : World Table Call) : Prop where
  calls : ∀ c ∈ w.pool, c.Ok key w.shared
  unique : keyed key w.shared.rows + keyed key w.shared.uncommitted.toList ≤ 1
  writer : w.pool.countP (·.pc.isInserted) = keyed key w.shared.uncommitted.toList

variable {v v' w : World Table Call} {m : Moves} {ok : World Table Call → Moves → Prop}

theorem Sound.fire (h : Sound key v) (hf : (endpoints key).fire v m = some v') :
    Sound key v' := by
  rcases fire_cases hf with ⟨i, r, pc, pc', rfl, hcall, hgoes, hpool⟩ |
    ⟨rows, requests, -, hshared, hrows, hpool⟩
  · have hok := h.calls _ (List.mem_of_getElem? hcall)
    have hwriter := h.writer
    have hpos (hi : pc.isInserted = true) : 0 < keyed key v.shared.uncommitted.toList :=
      hwriter ▸ List.countP_pos_iff.mpr ⟨_, List.mem_of_getElem? hcall, hi⟩
    have hcount := countP_replace hcall ⟨r, pc'⟩ (·.pc.isInserted)
    obtain ⟨hunique, hbalance⟩ := hgoes.unique hok h.unique hpos
    refine ⟨?_, hunique, ?_⟩
    · rw [hpool]
      intro c hc
      rcases List.mem_append.mp hc with hc | hc
      · exact (h.calls c (mem_of_mem_others hc)).mono hgoes.subset
      · obtain rfl := List.mem_singleton.mp hc
        exact hgoes.ok hok
    · dsimp only at hcount
      rw [hpool]
      omega
  · refine ⟨?_, ?_, ?_⟩
    · rw [hpool, hshared]
      intro c hc
      rcases List.mem_append.mp hc with hc | hc
      · exact (h.calls c hc).mono (List.subset_append_left _ _)
      · obtain ⟨r, -, rfl⟩ := List.mem_map.mp hc
        trivial
    · rw [hshared, keyed_append, hrows]
      exact h.unique
    · have hnew : (requests.map (⟨·, Pc.received⟩ : Request → Call)).countP
          (·.pc.isInserted) = 0 := by
        simp [List.countP_eq_zero, Pc.isInserted]
      rw [hpool, hshared, List.countP_append, hnew]
      exact h.writer

theorem sound_start (h₀ : keyed key rows ≤ 1) : Sound key (start rows) :=
  ⟨by simp [start], by simpa [start] using h₀, rfl⟩

theorem sound_of_reach (h₀ : keyed key rows ≤ 1)
    (h : (endpoints key).Reach ok (start rows) w) : Sound key w :=
  Reach.invariant (A := fun _ => True) (fun _ _ => trivial) (sound_start h₀)
    (fun _ _ _ _ hv _ hf => hv.fire hf) h

/-! ## Stakes -/

/-- A valid request that has found no row, and is not answered yet. -/
def Call.underWay (key : String) (c : Call) : Bool :=
  c.request.valid key && match c.pc with
    | .notFound | .built _ | .inserted _ => true
    | _ => false

/-- A valid request that has found no row, as long as it has not become one. -/
def Call.stakes (key : String) (c : Call) : Bool :=
  c.underWay key || c.request.valid key && match c.pc with
    | .answered answer => !answer.isAccepted
    | _ => false

/-- A valid request that is about to find no row. -/
def Call.misses (key : String) (t : Table) (c : Call) : Bool :=
  c.request.valid key && c.pc.isReceived && (findExisting t.rows (some key)).isNone

def stakes (key : String) (w : World Table Call) : Nat :=
  keyed key w.shared.rows + w.pool.countP (·.stakes key)

def misses (key : String) (w : World Table Call) : Moves → Bool
  | .act i _ => w.pool[i]?.any (·.misses key w.shared)
  | .env _ => false

theorem Goes.stakes (h : Goes key t r pc t' pc') (hok : Call.Ok key t ⟨r, pc⟩) :
    keyed key t'.rows + (Call.stakes key ⟨r, pc'⟩).toNat =
      keyed key t.rows + (Call.stakes key ⟨r, pc⟩).toNat + (Call.misses key t ⟨r, pc⟩).toNat := by
  cases h with
  | refused hrefused =>
    simp [Call.stakes, Call.underWay, Call.misses, valid_of_refusal hrefused]
  | raised hraised =>
    simp [Call.stakes, Call.underWay, Call.misses, valid_of_raised hraised]
  | @committed batch =>
    simp [Call.stakes, Call.underWay, Call.misses, Pc.isReceived, Answer.isAccepted,
      keyed_append, keyed_singleton, hok.1, hok.2]
  | found h => simp [Call.stakes, Call.underWay, Call.misses, h]
  | notFound _ h => simp [Call.stakes, Call.underWay, Call.misses, Pc.isReceived, h]
  | fails | built | inserted | returned =>
    simp [Call.stakes, Call.underWay, Call.misses, Pc.isReceived, Answer.isAccepted]

/-- Only a request that misses adds to the stakes, and nothing takes from them. -/
theorem stakes_of_fire (h : Sound key v) (hf : (endpoints key).fire v m = some v') :
    stakes key v' = stakes key v + (misses key v m).toNat := by
  rcases fire_cases hf with ⟨i, r, pc, pc', rfl, hcall, hgoes, hpool⟩ |
    ⟨rows, requests, ⟨e, rfl⟩, hshared, hrows, hpool⟩
  · have hstakes := hgoes.stakes (h.calls _ (List.mem_of_getElem? hcall))
    have hcount := countP_replace hcall ⟨r, pc'⟩ (·.stakes key)
    have hmisses : misses key v (.act i ()) = Call.misses key v.shared ⟨r, pc⟩ := by
      simp [misses, hcall]
    rw [stakes, stakes, hpool, hmisses]
    omega
  · have hnew : (requests.map (⟨·, Pc.received⟩ : Request → Call)).countP (·.stakes key) = 0 := by
      simp [List.countP_eq_zero, Call.stakes, Call.underWay]
    simp only [stakes, misses, hpool, hshared, List.countP_append, keyed_append, hrows, hnew]
    rfl

/-- Without stakes there is no row and nobody on the way to one: who fails has met a row. -/
theorem stakes_eq_zero_iff (h : Sound key v) : stakes key v = 0 ↔
    keyed key v.shared.rows = 0 ∧ ∀ c ∈ v.pool, c.underWay key = false := by
  rw [stakes, Nat.add_eq_zero_iff, List.countP_eq_zero]
  refine and_congr_right fun hrows => forall₂_congr fun c hc => ?_
  refine ⟨fun hnot => ?_, fun hnot hstakes => ?_⟩
  · simp only [Call.stakes, Bool.or_eq_true, not_or] at hnot
    exact eq_false_of_ne_true hnot.1
  · obtain ⟨r, pc⟩ := c
    simp only [Call.stakes, hnot, Bool.false_or, Bool.and_eq_true] at hstakes
    obtain ⟨hvalid, hpc⟩ := hstakes
    cases pc with
    | answered answer =>
      have hpos := (h.calls _ hc).2 hvalid (by simpa using hpc)
      omega
    | _ => cases hpc

/-! ## Afterwards -/

/-- A valid request that finds no row finds none with the key, committed or on its way. -/
def MissesAlone (key : String) (v : World Table Call) (m : Moves) : Prop :=
  misses key v m = true →
    keyed key v.shared.rows = 0 ∧ ∀ c ∈ v.pool, c.underWay key = false

instance : DecidableRel (MissesAlone key) := fun v m =>
  inferInstanceAs (Decidable (misses key v m = true → _))

/-- One row has the key, and its id is the answer to every valid request. -/
def OneBatch (key : String) (w : World Table Call) : Prop :=
  ∃ row, w.shared.rows.filter (·.idempotencyKey = some key) = [row] ∧
    ∀ c ∈ w.pool, c.request.valid key = true → c.pc = .answered (.accepted row.id)

theorem oneBatch_iff_stakes (h : Sound key w)
    (hdone : ∀ c ∈ w.pool, ∃ answer, c.pc = .answered answer) :
    OneBatch key w ↔ 0 < keyed key w.shared.rows ∧ stakes key w ≤ 1 := by
  constructor
  · rintro ⟨row, hrows, hall⟩
    have hone : keyed key w.shared.rows = 1 := by
      rw [keyed, List.countP_eq_length_filter, hrows, List.length_singleton]
    have hnone : w.pool.countP (·.stakes key) = 0 := by
      refine List.countP_eq_zero.mpr fun c hc hstakes => ?_
      obtain ⟨answer, hanswer⟩ := hdone c hc
      simp only [Call.stakes, Call.underWay, hanswer, Bool.and_false, Bool.false_or,
        Bool.and_eq_true] at hstakes
      obtain rfl := Pc.answered.inj (hanswer.symm.trans (hall c hc hstakes.1))
      simp [Answer.isAccepted] at hstakes
    exact ⟨by omega, by rw [stakes, hone, hnone]⟩
  · rintro ⟨hpos, hstakes⟩
    rw [stakes] at hstakes
    have hone : keyed key w.shared.rows = 1 := by omega
    rw [keyed, List.countP_eq_length_filter] at hone
    obtain ⟨row, hrows⟩ := List.length_eq_one_iff.mp hone
    have hnone : w.pool.countP (·.stakes key) = 0 := by omega
    refine ⟨row, hrows, fun c hc hvalid => ?_⟩
    obtain ⟨answer, hanswer⟩ := hdone c hc
    have hnot := List.countP_eq_zero.mp hnone c hc
    have hok := h.calls c hc
    simp only [Call.Ok, hanswer] at hok
    cases answer with
    | accepted id =>
      obtain ⟨row', hrow', hkey, rfl⟩ := hok.1 id rfl
      have hmem : row' ∈ w.shared.rows.filter (·.idempotencyKey = some key) :=
        List.mem_filter.mpr ⟨hrow', by simpa using hkey⟩
      rw [hrows, List.mem_singleton] at hmem
      rw [hanswer, hmem]
    | _ => simp [Call.stakes, hvalid, hanswer, Answer.isAccepted] at hnot

theorem rows_of_reach (h : (endpoints key).Reach ok (start rows) w) :
    rows ⊆ w.shared.rows := by
  refine Reach.invariant (A := fun _ => True) (P := fun w => rows ⊆ w.shared.rows)
    (fun _ _ => trivial) (List.Subset.refl _) ?_ h
  intro v m v' _ hv _ hf
  rcases fire_cases hf with ⟨i, r, pc, pc', -, -, hgoes, -⟩ | ⟨rows', -, -, hshared, -⟩
  · exact List.Subset.trans hv hgoes.subset
  · rw [hshared]
    exact List.Subset.trans hv (List.subset_append_left _ _)

/-- Requests stay in the pool. -/
theorem valid_of_fire (hf : (endpoints key).fire v m = some v')
    (h : ∃ c ∈ v.pool, c.request.valid key = true) :
    ∃ c ∈ v'.pool, c.request.valid key = true := by
  obtain ⟨c, hc, hvalid⟩ := h
  rcases fire_cases hf with ⟨i, r, pc, pc', -, hcall, -, hpool⟩ | ⟨-, requests, -, -, -, hpool⟩
  · rw [hpool]
    rcases (mem_iff_others hcall c).mp hc with rfl | hc
    · exact ⟨⟨r, pc'⟩, by simp, hvalid⟩
    · exact ⟨c, List.mem_append_left _ hc, hvalid⟩
  · exact ⟨c, hpool ▸ List.mem_append_left _ hc, hvalid⟩

/-- Only valid requests add to the stakes. -/
theorem valid_of_reach (h₀ : keyed key rows ≤ 1)
    (h : (endpoints key).Reach ok (start rows) w) :
    stakes key w = keyed key rows ∨ ∃ c ∈ w.pool, c.request.valid key = true := by
  refine Reach.invariant
    (P := fun w => stakes key w = keyed key rows ∨ ∃ c ∈ w.pool, c.request.valid key = true)
    (fun _ => sound_of_reach h₀) (.inl (by simp [stakes, start])) ?_ h
  rintro v m v' hsound (hv | hv) _ hf
  · cases hmisses : misses key v m with
    | false => exact .inl (by simpa [hmisses, hv] using stakes_of_fire hsound hf)
    | true =>
      refine .inr (valid_of_fire hf ?_)
      cases m with
      | act i c =>
        obtain ⟨call, hcall, hcallmisses⟩ := (Option.any_eq_true _ _).mp hmisses
        simp only [Call.misses, Bool.and_eq_true] at hcallmisses
        exact ⟨call, List.mem_of_getElem? hcall, hcallmisses.1.1⟩
      | env => cases hmisses
  · exact .inr (valid_of_fire hf hv)

theorem keyed_pos_of_done (hsound : Sound key w) {c : Call} (hc : c ∈ w.pool)
    (hvalid : c.request.valid key = true) (hdone : ∃ answer, c.pc = .answered answer) :
    0 < keyed key w.shared.rows := by
  obtain ⟨answer, hanswer⟩ := hdone
  have hok := hsound.calls c hc
  simp only [Call.Ok, hanswer] at hok
  cases answer with
  | accepted id =>
    obtain ⟨row, hrow, hkey, -⟩ := hok.1 id rfl
    exact keyed_pos_iff.mpr ⟨row, hrow, hkey⟩
  | _ => exact hok.2 hvalid rfl

theorem one_batch_iff {ms : List Moves} (h₀ : keyed key rows ≤ 1)
    (hrun : (endpoints key).run (fun _ _ => True) (start rows) ms = some w)
    (hdone : ∀ c ∈ w.pool, ∃ answer, c.pc = .answered answer) :
    OneBatch key w ↔
      (0 < keyed key rows ∨ ∃ c ∈ w.pool, c.request.valid key = true) ∧
        (endpoints key).Along (fun v m _ => MissesAlone key v m) (start rows) ms := by
  have hsound := sound_of_reach h₀ (.of_run hrun)
  have hpos : 0 < keyed key w.shared.rows ↔
      0 < keyed key rows ∨ ∃ c ∈ w.pool, c.request.valid key = true := by
    constructor
    · intro hpos
      refine (valid_of_reach h₀ (.of_run hrun)).imp_left fun hstakes => ?_
      rw [stakes] at hstakes
      omega
    · rintro (hrows | ⟨c, hc, hvalid⟩)
      · obtain ⟨row, hrow, hkey⟩ := keyed_pos_iff.mp hrows
        exact keyed_pos_iff.mpr ⟨row, rows_of_reach (.of_run hrun) hrow, hkey⟩
      · exact keyed_pos_of_done hsound hc hvalid (hdone c hc)
  rw [oneBatch_iff_stakes hsound hdone, hpos]
  refine and_congr_right fun _ => ⟨fun hstakes => ?_, fun halone => ?_⟩
  · have hany : (endpoints key).Along (fun _ _ _ => True) (start rows) ms :=
      .of_forall fun _ _ _ => trivial
    refine hany.of_trap (A := Sound key) (Q := fun v => 2 ≤ stakes key v ∧ Sound key v) hrun
      (sound_start h₀) (fun v m v' hv _ hf => hv.fire hf) ?_ ?_ (by omega)
    · intro v m v' hv _ hnot hf
      simp only [MissesAlone, ← stakes_eq_zero_iff hv, Classical.not_imp] at hnot
      have := stakes_of_fire hv hf
      rw [hnot.1] at this
      exact ⟨by simp at this; omega, hv.fire hf⟩
    · rintro v m v' ⟨hv, hs⟩ _ hf
      exact ⟨by rw [stakes_of_fire hs hf]; omega, hs.fire hf⟩
  · refine (halone.invariant (A := fun v => stakes key v ≤ 1 ∧ Sound key v) hrun
      ⟨by simpa [stakes, start] using h₀, sound_start h₀⟩ ?_).1
    rintro v m v' ⟨hv, hs⟩ hm hf
    refine ⟨?_, hs.fire hf⟩
    rw [stakes_of_fire hs hf]
    cases hmisses : misses key v m with
    | false => simpa [hmisses] using hv
    | true =>
      have := (stakes_eq_zero_iff hs).mpr (hm hmisses)
      simp [this]

/-- A file with two lines of text. -/
def uploaded : Request where
  body := .upload { file := [97, 10, 98] }
  w := plainText
  provider := "mock"
  model := "mock-1"

/-- The same as JSON, with an id of its own. -/
def posted : Request where
  body := .json { prompts := some [.str "a", .str "b"] }
  w := { plainText with batchId := "02" }
  provider := "mock"
  model := "mock-1"

/-- The upload is answered before the other request looks up. -/
def inOrder : List Moves :=
  [.env (.arrive uploaded)] ++ List.replicate 4 (.act 0 ()) ++ [.env (.arrive posted)]

/-- The request, its validity and its answer. -/
def Call.outcome (key : String) (c : Call) : Bool × Option Answer :=
  (c.request.valid key, c.pc.answer)

theorem one_batch_iff_inOrder : ∃ w,
    (endpoints "demo-1").run (fun _ _ => True) (start [])
      (inOrder ++ List.replicate 2 (.act 1 ())) = some w ∧
    w.pool.map (·.outcome "demo-1") =
      [(true, some (.accepted "01")), (true, some (.accepted "01"))] ∧
    OneBatch "demo-1" w := by
  have hrun : ((endpoints "demo-1").run (fun _ _ => True) (start [])
      (inOrder ++ List.replicate 2 (.act 1 ()))).map (fun w => w.pool.map (·.outcome "demo-1")) =
      some [(true, some (.accepted "01")), (true, some (.accepted "01"))] := by decide +kernel
  have halone : ((endpoints "demo-1").run (MissesAlone "demo-1") (start [])
      (inOrder ++ List.replicate 2 (.act 1 ()))).isSome := by decide +kernel
  obtain ⟨w, hw, hseen⟩ := Option.map_eq_some_iff.mp hrun
  obtain ⟨v, hv⟩ := Option.isSome_iff_exists.mp halone
  obtain ⟨c, calls, hpool, hc, -⟩ := List.map_eq_cons_iff.mp hseen
  have hdone : ∀ c ∈ w.pool, ∃ answer, c.pc = .answered answer := by
    intro c hc
    have hmem : c.outcome "demo-1" ∈ w.pool.map (·.outcome "demo-1") := List.mem_map_of_mem hc
    rw [hseen] at hmem
    obtain ⟨r, pc⟩ := c
    cases pc with
    | answered answer => exact ⟨answer, rfl⟩
    | _ => simp [Call.outcome, Pc.answer] at hmem
  refine ⟨w, hw, hseen, (one_batch_iff (by simp) hw hdone).mpr ⟨.inr ⟨c, ?_, ?_⟩, .of_run hv⟩⟩
  · simp [hpool]
  · exact congrArg Prod.fst hc

/-- Both look up before the first commit. -/
def bothFirst : List Moves :=
  [.env (.arrive uploaded), .env (.arrive posted), .act 0 (), .act 0 (), .act 0 (), .act 1 (),
    .act 1 (), .act 0 (), .act 1 ()]

theorem second_create_fails :
    ((endpoints "demo-1").run (fun _ _ => True) (start []) bothFirst).map
      (fun w => w.pool.map (·.outcome "demo-1")) =
        some [(true, some (.accepted "01")), (true, some .serverError)] ∧
    ((endpoints "").run (fun _ _ => True) (start [])
      (inOrder ++ List.replicate 3 (.act 1 ()))).map (fun w => w.pool.map (·.outcome "")) =
        some [(true, some (.accepted "01")), (true, some .serverError)] := by
  constructor <;> decide +kernel

end BatchInference.Endpoints
