import BatchInference.Providers.Mock
import BatchInference.Workers.Isolation
import BatchInference.Workers.Indexes

/-!
# What the results are

A provider whose result depends on the request only leaves nothing of the run in the results: a
chunk's checkpoint is the same whichever worker puts it and however often, and the results
object is a function of the prompts and the plan. Where the items bring their indexes the plan
does not matter either.
-/

namespace BatchInference

open JobPool

/-- A provider whose result depends on the request only. -/
structure Responder where
  up : Upstream
  infer : InferenceRequest → InferenceResult

namespace Responder

section Definitions

variable (p : Responder) (env : Env)

/-- The row of an item of a chunk at `offset`; `none` where `run_one` raises. -/
def row (offset : Int) : Json → Option Outcome
  | .obj fields => (itemIndex env.intOfStr offset (.obj fields)).map fun index =>
    rowOf index (p.infer (p.up.request fields index))
  | _ => none

/-- The checkpoint of a chunk. -/
def segment (entry : Nat × Int × Int) : Option (List Outcome) := do
  let items ← readLineRange env.loads (env.reads env.spec.prompts) entry.2.1 entry.2.2
  let rows ← items.mapM (p.row env entry.2.1)
  return sortResults rows

def results : Option (List Outcome) := (env.plan.mapM (p.segment env)).map List.flatten

/-- The replies that a job gets are what the provider makes of the item's request. -/
def Replies (frame : Frame) : Choice → Prop
  | .reply item replies => ∀ i deferBy chunk items seen outcomes fields index,
    frame = .processChunk i deferBy (.body chunk (.gathering items seen outcomes)) →
    items[item]? = some (.obj fields) →
    itemIndex env.intOfStr chunk.offset (.obj fields) = some index →
    ∀ result ∈ replies, result = p.infer (p.up.request fields index)
  | _ => True

def Answers (w : World Shared Frame) : Moves → Prop
  | .act k c => ∀ frame ∈ w.pool[k]?, p.Replies env frame c
  | .env _ => True

/-- What is stored is what the provider makes of the prompts. -/
structure Stored (s : Shared) : Prop where
  segment : ∀ {i rows}, s.store.rows (.chunk i) = some rows →
    ∃ entry, env.plan[i]? = some entry ∧ p.segment env entry = some rows
  results : ∀ {rows}, s.store.rows .results = some rows → p.results env = some rows

/-- What a job has got so far is part of that. -/
def Holds : Frame → Prop
  | .processChunk _ _ (.body chunk (.gathering items _ outcomes)) =>
    List.Forall₂ (fun item o => ∀ x ∈ o, x.isCancelled = true ∨
      p.row env chunk.offset item = some x) items outcomes
  | .processChunk _ _ (.body chunk (.writing rows)) => p.segment env chunk.place = some rows
  | .finalizeBatch (.gathering _ keys parts) => ∃ done rest, env.plan = done ++ rest ∧
    keys = rest.map (fun entry => .chunk entry.1) ∧ done.mapM (p.segment env) = some parts
  | _ => True

end Definitions

variable {p : Responder} {env : Env} {now : Int} {s : Shared} {frame : Frame} {c : Choice}
  {e : Effect Frame} {w : World Shared Frame}

/-! ## One item -/

theorem mem_of_inferLoop {attempts : Nat} {replies : List InferenceResult}
    {last : InferenceResult} (h : inferLoop attempts replies = some last) : last ∈ replies := by
  induction attempts generalizing replies with
  | zero => cases h
  | succ attempts ih =>
    cases replies with
    | nil => cases h
    | cons first replies =>
      rw [inferLoop] at h
      split at h
      · cases h
        exact List.mem_cons_self
      · exact List.mem_cons_of_mem _ (ih h)

/-- Tried again or not, the item ends with the provider's result for it. -/
theorem row_of_runOne {offset : Int} {status : BatchStatus} {item : Json}
    {replies : List InferenceResult} {outcome : Outcome}
    (h : runOne env.intOfStr offset status item replies = some outcome)
    (hreplies : ∀ fields index, item = .obj fields →
      itemIndex env.intOfStr offset (.obj fields) = some index →
      ∀ result ∈ replies, result = p.infer (p.up.request fields index)) :
    outcome.isCancelled = true ∨ p.row env offset item = some outcome := by
  obtain ⟨index, hindex, h⟩ := Option.bind_eq_some_iff.mp h
  by_cases hs : status = .cancelled
  · rw [if_pos hs] at h
    cases h
    exact .inl rfl
  · rw [if_neg hs] at h
    obtain ⟨last, hlast, h⟩ := Option.bind_eq_some_iff.mp h
    cases item with
    | obj fields =>
      right
      obtain rfl := hreplies fields index rfl hindex last (mem_of_inferLoop hlast)
      rw [row, hindex, Option.map_some]
      exact h
    | _ => cases hindex

/-! ## One chunk -/

theorem mapM_of_forall₂ {α β : Type} {f : α → Option β} {xs : List α} {ys : List β}
    (h : List.Forall₂ (fun x y => f x = some y) xs ys) : xs.mapM f = some ys := by
  induction h with
  | nil => rfl
  | cons hxy _ ih => simp [hxy, ih]

/-- What a gather that is not cancelled hands on is the checkpoint. -/
theorem segment_of_gathered {chunk : BatchChunk} {items : List Json}
    {outcomes : List (Option Outcome)} {results : List Outcome}
    (hread : readLineRange env.loads (env.reads env.spec.prompts) chunk.offset chunk.limit =
      some items)
    (hrel : List.Forall₂ (fun item o => ∀ x ∈ o, x.isCancelled = true ∨
      p.row env chunk.offset item = some x) items outcomes)
    (hall : outcomes.mapM id = some results)
    (hnone : results.any (·.isCancelled) = false) :
    p.segment env chunk.place = some (sortResults results) := by
  rw [eq_map_some hall, List.forall₂_map_right_iff] at hrel
  have hrows : List.Forall₂ (fun item x => p.row env chunk.offset item = some x) items results := by
    rw [List.any_eq_false] at hnone
    rw [List.forall₂_iff_get] at hrel ⊢
    refine ⟨hrel.1, fun j hj hj' => (hrel.2 j hj hj' _ rfl).resolve_left ?_⟩
    exact hnone _ (List.getElem_mem _)
  simp only [segment, BatchChunk.place, hread, mapM_of_forall₂ hrows, Option.bind_eq_bind,
    Option.bind_some, Option.pure_def]

theorem holds_of_body {i deferBy : Nat} {chunk : BatchChunk} {pc pc' : ProcessChunk.Body}
    {e : Effect ProcessChunk.Body} (hok : pc.Ok env s i chunk)
    (hf : p.Holds env (.processChunk i deferBy (.body chunk pc)))
    (h : pc.step env s i chunk = some e) (hpc : e.next = some pc') :
    p.Holds env (.processChunk i deferBy (.body chunk pc')) := by
  cases pc with
  | reading =>
    obtain ⟨items, -, h⟩ := Option.bind_eq_some_iff.mp h
    cases h
    cases hpc
    exact forall₂_replicate fun item => by simp
  | gathering items seen outcomes =>
    obtain ⟨results, hall, h⟩ := Option.bind_eq_some_iff.mp h
    cases h
    simp only [Effect.next_goto, ProcessChunk.afterGather] at hpc
    split at hpc <;> cases hpc
    · trivial
    · exact segment_of_gathered hok.read hf hall (eq_false_of_ne_true ‹_›)
  | cancelling | written =>
    obtain rfl := Option.some.inj h
    split at hpc <;> cases hpc
    trivial
  | writing | loaded | flushed | recomputed => cases h; cases hpc; trivial
  | cancelLoaded | succeeded => cases h; cases hpc

theorem holds_of_goes {i deferBy : Nat} {pc pc' : ProcessChunk.Pc} {commit : Option Commit}
    (hok : Frame.Ok env s (.processChunk i deferBy pc))
    (hf : p.Holds env (.processChunk i deferBy pc))
    (hm : p.Replies env (.processChunk i deferBy pc) c)
    (h : ProcessChunk.Goes env s i c pc pc' commit) :
    p.Holds env (.processChunk i deferBy pc') := by
  cases h with
  | body h hpc => exact holds_of_body hok.2 hf h hpc
  | look => exact hf
  | @reply chunk items seen outcomes item value status replies outcome hvalue hseen ho =>
    refine forall₂_set hf hvalue ?_
    rintro x ⟨⟩
    refine row_of_runOne ho ?_
    rintro fields index rfl hindex
    exact hm _ _ _ _ _ _ _ _ rfl hvalue hindex
  | grant | lease | raise | handler => trivial

/-! ## The results object -/

theorem holds_of_finalize {pc pc' : Finalize.Pc} {put : Option Put} (hv : Valid env s)
    (hs : p.Stored env s) (hf : p.Holds env (.finalizeBatch pc))
    (h : Finalize.Goes env s pc pc' put) : p.Holds env (.finalizeBatch pc') := by
  cases h with
  | load complete =>
    push Not at complete
    refine ⟨[], env.plan, rfl, ?_, rfl⟩
    rw [← hv.planned.resolve_left complete.1, List.map_map, ← List.filterMap_eq_map]
    exact List.filterMap_congr fun c hc => hv.key_of_succeeded hc (complete.2 c hc)
  | @get snap key keys parts part hpart =>
    obtain ⟨done, rest, hplan, hkeys, hparts⟩ := hf
    obtain ⟨entry, rest, rfl, rfl, rfl⟩ := List.map_eq_cons_iff.mp hkeys.symm
    obtain ⟨entry', hentry', hsegment⟩ := hs.segment hpart
    have hentry : env.plan[done.length]? = some entry := by simp [hplan]
    have hindex := (Env.isPlan (fun he => by simp [he] at hentry)).index hentry
    obtain rfl : entry' = entry := by simpa [hindex, hentry] using hentry'.symm
    refine ⟨done ++ [entry'], rest, by simp [hplan], rfl, ?_⟩
    simp [List.mapM_append, hparts, hsegment]
  | incomplete | results | manifest | commit => trivial

theorem Stored.write (hs : p.Stored env s) (hv : Valid env s) (hok : frame.Ok env s)
    (hf : p.Holds env frame) (h : frame.step env s c = some e) :
    p.Stored env (e.shared s) := by
  rcases shared_cases h with hshared | ⟨commit, -, hshared⟩ | ⟨put, hput, hshared⟩ <;>
    rw [hshared]
  · exact hs
  · exact ⟨hs.segment, hs.results⟩
  · cases hput with
    | @chunk j deferBy chunk rows =>
      refine ⟨fun {i rows'} hrows => ?_, hs.results⟩
      simp only [Put.apply] at hrows
      split at hrows
      · rename_i hij
        obtain rfl : i = j := by simpa using hij
        obtain rfl := Option.some.inj hrows
        obtain ⟨⟨row, hrow, hplace, -⟩, -⟩ := hok
        exact ⟨chunk.place, hplace ▸ hv.plan_of_row hrow, hf⟩
      · exact hs.segment hrows
    | @results snap parts =>
      refine ⟨hs.segment, fun {rows} hrows => ?_⟩
      obtain ⟨done, rest, hplan, hkeys, hparts⟩ := hf
      obtain rfl : rest = [] := by simpa using hkeys.symm
      cases hrows
      rw [Responder.results, hplan, List.append_nil, hparts, Option.map_some]
    | manifest => exact ⟨hs.segment, hs.results⟩

theorem holds_frames (hv : Valid env s) (hs : p.Stored env s) (hok : frame.Ok env s)
    (hf : p.Holds env frame) (hm : p.Replies env frame c) (h : frame.step env s c = some e) :
    ∀ f ∈ e.frames, p.Holds env f := by
  intro f hmem
  cases f with
  | processChunk i deferBy pc =>
    obtain ⟨-, rfl, -⟩ | ⟨pc₀, rfl, hgoes⟩ := processChunk_of_step h hmem
    · trivial
    · exact holds_of_goes hok hf hm hgoes
  | finalizeBatch pc =>
    obtain ⟨-, unfinished, rfl⟩ | ⟨pc₀, rfl, hgoes⟩ := finalizeBatch_of_step h hmem
    · trivial
    · exact holds_of_finalize hv hs hf hgoes
  | _ => trivial

/-! ## Every run -/

theorem modular_stored (p : Responder) (env : Env) : (workers env).Modular
    (fun w m => p.Answers env w m ∧ Valid env w.shared ∧ ∀ f ∈ w.pool, f.Ok env w.shared)
    (p.Stored env) (fun _ f => p.Holds env f) := by
  refine modular_of_steps ?_ ?_ ?_ ?_
  · intro w k c frame e hs hpool ⟨hm, hv, hok⟩ hk he
    have hmem := List.mem_of_getElem? hk
    exact ⟨hs.write hv (hok frame hmem) (hpool frame hmem) he,
      holds_frames hv hs (hok frame hmem) (hpool frame hmem) (hm frame hk) he⟩
  · intro w i c frame e f _ _ _ _ _ _ hf
    exact hf
  · intro w job _
    trivial
  · intro s seconds hs
    exact ⟨⟨hs.segment, hs.results⟩, fun f hf => hf⟩

theorem stored_of_reach (h : (workers env).Reach (p.Answers env) (created env now) w) :
    p.Stored env w.shared ∧ ∀ f ∈ w.pool, p.Holds env f := by
  refine System.Modular.reach (modular_stored p env) ?_ ?_ (h.and fun v hv => ok_of_reach hv)
  · constructor <;> simp [created, Store.empty]
  · simp [created, Holds]

/-! ## Without the plan -/

/-- A row for each line of the prompts object, in the order of the lines. -/
def rows (p : Responder) (env : Env) : Option (List Outcome) :=
  ((promptLines env.spec.prompts).mapM decodeUtf8).bind fun texts =>
    texts.mapM fun text => (env.loads text).bind (p.row env 0)

theorem sortResults_of_ordered {rows : List Outcome} (h : Ordered rows) :
    sortResults rows = rows :=
  List.Pairwise.insertionSort_eq h

variable {texts : List String}

/-- The row of an item that brings its index. -/
theorem row_of_indexed (hx : Indexed env texts fun _ q => q) {q : Nat} {text : String}
    (hq : texts[q]? = some text) {item : Json} (hitem : env.loads text = some item) {offset : Nat}
    {outcome : Outcome} (h : p.row env offset item = some outcome) :
    outcome.index = q ∧ p.row env 0 item = some outcome := by
  obtain ⟨item', hitem', hindex⟩ := hx.item hq
  obtain rfl := Option.some.inj (hitem.symm.trans hitem')
  have hzero := hindex 0
  cases item with
  | obj fields =>
    simp only [row, hindex offset, Option.map_some, Option.some.injEq] at h
    have hcast : ((0 : Nat) : Int) = 0 := rfl
    rw [hcast] at hzero
    rw [row, hzero, ← h]
    exact ⟨index_rowOf _ _, rfl⟩
  | _ => cases h

theorem forall₂_of_segment (hx : Indexed env texts fun _ q => q)
    (hstream : streamTexts (env.reads env.spec.prompts) = some texts) {i size : Nat}
    {part : List Outcome} (h : p.segment env
      (i, (i : Int) * size, min (size : Int) (texts.length - (i : Int) * size)) = some part) :
    List.Forall₂ (fun text o => (env.loads text).bind (p.row env 0) = some o)
      ((texts.drop (i * size)).take size) part := by
  obtain ⟨items, hread, h⟩ := Option.bind_eq_some_iff.mp h
  obtain ⟨outcomes, hrows, h⟩ := Option.bind_eq_some_iff.mp h
  rw [readLineRange_eq, selectLines_slice hstream, Option.bind_some] at hread
  have hitems := forall₂_of_mapM hread
  have hrows := forall₂_of_mapM hrows
  generalize hslice : (texts.drop (i * size)).take size = slice at hitems ⊢
  have hrow (j : Nat) (hj : j < slice.length) (hj' : j < outcomes.length) :
      outcomes[j].index = (i * size + j : Nat) ∧
        (env.loads slice[j]).bind (p.row env 0) = some outcomes[j] := by
    have hj₁ : j < items.length := hitems.length_eq ▸ hj
    have hline : texts[i * size + j]? = some slice[j] := by
      subst hslice
      simp
    have hitem := hitems.get hj hj₁
    have hoffset := hrows.get hj₁ hj'
    simp only [List.get_eq_getElem] at hitem hoffset
    have hcast : (i : Int) * size = (i * size : Nat) := by push_cast; rfl
    rw [hcast] at hoffset
    obtain ⟨hindex, hzero⟩ := row_of_indexed hx hline hitem hoffset
    exact ⟨hindex, by rw [hitem]; exact hzero⟩
  have hlength : slice.length = outcomes.length := hitems.length_eq.trans hrows.length_eq
  have hordered : Ordered outcomes := by
    refine List.pairwise_iff_getElem.mpr fun j k hj hk hlt => ?_
    rw [(hrow j (hlength ▸ hj) hj).1, (hrow k (hlength ▸ hk) hk).1]
    omega
  rw [sortResults_of_ordered hordered] at h
  obtain rfl := Option.some.inj h
  exact List.forall₂_iff_get.mpr ⟨hlength, fun j hj hj' => (hrow j hj hj').2⟩

theorem rows_of_results (hx : Indexed env texts fun _ q => q)
    (htexts : (promptLines env.spec.prompts).mapM decodeUtf8 = some texts)
    {outcomes : List Outcome} (hplan : env.plan ≠ []) (h : p.results env = some outcomes) :
    p.rows env = some outcomes := by
  obtain ⟨parts, hparts, rfl⟩ := Option.map_eq_some_iff.mp h
  obtain ⟨size, -, hpos, heq⟩ := env.plan_eq hplan
  have hstream : streamTexts (env.reads env.spec.prompts) = some texts := by
    rwa [streamTexts, streamLines_eq, env.flatten_reads]
  have htotal : texts.length = env.spec.totalItems := by
    rw [← env.spec.lines_prompts, ← (forall₂_of_mapM htexts).length_eq]
  have hsegments := forall₂_of_mapM hparts
  rw [heq, List.forall₂_map_left_iff, ← htotal] at hsegments
  rw [rows, htexts, Option.bind_some]
  refine mapM_of_forall₂ ?_
  have hslices := slices_flatten texts size ((texts.length + size - 1) / size)
  rw [List.take_of_length_le (le_plan_mul hpos)] at hslices
  rw [← hslices]
  refine List.rel_flatten (List.forall₂_map_left_iff.mpr ?_)
  exact hsegments.imp fun i part hsegment => forall₂_of_segment hx hstream hsegment

end Responder

open Responder

variable {p : Responder} {env env' : Env} {now now' : Int} {w w' : World Shared Frame}

/-- Whatever the run, a checkpoint that has been put and the results that a batch has are what the
provider makes of the prompts. -/
theorem results_determined (h : (workers env).Reach (p.Answers env) (created env now) w) :
    (∀ i body, w.shared.store.body (.chunk i) = some body → ∃ entry rows,
      env.plan[i]? = some entry ∧ p.segment env entry = some rows ∧ body = bodyOf rows) ∧
    ∀ key, w.shared.db.batch.resultsKey = some key → ∃ rows,
      p.results env = some rows ∧ w.shared.store.body key = some (bodyOf rows) := by
  have hs := (stored_of_reach h).1
  refine ⟨fun i body hbody => ?_, fun key hkey => ?_⟩
  · obtain ⟨rows, hrows, rfl⟩ := Option.map_eq_some_iff.mp hbody
    obtain ⟨entry, hentry, hsegment⟩ := hs.segment hrows
    exact ⟨entry, rows, hentry, hsegment, rfl⟩
  · obtain ⟨rfl, hres, -⟩ := (valid_of_reach h).resultsKey hkey
    obtain ⟨rows, hrows⟩ := Option.isSome_iff_exists.mp hres
    exact ⟨rows, hs.results hrows, by simp [Store.body, hrows]⟩

/-- A provider that greets everybody. -/
def greeting : Responder where
  up := answering.up
  infer _ := { ok := true, output := .str "hello" }

def greeted : Moves → Moves
  | .act k (.reply item _) => .act k (.reply item (answer true))
  | m => m

theorem greeting_answers {v : World Shared Frame} (m : Moves) :
    greeting.Answers env v (greeted m) := by
  cases m with
  | act k c =>
    cases c with
    | reply item replies =>
      intro frame _ i deferBy chunk items seen outcomes fields index _ _ _ result hmem
      exact List.mem_singleton.mp hmem
    | _ => exact fun _ _ => trivial
  | env e => trivial

theorem reach_greeted {ms : List Moves} {w₀ : World Shared Frame}
    (hr : (workers env).run (fun _ _ => True) w₀ (ms.map greeted) = some w) :
    (workers env).Reach (greeting.Answers env) w₀ w := by
  have halong : (workers env).Along (fun v m _ => greeting.Answers env v m) w₀ (ms.map greeted) :=
    System.Along.of_mem .refl <| List.forall_mem_map.mpr fun m _ _ _ => greeting_answers m
  exact (halong.reach hr).mono fun _ _ hm => hm.2

theorem results_determined_uploaded : ∃ w,
    (workers uploadedEnv).Reach (greeting.Answers uploadedEnv) (created uploadedEnv 0) w ∧
    w.shared.db.batch.resultsKey = some .results ∧
    ∃ rows, greeting.results uploadedEnv = some rows ∧
      w.shared.store.body .results = some (bodyOf rows) := by
  have hrun : ((workers uploadedEnv).run (fun _ _ => True) (created uploadedEnv 0)
      (completedRun.map greeted)).map (·.shared.db.batch.resultsKey) = some (some .results) := by
    decide +kernel
  obtain ⟨w, hw, hkey⟩ := Option.map_eq_some_iff.mp hrun
  exact ⟨w, reach_greeted hw, hkey, (results_determined (reach_greeted hw)).2 _ hkey⟩

/-- The results of items that bring their indexes, without the plan. -/
theorem body_of_indexed {texts : List String}
    (h : (workers env).Reach (p.Answers env) (created env now) w)
    (htexts : (promptLines env.spec.prompts).mapM decodeUtf8 = some texts)
    (hx : Indexed env texts fun _ q => q) (hkey : w.shared.db.batch.resultsKey ≠ none) :
    ∃ rows, p.rows env = some rows ∧ w.shared.store.body .results = some (bodyOf rows) := by
  obtain ⟨key, hkey⟩ := Option.ne_none_iff_exists'.mp hkey
  obtain ⟨rfl, hres, c, hrow⟩ := (valid_of_reach h).resultsKey hkey
  obtain ⟨rows, hrows⟩ := Option.isSome_iff_exists.mp hres
  have hplan : env.plan ≠ [] := fun he => by
    simpa [he] using (valid_of_reach h).plan_of_row hrow
  exact ⟨rows, rows_of_results hx htexts hplan ((stored_of_reach h).1.results hrows),
    by simp [Store.body, hrows]⟩

/-- Two batches of the same prompts have the same results, whatever their chunk sizes, their
settings and their runs. -/
theorem results_independent {texts : List String}
    (hprompts : env'.spec.prompts = env.spec.prompts) (hloads : env'.loads = env.loads)
    (hint : env'.intOfStr = env.intOfStr)
    (htexts : (promptLines env.spec.prompts).mapM decodeUtf8 = some texts)
    (hx : Indexed env texts fun _ q => q)
    (h : (workers env).Reach (p.Answers env) (created env now) w)
    (h' : (workers env').Reach (p.Answers env') (created env' now') w')
    (hkey : w.shared.db.batch.resultsKey ≠ none)
    (hkey' : w'.shared.db.batch.resultsKey ≠ none) :
    w'.shared.store.body .results = w.shared.store.body .results ∧
      (w.shared.store.body .results).isSome = true := by
  have hx' : Indexed env' texts fun _ q => q :=
    ⟨fun hq => by rw [hloads, hint]; exact hx.item hq, hx.mono⟩
  have hrow : p.row env' 0 = p.row env 0 := by
    funext item
    cases item <;> simp [row, hint]
  have hrows : p.rows env' = p.rows env := by
    simp only [rows, hprompts, hloads, hrow]
  obtain ⟨rows, hr, hbody⟩ := body_of_indexed h htexts hx hkey
  obtain ⟨rows', hr', hbody'⟩ := body_of_indexed h' (hprompts ▸ htexts) hx' hkey'
  obtain rfl := Option.some.inj (hr.symm.trans (hrows.symm.trans hr'))
  exact ⟨hbody'.trans hbody.symm, by simp [hbody]⟩

/-- The batch of two uploaded objects in one chunk. -/
def uploadedWhole : Env :=
  { uploadedEnv with spec := { uploadedEnv.spec with chunkSize := 2 } }

theorem results_independent_uploaded : ∃ w w',
    (workers uploadedEnv).Reach (greeting.Answers uploadedEnv) (created uploadedEnv 0) w ∧
    (workers uploadedWhole).Reach (greeting.Answers uploadedWhole) (created uploadedWhole 0) w' ∧
    w'.shared.store.body .results = w.shared.store.body .results ∧
    (w.shared.store.body .results).isSome = true := by
  have hrun : ((workers uploadedEnv).run (fun _ _ => True) (created uploadedEnv 0)
      (completedRun.map greeted)).map (·.shared.db.batch.resultsKey) = some (some .results) := by
    decide +kernel
  have hrun' : ((workers uploadedWhole).run (fun _ _ => True) (created uploadedWhole 0)
      (copiedRun.map greeted)).map (·.shared.db.batch.resultsKey) = some (some .results) := by
    decide +kernel
  obtain ⟨w, hw, hkey⟩ := Option.map_eq_some_iff.mp hrun
  obtain ⟨w', hw', hkey'⟩ := Option.map_eq_some_iff.mp hrun'
  have hx : Indexed uploadedEnv [dictText [("index", .int 0)], dictText [("index", .int 1)]]
      fun _ q => q := by
    refine ⟨fun {q text} hq => ?_, fun _ _ _ hle => Int.ofNat_le.mpr hle⟩
    rcases q with _ | _ | q <;> cases hq
    · exact ⟨.obj [("index", .int 0)], rfl, fun _ => rfl⟩
    · exact ⟨.obj [("index", .int 1)], rfl, fun _ => rfl⟩
  have htexts := texts_joinLines [[("index", .int 0)], [("index", .int 1)]]
  have h := reach_greeted hw
  have h' := reach_greeted hw'
  exact ⟨w, w', h, h', @results_independent greeting uploadedEnv uploadedWhole 0 0 w w' _ rfl rfl
    rfl htexts hx h h' (by simp [hkey]) (by simp [hkey'])⟩

/-! ## Inline prompts -/

theorem lookup_index_object {prompt : Prompt} (h : ∀ d, prompt = .dict d → d.lookup "index" = none)
    (i : Nat) : (prompt.object i).lookup "index" = some (.int i) := by
  cases prompt with
  | str s => rfl
  | dict d =>
    have hmerge : (Dict.merge [("index", .int i)] d).lookup "index" = some (.int i) :=
      Dict.lookup_merge (h d rfl)
    simp [Prompt.object, Dict.setDefault, hmerge]

/-- From the request to the results: the line of an inline prompt is the row that the provider
makes of it, in the order of the prompts. -/
theorem inline_results {cw : Outer} {table : List NewBatch} {req : CreateRequest}
    {batch : NewBatch} {prompts : List Prompt}
    (hcreate : createBatch cw table req = .ok batch) (hnew : batch ∉ table)
    (hprompts : req.prompts = some prompts)
    (hbare : ∀ d, .dict d ∈ prompts → d.lookup "index" = none)
    (hround : ∀ (i : Nat) (prompt : Prompt), prompts[i]? = some prompt →
      cw.rt.loads (dictText (prompt.object i)) = .ok (.obj (prompt.object i)))
    (henv : RunsOn env cw batch)
    (h : (workers env).Reach (p.Answers env) (created env now) w)
    (hkey : w.shared.db.batch.resultsKey ≠ none) :
    w.shared.store.body .results = some (bodyOf (prompts.mapIdx fun i prompt =>
      rowOf i (p.infer (p.up.request (prompt.object i) i)))) := by
  obtain ⟨hbuild, -⟩ := (createBatch_cases hcreate).resolve_left hnew
  obtain ⟨stored, total, hingest, -, rfl⟩ := build_ok hbuild
  obtain rfl : stored = joinLines ((prompts.mapIdx Prompt.object).map dumpsDict) := by
    rw [CreateRequest.ingest, hprompts] at hingest
    exact congrArg Prod.fst (uploadPromptsNdjson_ok hingest)
  have hstored : env.spec.prompts = joinLines ((prompts.mapIdx Prompt.object).map dumpsDict) :=
    henv.prompts
  have htexts := texts_joinLines (prompts.mapIdx Prompt.object)
  rw [← hstored] at htexts
  have hindex (i : Nat) (prompt : Prompt) (hi : prompts[i]? = some prompt) (offset : Int) :
      itemIndex env.intOfStr offset (.obj (prompt.object i)) = some (i : Int) := by
    have hmem := List.mem_of_getElem? hi
    simp [itemIndex, lookup_index_object (fun d hd => hbare d (hd ▸ hmem)) i]
  have hloads (i : Nat) (prompt : Prompt) (hi : prompts[i]? = some prompt) :
      env.loads (dictText (prompt.object i)) = some (.obj (prompt.object i)) := by
    rw [henv.loads, hround i prompt hi]
    rfl
  have hx : Indexed env ((prompts.mapIdx Prompt.object).map dictText) fun _ q => q := by
    refine ⟨fun {q text} hq => ?_, fun _ _ _ hle => Int.ofNat_le.mpr hle⟩
    obtain ⟨prompt, hi, rfl⟩ : ∃ prompt, prompts[q]? = some prompt ∧
        dictText (prompt.object q) = text := by simpa using hq
    exact ⟨_, hloads q prompt hi, fun offset => hindex q prompt hi offset⟩
  obtain ⟨rows, hrows, hbody⟩ := body_of_indexed h htexts hx hkey
  rw [Responder.rows, htexts, Option.bind_some] at hrows
  have hall := forall₂_of_mapM hrows
  have hlength : rows.length = prompts.length := by simpa using hall.length_eq.symm
  rw [hbody]
  congr 2
  refine List.ext_getElem (by simpa using hlength) fun i hi hi' => ?_
  have hi₀ : i < prompts.length := hlength ▸ hi
  have hrow := hall.get (by simpa using hi₀) hi
  simp only [List.get_eq_getElem, List.getElem_map, List.getElem_mapIdx] at hrow ⊢
  rw [hloads i _ (List.getElem?_eq_getElem hi₀), Option.bind_some, Responder.row,
    hindex i _ (List.getElem?_eq_getElem hi₀)] at hrow
  exact (Option.some.inj hrow).symm

/-- The local provider. -/
def mocked : Responder := ⟨answering.up, MockProvider.infer⟩

def inlinePrompts : List Prompt := [.str "hello", .str "__fail_terminal__"]

def inlineRequest : CreateRequest := { prompts := some inlinePrompts, chunkSize := some 2 }

def inlineEnv : Env := uploaded (.str "hello") (.str "__fail_terminal__")

def inlineOuter : Outer :=
  { plainText with
    rt := knowing (inlinePrompts.mapIdx fun i prompt => .obj (prompt.object i)) }

/-- What the local provider replies for a prompt. -/
def mockReply (i : Nat) (prompt : Prompt) : InferenceResult :=
  MockProvider.infer (answering.up.request (prompt.object i) i)

def mockRun : List Moves :=
  steps 0 7 ++ steps 1 3 ++ [.act 1 (.look 0), .act 1 (.look 1)] ++
    inlinePrompts.mapIdx (fun i prompt => .act 1 (.reply i [mockReply i prompt])) ++ steps 1 18

/-- In a batch of one chunk a reply's item is the prompt at its position. -/
theorem mock_answers {v : World Shared Frame} {i : Nat} {prompt : Prompt}
    (h : (workers inlineEnv).Reach (fun _ _ => True) (created inlineEnv 0) v)
    (hi : inlinePrompts[i]? = some prompt) (k : Nat) :
    mocked.Answers inlineEnv v (.act k (.reply i [mockReply i prompt])) := by
  rintro frame hk j deferBy chunk items seen outcomes fields index rfl hitem hindex result hmem
  obtain ⟨hv, hok⟩ := ok_of_reach h
  obtain ⟨⟨row, hrow, hplace, -⟩, hgathered⟩ := hok _ (List.mem_of_getElem? hk)
  have hplan := hplace ▸ hv.plan_of_row hrow
  have hread := hgathered.read
  have hwhole : inlineEnv.plan = [(0, 0, 2)] := by decide +kernel
  rw [hwhole] at hplan
  obtain ⟨-, hoffset, hlimit⟩ : chunk.chunkIndex = 0 ∧ chunk.offset = 0 ∧ chunk.limit = 2 := by
    have := List.mem_singleton.mp (List.mem_of_getElem? hplan)
    simpa [BatchChunk.place] using this
  rw [hoffset, hlimit] at hread
  have hitems : items = inlinePrompts.mapIdx fun i prompt => .obj (prompt.object i) :=
    (Option.some.inj hread).symm
  rw [hitems, List.getElem?_mapIdx, hi, Option.map_some, Option.some.injEq, Json.obj.injEq] at hitem
  subst hitem
  have hown : (prompt.object i).lookup "index" = some (.int i) := by
    rcases i with _ | _ | i <;> cases hi <;> rfl
  simp only [itemIndex, hown, Option.some.injEq] at hindex
  rw [List.mem_singleton.mp hmem, ← hindex]
  rfl

theorem inline_results_mock : ∃ batch w,
    createBatch inlineOuter [] inlineRequest = .ok batch ∧ RunsOn inlineEnv inlineOuter batch ∧
    (workers inlineEnv).Reach (mocked.Answers inlineEnv) (created inlineEnv 0) w ∧
    w.shared.store.body .results = some (bodyOf
      [.ok 0 (.str "echo:hello") (.obj [("prompt_tokens", .int 1), ("completion_tokens", .int 1)]),
        .failed 1 (some "forced terminal failure") (some .terminal)]) := by
  have hcreate : (createBatch inlineOuter [] inlineRequest).toOption.map
      (fun batch => (batch.prompts, batch.chunkSize)) = some (inlineEnv.spec.prompts, 2) := by
    decide +kernel
  obtain ⟨batch, hbatch, hseen⟩ := ok_of_toOption hcreate
  obtain ⟨hprompts, hsize⟩ := Prod.mk.inj hseen
  have henv : RunsOn inlineEnv inlineOuter batch := ⟨hprompts.symm, hsize.symm, fun _ => rfl⟩
  have hrun : ((workers inlineEnv).run (fun _ _ => True) (created inlineEnv 0) mockRun).map
      (·.shared.db.batch.resultsKey) = some (some .results) := by decide +kernel
  obtain ⟨w, hw, hkey⟩ := Option.map_eq_some_iff.mp hrun
  have halong : (workers inlineEnv).Along (fun v m _ => mocked.Answers inlineEnv v m)
      (created inlineEnv 0) mockRun := by
    refine System.Along.of_mem .refl fun m hm v hv => ?_
    simp only [mockRun, List.mem_append, steps, List.mem_replicate, List.mem_mapIdx] at hm
    rcases hm with (((⟨-, rfl⟩ | ⟨-, rfl⟩) | hm) | ⟨i, hi, rfl⟩) | ⟨-, rfl⟩
    · exact fun _ _ => trivial
    · exact fun _ _ => trivial
    · obtain rfl | rfl : m = .act 1 (.look 0) ∨ m = .act 1 (.look 1) := by simpa using hm
      · exact fun _ _ => trivial
      · exact fun _ _ => trivial
    · exact mock_answers hv (List.getElem?_eq_getElem hi) 1
    · exact fun _ _ => trivial
  have hreach : (workers inlineEnv).Reach (mocked.Answers inlineEnv) (created inlineEnv 0) w :=
    (halong.reach hw).mono fun _ _ hm => hm.2
  refine ⟨batch, w, hbatch, henv, hreach, ?_⟩
  refine inline_results hbatch (by simp) rfl (by simp [inlinePrompts]) (fun i prompt hi => ?_)
    henv hreach (by simp [hkey])
  rcases i with _ | _ | i <;> cases hi <;> rfl

end BatchInference
