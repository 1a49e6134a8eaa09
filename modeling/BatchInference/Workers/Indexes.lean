import BatchInference.Services.CreateBatch
import BatchInference.Workers.Invariant

/-!
# Which prompt a result belongs to

A row carries its item's index, or its chunk's offset if the item has none, and a chunk's
rows are sorted by it. The uploads number the prompts, so that the results of a completed
batch are numbered in input order; a copied object is read as it is, and all rows of a chunk
carry the same index.
-/

namespace BatchInference

open JobPool

variable {env : Env} {now : Int} {s : Shared} {frame : Frame} {c : Choice} {e : Effect Frame}
  {w : World Shared Frame}

/-! ## Sorted checkpoints -/

def Ordered (rows : List Outcome) : Prop := rows.Pairwise fun a b => a.index ≤ b.index

theorem ordered_sortResults (outcomes : List Outcome) : Ordered (sortResults outcomes) := by
  have : Std.Total fun a b : Outcome => a.index ≤ b.index := ⟨fun a b => le_total _ _⟩
  have : IsTrans Outcome fun a b => a.index ≤ b.index := ⟨fun _ _ _ => le_trans⟩
  exact List.pairwise_insertionSort _ outcomes

/-- The results are segments that cover their chunks, each of them sorted. -/
structure OrderedStore (env : Env) (s : Shared) : Prop where
  segment : ∀ {i rows}, s.store.rows (.chunk i) = some rows → Ordered rows
  results : ∀ {rows}, s.store.rows .results = some rows → ∃ parts,
    List.Forall₂ (Covers env) env.plan parts ∧ (∀ part ∈ parts, Ordered part) ∧
      rows = parts.flatten

def Frame.Ordered : Frame → Prop
  | .processChunk _ _ (.body _ (.writing results)) => BatchInference.Ordered results
  | .finalizeBatch (.gathering _ _ parts) => ∀ part ∈ parts, BatchInference.Ordered part
  | _ => True

theorem OrderedStore.write (ho : OrderedStore env s) (hok : frame.Ok env s)
    (hf : frame.Ordered) (h : frame.step env s c = some e) :
    OrderedStore env (e.shared s) := by
  rcases shared_cases h with hs | ⟨commit, -, hs⟩ | ⟨put, hp, hs⟩ <;> rw [hs]
  · exact ho
  · exact ⟨ho.segment, ho.results⟩
  · cases hp with
    | @chunk j deferBy chunk results =>
      refine ⟨fun {i rows} hrows => ?_, ho.results⟩
      simp only [Put.apply] at hrows
      split at hrows
      · cases hrows
        exact hf
      · exact ho.segment hrows
    | @results snap parts =>
      refine ⟨ho.segment, fun {rows} hrows => ?_⟩
      obtain ⟨-, -, done, rest, hplan, hkeys, hparts⟩ := hok
      obtain rfl : rest = [] := by simpa using hkeys.symm
      cases hrows
      exact ⟨parts, by simpa [hplan] using hparts, hf, rfl⟩
    | manifest => exact ⟨ho.segment, ho.results⟩

/-- What a body is about to put, gather has sorted. -/
theorem ProcessChunk.ordered_of_step {i : Nat} {chunk : BatchChunk} {pc : Body}
    {e : Effect Body} {results : List Outcome} (h : pc.step env s i chunk = some e)
    (hpc : e.next = some (.writing results)) : Ordered results := by
  have hgoes := Body.goes_of_step h hpc
  generalize e.commit = commit, e.put = put at hgoes
  cases hgoes with
  | @gather items seen outcomes replies => exact ordered_sortResults replies

theorem Frame.Ordered.frames (ho : OrderedStore env s) (hok : frame.Ok env s)
    (hf : frame.Ordered) (h : frame.step env s c = some e) : ∀ f ∈ e.frames, f.Ordered := by
  intro f hm
  cases f with
  | processChunk i deferBy pc =>
    obtain ⟨-, rfl, -⟩ | ⟨pc₀, rfl, hgoes⟩ := processChunk_of_step h hm
    · trivial
    · generalize e.commit = commit at hgoes
      cases hgoes with
      | @body chunk pc pc' e₀ h₀ hpc =>
        cases pc' with
        | writing results => exact ProcessChunk.ordered_of_step h₀ hpc
        | _ => trivial
      | _ => trivial
  | finalizeBatch pc =>
    obtain ⟨-, unfinished, rfl⟩ | ⟨pc₀, rfl, hgoes⟩ := finalizeBatch_of_step h hm
    · trivial
    · generalize e.put = put at hgoes
      cases hgoes with
      | load => exact fun _ hm => nomatch hm
      | @get snap key keys parts part hpart =>
        obtain ⟨-, -, done, rest, -, hkeys, -⟩ := hok
        obtain ⟨entry, -, -, rfl, -⟩ := List.map_eq_cons_iff.mp hkeys.symm
        exact List.forall_mem_append.mpr ⟨hf, List.forall_mem_singleton.mpr (ho.segment hpart)⟩
      | _ => trivial
  | _ => trivial

theorem modular_ordered (env : Env) : (workers env).Modular
    (fun w _ => ∀ f ∈ w.pool, f.Ok env w.shared) (OrderedStore env) (fun _ f => f.Ordered) := by
  refine modular_of_steps ?_ ?_ ?_ ?_
  · intro w i c frame e ho hpool hok hk he
    have hm := List.mem_of_getElem? hk
    exact ⟨ho.write (hok frame hm) (hpool frame hm) he,
      (hpool frame hm).frames ho (hok frame hm) he⟩
  · intro w i c frame e f _ _ _ _ _ _ hf
    exact hf
  · intro w job _
    trivial
  · intro s seconds ho
    exact ⟨⟨ho.segment, ho.results⟩, fun f hf => hf⟩

theorem ordered_of_reach {ok : World Shared Frame → Moves → Prop}
    (h : (workers env).Reach ok (created env now) w) : OrderedStore env w.shared := by
  refine (System.Modular.reach (modular_ordered env) ?_ ?_
    ((h.and fun v hv => (ok_of_reach hv).2).mono fun _ _ hm => hm.2)).1
  · constructor <;> simp [created, Store.empty]
  · simp [created, Frame.Ordered]

/-! ## The indexes of a completed batch -/

/-- `index offset p` is what the item of the line `p` gets in a chunk at `offset`. -/
structure Indexed (env : Env) (texts : List String) (index : Nat → Nat → Int) : Prop where
  item : ∀ {p text}, texts[p]? = some text → ∃ item, env.loads text = some item ∧
    ∀ offset : Nat, itemIndex env.intOfStr offset item = some (index offset p)
  mono : ∀ (offset : Nat) {p q : Nat}, p ≤ q → index offset p ≤ index offset q

variable {texts : List String} {index : Nat → Nat → Int}

theorem map_index_of_covers (hx : Indexed env texts index)
    (hstream : streamTexts (env.reads env.spec.prompts) = some texts) {i size : Nat}
    {part : List Outcome} (hcovers : Covers env
      (i, (i : Int) * size, min (size : Int) (texts.length - (i : Int) * size)) part)
    (hordered : Ordered part) :
    part.map (·.index) = (List.range ((texts.drop (i * size)).take size).length).map fun j =>
      index (i * size) (i * size + j) := by
  obtain ⟨items, outcomes, hread, hrel, hperm⟩ := hcovers
  rw [readLineRange_eq, selectLines_slice hstream, Option.bind_some] at hread
  have hitems := forall₂_of_mapM hread
  generalize hslice : (texts.drop (i * size)).take size = slice at hitems ⊢
  have hindexes : outcomes.map (·.index) = (List.range slice.length).map fun j =>
      index (i * size) (i * size + j) := by
    refine List.ext_getElem (by simp [hitems.length_eq, hrel.length_eq]) fun j hj _ => ?_
    rw [List.length_map] at hj
    have hj₁ : j < items.length := hrel.length_eq ▸ hj
    have hj₀ : j < slice.length := hitems.length_eq ▸ hj₁
    have hline : texts[i * size + j]? = some slice[j] := by
      subst hslice
      simp
    obtain ⟨item, hloads, hitem⟩ := hx.item hline
    obtain rfl : items[j] = item := Option.some.inj ((hitems.get hj₀ hj₁).symm.trans hloads)
    have hindex := hrel.get hj₁ hj
    have := (hitem (i * size)).symm.trans (by exact_mod_cast hindex)
    simpa using (Option.some.inj this).symm
  have hsorted : ((List.range slice.length).map fun j =>
      index (i * size) (i * size + j)).Pairwise (· ≤ ·) :=
    List.pairwise_map.mpr <| List.pairwise_lt_range.imp fun hlt =>
      hx.mono (i * size) (by omega)
  exact (hindexes ▸ hperm.map _).eq_of_pairwise (fun _ _ _ _ => le_antisymm)
    (List.pairwise_map.mpr hordered) hsorted

theorem Env.plan_eq (h : env.plan ≠ []) : ∃ size : Nat, env.spec.chunkSize = size ∧ 0 < size ∧
    env.plan = (List.range ((env.spec.totalItems + size - 1) / size)).map fun (i : Nat) =>
      (i, (i : Int) * size, min (size : Int) (env.spec.totalItems - (i : Int) * size)) := by
  have hpos : ¬ env.spec.chunkSize < 1 := fun hlt => h (by simp [plan, planChunks_error hlt])
  obtain ⟨size, hsize⟩ := Int.eq_ofNat_of_zero_le (by omega : 0 ≤ env.spec.chunkSize)
  refine ⟨size, hsize, by omega, ?_⟩
  rw [plan, hsize, planChunks_eq (env.spec.totalItems_lt.trans (by norm_num)) (by omega)]

theorem results_indexes {ok : World Shared Frame → Moves → Prop}
    (h : (workers env).Reach ok (created env now) w)
    (hc : w.shared.db.batch.status = .completed) (hx : Indexed env texts index)
    (hstream : streamTexts (env.reads env.spec.prompts) = some texts) :
    ∃ (size : Nat) (outcomes : List Outcome), env.spec.chunkSize = size ∧ 0 < size ∧
      w.shared.store.rows .results = some outcomes ∧
      outcomes.map (·.index) =
        (List.range texts.length).map fun p => index (p / size * size) p := by
  have hv := valid_of_reach h
  obtain ⟨key, hkey⟩ := Option.ne_none_iff_exists'.mp (hv.completed hc)
  obtain ⟨rfl, hres, c, hrow⟩ := hv.resultsKey hkey
  obtain ⟨rows, hrows⟩ := Option.isSome_iff_exists.mp hres
  obtain ⟨parts, hparts, hordered, rfl⟩ := (ordered_of_reach h).results hrows
  have htotal : texts.length = env.spec.totalItems := by
    rw [← env.spec.lines_prompts, ← (forall₂_of_mapM hstream).length_eq, streamLines_eq,
      env.flatten_reads]
  obtain ⟨size, hsize, hpos, hplan⟩ := env.plan_eq fun he => by
    simpa [he] using hv.plan_of_row hrow
  refine ⟨size, _, hsize, hpos, hrows, ?_⟩
  rw [← htotal] at hplan
  have hsegments := ((List.forall₂_and_left _ _).mpr ⟨hordered, hparts.flip⟩).flip
  rw [hplan, List.forall₂_map_left_iff] at hsegments
  rw [List.map_flatten, ← List.take_of_length_le (i := (texts.length + size - 1) / size * size)
    (l := (List.range texts.length).map _), ← slices_flatten]
  · congr 1
    rw [← List.forall₂_eq_eq_eq, List.forall₂_map_left_iff, List.forall₂_map_right_iff]
    refine hsegments.flip.imp fun part i ⟨ho, hcovers⟩ => ?_
    rw [map_index_of_covers hx hstream hcovers ho]
    refine List.ext_getElem (by simp) fun j hj _ => ?_
    have hlt : j < size := by simp at hj; omega
    have hdiv : (i * size + j) / size = i := by
      rw [mul_comm, Nat.mul_add_div hpos, Nat.div_eq_of_lt hlt, add_zero]
    simp [hdiv]
  · rw [List.length_map, List.length_range]
    exact le_plan_mul hpos

/-! ## Prompts given as objects -/

/-- The text that `upload_raw_ndjson` goes through consists of these objects. -/
def RawGiven (rt : Runtime) (data : Bytes) (objs : List Dict) : Prop :=
  ∃ lines, (((splitLines data).map strip).filter (· ≠ [])).mapM decodeUtf8 = some lines ∧
    lines.map rt.loads = objs.map fun d => .ok (.obj d)

namespace CreateRequest

/-- The request's input is this sequence of objects. -/
def Given (req : CreateRequest) (cw : Outer) (objs : List Dict) : Prop :=
  match req.prompts, req.rawNdjson, truthy req.sourceKey, req.promptsUrl with
  | some prompts, _, _, _ => prompts = objs.map .dict
  | none, some data, _, _ => RawGiven cw.rt data objs
  | none, none, some key, _ => ∃ content lines, cw.object key = .ok content ∧
    (promptLines content).mapM decodeUtf8 = some lines ∧
    lines.map cw.rt.loads = objs.map fun d => .ok (.obj d)
  | none, none, none, some url => ∃ data, cw.fetch url = .ok data ∧ RawGiven cw.rt data objs
  | none, none, none, none => False

/-- The prompts object is a copy. -/
def copies (req : CreateRequest) : Bool :=
  req.prompts.isNone && req.rawNdjson.isNone && (truthy req.sourceKey).isSome

/-- An object as the uploads write it. -/
def numbered (req : CreateRequest) (i : Nat) (d : Dict) : Dict :=
  if req.prompts.isSome then (Prompt.dict d).object i else d.setDefault "index" (.int i)

end CreateRequest

variable {cw : Outer} {rows : List NewBatch} {req : CreateRequest} {batch : NewBatch}
  {objs : List Dict}

theorem lookup_numbered {d : Dict} (h : d.lookup "index" = none) (i : Nat) :
    (req.numbered i d).lookup "index" = some (.int i) := by
  unfold CreateRequest.numbered
  split
  · have hmerge : (Dict.merge [("index", .int i)] d).lookup "index" = some (.int i) :=
      Dict.lookup_merge h
    simp [Prompt.object, Dict.setDefault, hmerge]
  · exact Dict.lookup_setDefault h

theorem rawNdjson_given {data prompts : Bytes} {total : Nat}
    (hgiven : RawGiven cw.rt data objs)
    (h : uploadRawNdjson cw.rt data = .ok (prompts, total)) :
    prompts = joinLines ((objs.mapIdx fun i d => d.setDefault "index" (.int i)).map dumpsDict) := by
  obtain ⟨lines, hlines, hobjs⟩ := hgiven
  obtain ⟨out, hout, h⟩ := bind_ok h
  cases h
  obtain ⟨lines', ds, hlines', hds, rfl⟩ := rawLoop_ok hout
  obtain rfl := Option.some.inj (hlines.symm.trans hlines')
  have hlength : lines.length = objs.length := by simpa using congrArg List.length hobjs
  congr 2
  refine List.ext_getElem (by simp [← hds.length_eq, hlength]) fun i hi hi' => ?_
  have hline : i < lines.length := by simpa [← hds.length_eq] using hi
  have hnormal := hds.get (by simpa using hline) hi
  have hobj : i < objs.length := hlength ▸ hline
  have hloads : cw.rt.loads lines[i] = .ok (.obj objs[i]) := by
    simpa [hline, hobj] using congrArg (·[i]?) hobjs
  simpa [normalizeLine, hloads, eq_comm] using hnormal.1

theorem ingest_numbered {prompts : Bytes} {total : Nat} (hgiven : req.Given cw objs)
    (hcopies : req.copies = false) (h : req.ingest cw = .ok (prompts, total)) :
    prompts = joinLines ((objs.mapIdx req.numbered).map dumpsDict) := by
  unfold CreateRequest.numbered
  unfold CreateRequest.Given at hgiven
  unfold CreateRequest.ingest at h
  unfold CreateRequest.copies at hcopies
  cases hp : req.prompts with
  | some inline =>
    simp only [hp] at hgiven h
    subst hgiven
    cases uploadPromptsNdjson_ok h
    congr 2
    exact List.ext_getElem (by simp) fun i _ _ => by simp
  | none =>
    cases hr : req.rawNdjson with
    | some data =>
      simp only [hp, hr] at hgiven h
      simpa using rawNdjson_given hgiven h
    | none =>
      cases hk : truthy req.sourceKey with
      | some key => simp [hp, hr, hk] at hcopies
      | none =>
        cases hu : req.promptsUrl with
        | some url =>
          simp only [hp, hr, hk, hu] at hgiven h
          obtain ⟨data, hdata, hgiven⟩ := hgiven
          obtain ⟨content, hcontent, h⟩ := bind_ok h
          obtain rfl := Except.ok.inj (hdata.symm.trans hcontent)
          simpa using rawNdjson_given hgiven h
        | none => simp only [hp, hr, hk, hu] at hgiven

theorem ingest_copied {prompts : Bytes} {total : Nat} (hgiven : req.Given cw objs)
    (hcopies : req.copies = true) (h : req.ingest cw = .ok (prompts, total)) :
    ∃ lines, (promptLines prompts).mapM decodeUtf8 = some lines ∧
      lines.map cw.rt.loads = objs.map fun d => .ok (.obj d) := by
  unfold CreateRequest.Given at hgiven
  unfold CreateRequest.ingest at h
  simp only [CreateRequest.copies, Bool.and_eq_true, Option.isNone_iff_eq_none] at hcopies
  obtain ⟨⟨hp, hr⟩, hk⟩ := hcopies
  obtain ⟨key, hk⟩ := Option.isSome_iff_exists.mp hk
  simp only [hp, hr, hk] at hgiven h
  obtain ⟨content, lines, hcontent, hlines, hobjs⟩ := hgiven
  obtain ⟨content', hcontent', h⟩ := bind_ok h
  obtain ⟨count, -, h⟩ := bind_ok h
  obtain rfl := Except.ok.inj (hcontent.symm.trans hcontent')
  cases h
  exact ⟨lines, hlines, hobjs⟩

/-- The jobs run on the batch that has been created. -/
structure RunsOn (env : Env) (cw : Outer) (batch : NewBatch) : Prop where
  prompts : env.spec.prompts = batch.prompts
  chunkSize : env.spec.chunkSize = batch.chunkSize
  loads : ∀ text, env.loads text = (cw.rt.loads text).toOption

theorem indexed_numbered {prompts : Bytes} {total : Nat} (hgiven : req.Given cw objs)
    (hcopies : req.copies = false) (h : req.ingest cw = .ok (prompts, total))
    (hbare : ∀ d ∈ objs, d.lookup "index" = none)
    (hround : ∀ i d, objs[i]? = some d →
      cw.rt.loads (dictText (req.numbered i d)) = .ok (.obj (req.numbered i d)))
    (henv : ∀ text, env.loads text = (cw.rt.loads text).toOption) :
    ∃ texts, (promptLines prompts).mapM decodeUtf8 = some texts ∧
      texts.length = objs.length ∧ Indexed env texts fun _ p => p := by
  rw [ingest_numbered hgiven hcopies h]
  refine ⟨_, texts_joinLines _, by simp, ⟨fun {p text} hp => ?_, fun _ _ _ h => Int.ofNat_le.mpr h⟩⟩
  obtain ⟨d, hd, rfl⟩ : ∃ d, objs[p]? = some d ∧ dictText (req.numbered p d) = text := by
    simpa using hp
  refine ⟨_, by rw [henv, hround p d hd]; rfl, fun offset => ?_⟩
  simp [itemIndex, lookup_numbered (hbare d (List.mem_of_getElem? hd))]

theorem indexed_copied {prompts : Bytes} {total : Nat} (hgiven : req.Given cw objs)
    (hcopies : req.copies = true) (h : req.ingest cw = .ok (prompts, total))
    (hbare : ∀ d ∈ objs, d.lookup "index" = none)
    (henv : ∀ text, env.loads text = (cw.rt.loads text).toOption) :
    ∃ texts, (promptLines prompts).mapM decodeUtf8 = some texts ∧
      texts.length = objs.length ∧ Indexed env texts fun offset _ => offset := by
  obtain ⟨texts, htexts, hobjs⟩ := ingest_copied hgiven hcopies h
  refine ⟨texts, htexts, by simpa using congrArg List.length hobjs,
    ⟨fun {p text} hp => ?_, fun _ _ _ _ => le_rfl⟩⟩
  have hloads : some (cw.rt.loads text) = objs[p]?.map fun d => .ok (.obj d) := by
    simpa [hp] using congrArg (·[p]?) hobjs
  obtain ⟨d, hd, hd'⟩ := Option.map_eq_some_iff.mp hloads.symm
  refine ⟨.obj d, by rw [henv, ← hd']; rfl, fun offset => ?_⟩
  simp [itemIndex, hbare d (List.mem_of_getElem? hd)]

/-- The i-th line of the results carries the index i. -/
def Numbered (store : Store) (total : Nat) : Prop :=
  ∃ outcomes, store.rows .results = some outcomes ∧
    Lines.cut lf (bodyOf outcomes) = (outcomes.map fun o => encodeUtf8 o.toJson.dumps, []) ∧
    outcomes.length = total ∧
    ∀ (i : Nat) (o : Outcome), outcomes[i]? = some o → o.toJson.get? "index" = some (.int i)

theorem get?_index_toJson (o : Outcome) : o.toJson.get? "index" = some (.int o.index) := by
  cases o <;> rfl

theorem numbered_iff {store : Store} {outcomes : List Outcome} {total : Nat} {index : Nat → Int}
    (h : store.rows .results = some outcomes)
    (hx : outcomes.map (·.index) = (List.range total).map index) :
    Numbered store total ↔ ∀ p < total, index p = p := by
  have hlength : outcomes.length = total := by simpa using congrArg List.length hx
  have hindex {p : Nat} {o : Outcome} (ho : outcomes[p]? = some o) : o.index = index p := by
    have hp : p < total := hlength ▸ (List.getElem?_eq_some_iff.mp ho).1
    simpa [ho, hp] using congrArg (·[p]?) hx
  constructor
  · rintro ⟨outcomes', h', -, -, hnum⟩ p hp
    obtain rfl := Option.some.inj (h.symm.trans h')
    have ho : outcomes[p]? = some outcomes[p] := List.getElem?_eq_getElem (hlength ▸ hp)
    have := (get?_index_toJson outcomes[p]).symm.trans (hnum p _ ho)
    rw [← hindex ho]
    simpa using this
  · intro hnum
    refine ⟨outcomes, h, ?_, hlength, fun p o ho => ?_⟩
    · have := cut_writeChunkResults (outcomes.map Outcome.toJson)
      rwa [List.map_map] at this
    · rw [get?_index_toJson, hindex ho, hnum p (hlength ▸ (List.getElem?_eq_some_iff.mp ho).1)]

/-- In input order, each line of a completed batch's results carries the index of its prompt
if and only if the prompts object is not a copy, or no chunk has more than one line. -/
theorem indexes_identify_iff (hcreate : createBatch cw rows req = .ok batch)
    (hnew : batch ∉ rows) (hgiven : req.Given cw objs)
    (hbare : ∀ d ∈ objs, d.lookup "index" = none)
    (hround : req.copies = false → ∀ i d, objs[i]? = some d →
      cw.rt.loads (dictText (req.numbered i d)) = .ok (.obj (req.numbered i d)))
    (henv : RunsOn env cw batch)
    (h : (workers env).Reach (fun _ _ => True) (created env now) w)
    (hc : w.shared.db.batch.status = .completed) :
    Numbered w.shared.store objs.length ↔
      req.copies = false ∨ batch.chunkSize = 1 ∨ objs.length = 1 := by
  obtain ⟨hbuild, -⟩ := (createBatch_cases hcreate).resolve_left hnew
  obtain ⟨prompts, total, hingest, hone, rfl⟩ := build_ok hbuild
  have hstream {texts : List String} (ht : (promptLines prompts).mapM decodeUtf8 = some texts) :
      streamTexts (env.reads env.spec.prompts) = some texts := by
    rw [streamTexts, streamLines_eq, env.flatten_reads, henv.prompts]
    exact ht
  cases hcopies : req.copies with
  | false =>
    obtain ⟨texts, htexts, hlength, hx⟩ :=
      indexed_numbered hgiven hcopies hingest hbare (hround hcopies) henv.loads
    obtain ⟨size, outcomes, -, -, hres, hindex⟩ := results_indexes h hc hx (hstream htexts)
    rw [hlength] at hindex
    simp [numbered_iff hres hindex]
  | true =>
    obtain ⟨texts, htexts, hlength, hx⟩ :=
      indexed_copied hgiven hcopies hingest hbare henv.loads
    obtain ⟨size, outcomes, hsize, hpos, hres, hindex⟩ := results_indexes h hc hx (hstream htexts)
    rw [hlength] at hindex
    have hne : 1 ≤ objs.length := by
      obtain ⟨texts', htexts', rfl⟩ := texts_of_ingest hingest
      obtain rfl := Option.some.inj (htexts.symm.trans htexts')
      rwa [hlength] at hone
    rw [numbered_iff hres hindex, ← henv.chunkSize, hsize]
    simp only [Nat.cast_inj, Bool.true_eq_false, false_or, Nat.cast_eq_one]
    constructor
    · -- in a chunk of two lines the second one gets the index of the first
      intro hnum
      by_contra hlarge
      have hdiv : 1 / size = 0 := Nat.div_eq_of_lt (by omega)
      simpa [hdiv] using hnum 1 (by omega)
    · rintro (rfl | hone) p hp
      · simp
      · obtain rfl : p = 0 := by omega
        simp

/-- `json.loads` of an object that is empty or has an index of one digit only. -/
def loadsIndex (text : String) : Json :=
  if '0' ∈ text.toList then .obj [("index", .int 0)]
  else if '1' ∈ text.toList then .obj [("index", .int 1)]
  else .obj []

/-- Two empty objects, on two lines of an upload or of an object of the bucket. -/
def emptyObjects : Outer :=
  { plainText with
    rt := { plainText.rt with loads := fun text => .ok (loadsIndex text) }
    object := fun _ => .ok [123, 125, lf, 123, 125, lf] }

def uploadedObjects : CreateRequest :=
  { rawNdjson := some [123, 125, lf, 123, 125], chunkSize := some 1 }

def copiedObjects : CreateRequest := { sourceKey := some "in.ndjson", chunkSize := some 2 }

/-- The batch of two uploaded objects. -/
def uploadedEnv : Env :=
  { twoPrompts 1 5 with
    spec :=
      { (twoPrompts 1 5).spec with
        prompts := joinLines [dumpsDict [("index", .int 0)], dumpsDict [("index", .int 1)]]
        lines_prompts := by decide +kernel }
    loads := fun text => some (loadsIndex text) }

theorem indexes_identify_iff_uploaded : ∃ batch w,
    createBatch emptyObjects [] uploadedObjects = .ok batch ∧
    uploadedObjects.Given emptyObjects [[], []] ∧
    (∀ i d, [([] : Dict), []][i]? = some d →
      emptyObjects.rt.loads (dictText (uploadedObjects.numbered i d)) =
        .ok (.obj (uploadedObjects.numbered i d))) ∧
    RunsOn uploadedEnv emptyObjects batch ∧
    (workers uploadedEnv).Reach (fun _ _ => True) (created uploadedEnv 0) w ∧
    w.shared.db.batch.status = .completed ∧
    (Numbered w.shared.store 2 ↔
      uploadedObjects.copies = false ∨ batch.chunkSize = 1 ∨ [([] : Dict), []].length = 1) := by
  have hcreate : (createBatch emptyObjects [] uploadedObjects).toOption.map
      (fun batch => (batch.prompts, batch.chunkSize)) = some (uploadedEnv.spec.prompts, 1) := by
    decide +kernel
  obtain ⟨batch, hbatch, hseen⟩ := ok_of_toOption hcreate
  obtain ⟨hprompts, hsize⟩ := Prod.mk.inj hseen
  have hgiven : uploadedObjects.Given emptyObjects [[], []] :=
    ⟨["{}", "{}"], by decide +kernel, rfl⟩
  have hround (i : Nat) (d : Dict) (h : [([] : Dict), []][i]? = some d) :
      emptyObjects.rt.loads (dictText (uploadedObjects.numbered i d)) =
        .ok (.obj (uploadedObjects.numbered i d)) := by
    match i with
    | 0 => cases h; rfl
    | 1 => cases h; rfl
    | i + 2 => cases h
  have henv : RunsOn uploadedEnv emptyObjects batch :=
    ⟨hprompts.symm, hsize.symm, fun _ => rfl⟩
  have hrun : ((workers uploadedEnv).run (fun _ _ => True) (created uploadedEnv 0)
      completedRun).map (·.shared.db.batch.status) = some .completed := by decide +kernel
  obtain ⟨w, hw, hc⟩ := Option.map_eq_some_iff.mp hrun
  exact ⟨batch, w, hbatch, hgiven, hround, henv, .of_run hw, hc,
    indexes_identify_iff hbatch (by simp) hgiven (by simp) (fun _ => hround) henv
      (.of_run hw) hc⟩

/-- The batch of two copied objects, with one chunk, and its run. -/
def copiedEnv : Env := { twoPrompts 2 5 with loads := fun text => some (loadsIndex text) }

def copiedRun : List Moves :=
  steps 0 7 ++ steps 1 3 ++ replied 1 0 true ++ replied 1 1 true ++
    steps 1 18

/-- Both results of the copied objects carry the index 0. -/
theorem copied_prompts_share_index : ∃ batch w,
    createBatch emptyObjects [] copiedObjects = .ok batch ∧
    copiedObjects.Given emptyObjects [[], []] ∧ RunsOn copiedEnv emptyObjects batch ∧
    (workers copiedEnv).Reach (fun _ _ => True) (created copiedEnv 0) w ∧
    w.shared.db.batch.status = .completed ∧ ¬ Numbered w.shared.store 2 := by
  have hcreate : (createBatch emptyObjects [] copiedObjects).toOption.map
      (fun batch => (batch.prompts, batch.chunkSize)) = some (copiedEnv.spec.prompts, 2) := by
    decide +kernel
  obtain ⟨batch, hbatch, hseen⟩ := ok_of_toOption hcreate
  obtain ⟨hprompts, hsize⟩ := Prod.mk.inj hseen
  have hrun : ((workers copiedEnv).run (fun _ _ => True) (created copiedEnv 0) copiedRun).map
      (fun w => (w.shared.db.batch.status,
        (w.shared.store.rows .results).map fun rows => rows.map (·.index))) =
      some (.completed, some [0, 0]) := by decide +kernel
  obtain ⟨w, hw, hseen⟩ := Option.map_eq_some_iff.mp hrun
  obtain ⟨hc, hindexes⟩ := Prod.mk.inj hseen
  obtain ⟨outcomes, hres, hx⟩ := Option.map_eq_some_iff.mp hindexes
  have hx' : outcomes.map (·.index) = (List.range 2).map fun _ => (0 : Int) := hx
  refine ⟨batch, w, hbatch, ⟨_, ["{}", "{}"], rfl, by decide +kernel, rfl⟩,
    ⟨hprompts.symm, hsize.symm, fun _ => rfl⟩, .of_run hw, hc, ?_⟩
  rw [numbered_iff hres hx']
  exact fun h => absurd (h 1 (by decide)) (by decide)

end BatchInference
