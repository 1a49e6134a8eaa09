import BatchInference.Workers.Checkpoint
import BatchInference.Workers.Determined

/-!
# Counts and rows with a provider that repeats itself

Executions of a chunk overwrite each other's checkpoint, and the counts are committed apart from
it. If the provider's result depends on the request only, what is overwritten is the same,
so that rows, checkpoints and manifest describe the results in every serial run.
-/

namespace BatchInference

open JobPool System

namespace Responder

variable {p : Responder} {env : Env} {now : Int} {s : Shared} {frame : Frame} {c : Choice}
  {e : Effect Frame} {v v' w : World Shared Frame} {m : Moves}

/-- A job that has put its checkpoint goes by the counts of the checkpoint. -/
def Tallied (p : Responder) (env : Env) (s : Shared) : Frame → Prop
  | .processChunk i _ (.body chunk pc) => match pc with
    | .written ok fail | .loaded _ ok fail | .flushed _ ok fail | .recomputed _ ok fail _ =>
      (s.store.rows (.chunk i)).isSome = true ∧
        ∃ rows, p.segment env chunk.place = some rows ∧ splitOf rows = (ok, fail)
    | _ => True
  | _ => True

/-- The manifest describes what the provider makes of the prompts. -/
def Describes (p : Responder) (env : Env) (manifest : Manifest) : Prop :=
  ∃ parts, env.plan.mapM (p.segment env) = some parts ∧
    manifest.chunks.map ManifestEntry.counts = parts.map splitOf ∧
    manifest.completedItems = parts.flatten.length ∧
    manifest.failedItems = failCount parts.flatten

/-- The checkpoint of a job's chunk is what the provider makes of it. -/
theorem Stored.segment_eq {i : Nat} {chunk : BatchChunk} {rows outcomes : List Outcome}
    (hs : p.Stored env s) (hv : Valid env s) (hl : Loaded s i chunk)
    (hrows : s.store.rows (.chunk i) = some outcomes)
    (hsegment : p.segment env chunk.place = some rows) : outcomes = rows := by
  obtain ⟨row, hrow, hplace, -⟩ := hl
  obtain ⟨entry, hentry, hstored⟩ := hs.segment hrows
  obtain rfl : entry = chunk.place :=
    Option.some.inj (hentry.symm.trans (hplace ▸ hv.plan_of_row hrow))
  exact Option.some.inj (hstored.symm.trans hsegment)

theorem tallied_grow {put : Put} (h : p.Tallied env s frame) :
    p.Tallied env { s with store := put.apply s.store } frame := by
  have grow {i : Nat} (hsome : (s.store.rows (.chunk i)).isSome = true) :
      ((put.apply s.store).rows (.chunk i)).isSome = true := by
    cases put with
    | rows key content =>
      simp only [Put.apply]
      split
      · rfl
      · exact hsome
    | manifest => exact hsome
  cases frame with
  | processChunk i deferBy pc =>
    cases pc with
    | body chunk pc =>
      cases pc with
      | written | loaded | flushed | recomputed => exact ⟨grow h.1, h.2⟩
      | _ => trivial
    | _ => trivial
  | _ => trivial

theorem tallied_shared (h : frame.step env s c = some e) {f : Frame} (hf : p.Tallied env s f) :
    p.Tallied env (e.shared s) f := by
  rcases shared_cases h with hs | ⟨commit, -, hs⟩ | ⟨put, -, hs⟩ <;> rw [hs]
  · exact hf
  · exact hf
  · exact tallied_grow hf

theorem tallied_of_body {i deferBy : Nat} {chunk : BatchChunk} {pc pc' : ProcessChunk.Body}
    {e : Effect ProcessChunk.Body} (hholds : p.Holds env (.processChunk i deferBy (.body chunk pc)))
    (hf : p.Tallied env s (.processChunk i deferBy (.body chunk pc)))
    (h : pc.step env s i chunk = some e) (hpc : e.next = some pc') :
    p.Tallied env { s with store := e.put.elim s.store (·.apply s.store) }
      (.processChunk i deferBy (.body chunk pc')) := by
  have hgoes := ProcessChunk.Body.goes_of_step h hpc
  generalize e.commit = commit, e.put = put at hgoes ⊢
  cases hgoes with
  | write => exact ⟨by simp [Put.apply], _, hholds, rfl⟩
  | load | flush | recompute => exact hf
  | _ => trivial

theorem tallied_frames (hholds : p.Holds env frame) (hf : p.Tallied env s frame)
    (h : frame.step env s c = some e) : ∀ f ∈ e.frames, p.Tallied env (e.shared s) f := by
  intro f hm
  cases f with
  | processChunk i deferBy pc =>
    obtain ⟨-, rfl, -⟩ | ⟨pc₀, rfl, hgoes⟩ := processChunk_of_step h hm
    · trivial
    · generalize e.commit = commit at hgoes
      cases hgoes with
      | @body chunk pc pc' e₀ h₀ hpc =>
        obtain rfl : e = (e₀.map (.body chunk)).map (.processChunk i deferBy) := by
          simpa [Frame.step, Frame.next, ProcessChunk.step, h₀] using h.symm
        exact tallied_of_body hholds hf h₀ hpc
      | _ => trivial
  | _ => trivial

/-! ## One step -/

/-- What a serial run with such a provider keeps. -/
structure Told (p : Responder) (env : Env) (v : World Shared Frame) : Prop where
  agree : Agree v.shared
  tallied : ∀ f ∈ v.pool, p.Tallied env v.shared f
  manifest : ∀ manifest, v.shared.store.manifest = some manifest →
    p.Describes env manifest ∧ (v.shared.store.rows .results).isSome = true

/-- The condition under which rows and checkpoints agree is met. -/
theorem splitKept (hv : Valid env v.shared) (hok : ∀ f ∈ v.pool, f.Ok env v.shared)
    (hs : p.Stored env v.shared) (hholds : ∀ f ∈ v.pool, p.Holds env f) (h : p.Told env v) :
    SplitKept env v m := by
  refine ⟨fun i outcomes hput row hrow hst => ?_, fun i loaded new n hcommit => ?_⟩
  · cases m with
    | env e => cases hput
    | act k c =>
      obtain ⟨frame, hk, hput⟩ := Option.bind_eq_some_iff.mp hput
      obtain ⟨e, he, hput⟩ := Option.bind_eq_some_iff.mp hput
      have hmem := List.mem_of_getElem? hk
      rcases write_cases he with ⟨⟨-, hp⟩, -⟩ | ⟨commit, ⟨-, hp⟩, -⟩ | ⟨put, ⟨-, hp⟩, hputs, -⟩
      · cases hp.symm.trans hput
      · cases hp.symm.trans hput
      · obtain rfl := Option.some.inj (hp.symm.trans hput)
        obtain ⟨key, outcomes', hkey, hobject, hcounts⟩ := h.agree i row hrow hst
        obtain rfl := hv.key hrow key hkey
        cases hputs
        obtain rfl := hs.segment_eq hv (hok _ hmem).1 hobject (hholds _ hmem)
        exact hcounts
  · obtain ⟨frame, hmem, hcommits⟩ := commits_of_commitOf hcommit
    cases hcommits with
    | success =>
      obtain ⟨hsome, rows, hsegment, hsplit⟩ := h.tallied _ hmem
      obtain ⟨outcomes, hobject⟩ := Option.isSome_iff_exists.mp hsome
      obtain rfl := hs.segment_eq hv (hok _ hmem).1 hobject hsegment
      exact ⟨outcomes, hobject, hsplit⟩

/-- The manifest is written from rows that are all succeeded, each with the counts of its
checkpoint. -/
theorem describes_of_rows {snap : Finalize.Snapshot} (hv : Valid env s) (hs : p.Stored env s)
    (hagree : Agree s) (hcounted : Counted env s.db) (hbatch : snap.batch = s.db.batch)
    (hrows : snap.rows = s.db.chunks) :
    p.Describes env (Finalize.manifestOf env snap.batch snap.rows) := by
  have hcomplete := snap.complete
  rw [hrows] at hcomplete
  push Not at hcomplete
  obtain ⟨hne, hall⟩ := hcomplete
  have hplan := hv.planned.resolve_left hne
  have hparts : ∀ row ∈ s.db.chunks, ∃ rows,
      p.segment env row.place = some rows ∧ splitOf rows = row.counts := by
    intro row hm
    obtain ⟨i, hi⟩ := List.getElem?_of_mem hm
    obtain ⟨key, outcomes, hkey, hobject, hcounts⟩ := hagree i row hi (hall row hm)
    obtain rfl := hv.key hi key hkey
    obtain ⟨entry, hentry, hsegment⟩ := hs.segment hobject
    obtain rfl := Option.some.inj (hentry.symm.trans (hv.plan_of_row hi))
    exact ⟨outcomes, hsegment, hcounts⟩
  obtain ⟨parts, hmap⟩ := exists_mapM (f := fun row => p.segment env row.place)
    fun row hm => (hparts row hm).imp fun _ h => h.1
  have hrel := forall₂_of_mapM hmap
  have hsplits : parts.map splitOf = s.db.chunks.map BatchChunk.counts := by
    refine List.ext_getElem (by simpa using hrel.length_eq.symm) fun i hi hi' => ?_
    rw [List.length_map] at hi hi'
    obtain ⟨rows, hsegment, hcounts⟩ := hparts _ (List.getElem_mem hi')
    obtain rfl := Option.some.inj (hsegment.symm.trans (hrel.get hi' hi))
    simpa using hcounts
  obtain ⟨hcompleted, hfailed⟩ := hcounted.exact hne hall
  refine ⟨parts, ?_, ?_, ?_, ?_⟩
  · rw [← hplan]
    exact mapM_of_forall₂ (List.forall₂_map_left_iff.mpr hrel)
  · rw [hsplits, hrows]
    simp [Finalize.manifestOf, Function.comp_def, ManifestEntry.counts, BatchChunk.counts]
  · have htotal := (recompute_total hplan hne hcounted.splits).2.mpr hall
    rw [completedItems_of_all hall] at htotal
    rw [length_flatten_eq, hsplits, List.map_map]
    exact (hbatch ▸ hcompleted).trans htotal.symm
  · rw [failCount_flatten, hsplits, List.map_map]
    exact hbatch ▸ hfailed

/-! ## Every serial run -/

theorem Told.fire (hr : (workers env).Reach Atomic (created env now) v)
    (hs : p.Stored env v.shared ∧ ∀ f ∈ v.pool, p.Holds env f) (h : p.Told env v)
    (hf : (workers env).fire v m = some v') : p.Told env v' := by
  obtain ⟨hv, hok⟩ := ok_of_reach hr
  have hagree := (agree_iff hr h.agree hf).mpr (splitKept hv hok hs.1 hs.2 h)
  rcases fire_cases hf with ⟨jobs, -, -, hstore, -, hpool⟩ |
    ⟨k, c, frame, e, rfl, hk, he, -, hshared, hpool⟩
  · refine ⟨hagree, forall_pool_of_queued hpool (fun f hm => ?_) fun _ => trivial, ?_⟩
    · have hf := h.tallied f hm
      unfold Tallied at hf ⊢
      rwa [hstore]
    · rw [hstore]
      exact h.manifest
  · have hmem := List.mem_of_getElem? hk
    refine ⟨hagree, fun f hm => ?_, ?_⟩
    · rw [hshared]
      rcases List.mem_append.mp (hpool ▸ hm) with hm | hm
      · exact tallied_shared he (h.tallied f (mem_of_mem_others hm))
      · exact tallied_frames (hs.2 _ hmem) (h.tallied _ hmem) he f hm
    · rw [hshared]
      rcases shared_cases he with hsh | ⟨commit, -, hsh⟩ | ⟨put, hput, hsh⟩ <;> rw [hsh]
      · exact h.manifest
      · exact h.manifest
      · intro manifest hmanifest
        cases hput with
        | chunk => exact h.manifest manifest hmanifest
        | results => exact ⟨(h.manifest manifest hmanifest).1, by simp [Put.apply]⟩
        | @manifest snap =>
          obtain rfl := Option.some.inj hmanifest
          obtain ⟨hbatch, hrows⟩ := snapshot_of_reach hr _ hmem
          exact ⟨describes_of_rows hv hs.1 h.agree (counted_of_reach hr) hbatch hrows,
            (hok _ hmem).2.2⟩

theorem told_of_reach (h : (workers env).Reach (fun v m => Atomic v m ∧ p.Answers env v m)
    (created env now) w) : p.Told env w := by
  refine Reach.invariant (P := p.Told env)
    (A := fun v => (workers env).Reach Atomic (created env now) v ∧
      p.Stored env v.shared ∧ ∀ f ∈ v.pool, p.Holds env f)
    (fun v hv => ⟨hv.mono fun _ _ hm => hm.1, stored_of_reach (hv.mono fun _ _ hm => hm.2)⟩)
    ⟨?_, ?_, ?_⟩ (fun v m v' hA hP _ hf => hP.fire hA.1 hA.2 hf) h
  all_goals simp [created, Agree, Tallied, Store.empty]

end Responder

open Responder

/-- In a serial run with a provider whose result depends on the request only, a succeeded row
counts its checkpoint's outcomes whoever has put it, and a manifest counts those of the
results. -/
theorem manifest_describes {p : Responder} {env : Env} {now : Int} {w : World Shared Frame}
    (h : (workers env).Reach (fun v m => Atomic v m ∧ p.Answers env v m) (created env now) w) :
    Agree w.shared ∧ ∀ manifest, w.shared.store.manifest = some manifest →
      ∃ parts : List (List Outcome), w.shared.store.rows .results = some parts.flatten ∧
        manifest.chunks.map ManifestEntry.counts = parts.map splitOf ∧
        manifest.completedItems = parts.flatten.length ∧
        manifest.failedItems = failCount parts.flatten := by
  have htold := told_of_reach h
  refine ⟨htold.agree, fun manifest hmanifest => ?_⟩
  obtain ⟨⟨parts, hparts, hcounts⟩, hsome⟩ := htold.manifest manifest hmanifest
  obtain ⟨rows, hrows⟩ := Option.isSome_iff_exists.mp hsome
  have hresults := (stored_of_reach (h.mono fun _ _ hm => hm.2)).1.results hrows
  rw [Responder.results, hparts, Option.map_some] at hresults
  exact ⟨parts, hrows.trans hresults.symm, hcounts⟩

theorem manifest_describes_uploaded : ∃ w manifest,
    (workers uploadedEnv).Reach (fun v m => Atomic v m ∧ greeting.Answers uploadedEnv v m)
      (created uploadedEnv 0) w ∧
    w.shared.store.manifest = some manifest ∧
    ∃ parts : List (List Outcome), w.shared.store.rows .results = some parts.flatten ∧
      manifest.chunks.map ManifestEntry.counts = parts.map splitOf ∧
      manifest.completedItems = parts.flatten.length ∧
      manifest.failedItems = failCount parts.flatten := by
  have hrun : ((workers uploadedEnv).run Atomic (created uploadedEnv 0)
      (completedRun.map greeted)).map (·.shared.store.manifest.isSome) = some true := by
    decide +kernel
  obtain ⟨w, hw, hsome⟩ := Option.map_eq_some_iff.mp hrun
  obtain ⟨manifest, hmanifest⟩ := Option.isSome_iff_exists.mp hsome
  have halong : (workers uploadedEnv).Along (fun v m _ => greeting.Answers uploadedEnv v m)
      (created uploadedEnv 0) (completedRun.map greeted) :=
    Along.of_mem .refl <| List.forall_mem_map.mpr fun m _ _ _ => greeting_answers m
  have hreach := halong.reach hw
  exact ⟨w, manifest, hreach, hmanifest, (manifest_describes hreach).2 manifest hmanifest⟩

end BatchInference
