import BatchInference.Core.Uploads
import BatchInference.Workers.ChunkPhases

/-!
# Item isolation

What a job that started on a leased chunk leaves when it ends: the rows of all items, if and
only if each item has one that can be written.
-/

namespace BatchInference

open JobPool System

namespace Surroundings

variable {out : Surroundings} {env : Env} {i deferBy : Nat} {chunk : BatchChunk}
  {items : List Json} {s : Shared} {w w' : World Shared Frame}

theorem status_of_body {c : Choice} {pc : ProcessChunk.Body} {e : Effect Frame}
    (h : (Frame.processChunk i deferBy (.body chunk pc)).step env s c = some e) :
    (e.shared s).db.batch.status = s.db.batch.status := by
  rcases db_cases h with hdb | ⟨commit, hcommit, hdb⟩
  · rw [hdb]
  · rw [hdb]
    cases hcommit <;> rfl

theorem status_of_handler {c : Choice} {exc : String} {pc : ProcessChunk.Handler}
    {e : Effect Frame}
    (h : (Frame.processChunk i deferBy (.handler chunk exc pc)).step env s c = some e) :
    (e.shared s).db.batch.status = s.db.batch.status ∨
      (e.shared s).db.batch.status = .failed := by
  rcases db_cases h with hdb | ⟨commit, hcommit, hdb⟩
  · exact .inl (by rw [hdb])
  · rw [hdb]
    cases hcommit with
    | giveUp => exact column_eq_or _ _ _
    | retry => exact .inl (column_unchanged _ _)

theorem Live.fire {m : Move Choice Shared} (hreads : Reads env chunk items)
    (hleased : chunk.status = .leased) (hlive : out.Live env i deferBy chunk items w)
    (hm : Permitted out env i w m)
    (hf : (amid env).fire w m = some w') : out.Live env i deferBy chunk items w' := by
  obtain ⟨hphase, hbatch⟩ := hlive
  rcases hphase.fire_cases hm hf with ⟨s', -, hspares, rfl⟩ | ⟨c, pc, e, hpc, hdue, he, rfl⟩ |
    ⟨c, exc, pc, e, hpc, hdue, he, rfl⟩
  · exact ⟨hphase.spares hspares, hspares.status⟩
  · exact ⟨phase_body hreads hleased hbatch hpc hdue he, (status_of_body he).trans_ne hbatch⟩
  · refine ⟨phase_handler hpc hdue he, ?_⟩
    rcases status_of_handler he with hstatus | hstatus
    · exact hstatus.trans_ne hbatch
    · exact hstatus.trans_ne (by decide)

/-- Where all items are fine, the job leaves the status of the batch alone. -/
theorem Phase.status {k : Nat} {c : Choice} (hphase : out.Phase env i deferBy chunk items w)
    (hfine : out.AllFine env chunk items) (hm : Permitted out env i w (.act k c))
    (hf : (amid env).fire w (.act k c) = some w') :
    w'.shared.db.batch.status = w.shared.db.batch.status := by
  rcases hphase.fire_cases hm hf with ⟨s', hmove, -⟩ | ⟨c, pc, e, -, -, he, rfl⟩ |
    ⟨c, exc, pc, e, hpc, -⟩
  · cases hmove
  · exact status_of_body he
  · cases pc with
    | loadedChunk | loadedBatch => exact absurd hfine hpc.2.2
    | _ => exact absurd hfine hpc.2

/-- How many steps the job has left. -/
def stepsLeft (items : List Json) : Frame → Nat
  | .processChunk _ _ (.body _ pc) => match pc with
    | .reading => items.length + items.length + 9
    | .gathering _ seen outcomes => seen.countP (·.isNone) + outcomes.countP (·.isNone) + 8
    | .writing _ => 7
    | .written .. => 6
    | .loaded .. => 5
    | .flushed .. => 4
    | .recomputed .. => 3
    | .succeeded => 2
    | .cancelling | .cancelLoaded _ => 0
  | .processChunk _ _ (.handler _ _ pc) => match pc with
    | .failing => 4
    | .loadedChunk _ => 3
    | .loadedBatch .. => 2
    | .announceFailed | .reEnqueue => 1
  | _ => 0

/-- The job can take a step, and has fewer left after it. -/
def CanStep (out : Surroundings) (env : Env) (items : List Json) (s : Shared) (frame : Frame) :
    Prop :=
  ∃ c e, out.Due env frame c ∧ frame.step env s c = some e ∧
    ((worldOf e s).pool.map (stepsLeft items)).sum < stepsLeft items frame

theorem canStep_next_body {pc : ProcessChunk.Body} {e : Effect ProcessChunk.Body}
    (h : pc.step env s i chunk = some e)
    (hwrites : ∀ results, pc = .writing results →
      ∀ row ∈ results, row.writable out.writes = true)
    (hless : ((worldOf ((e.map (.body chunk)).map (.processChunk i deferBy)) s).pool.map
      (stepsLeft items)).sum < stepsLeft items (.processChunk i deferBy (.body chunk pc))) :
    CanStep out env items s (.processChunk i deferBy (.body chunk pc)) := by
  refine ⟨.next, _, .next ?_, ?_, hless⟩
  · intro chunk' results hpc
    cases hpc
    exact hwrites results rfl
  · simp [Frame.step, Frame.next, ProcessChunk.step, h]

theorem canStep_gathering {seen : List (Option BatchStatus)} {outcomes : List (Option Outcome)}
    (hpc : out.AtBody env i chunk items s (.gathering items seen outcomes)) :
    CanStep out env items s
      (.processChunk i deferBy (.body chunk (.gathering items seen outcomes))) := by
  obtain ⟨-, hrow, hrows, hseen, hopened⟩ := hpc
  by_cases hmissing : none ∈ outcomes
  · obtain ⟨j, hj⟩ := List.getElem?_of_mem hmissing
    have hlength : outcomes.length = items.length := by
      rw [← hrows.length_eq, length_rows]
    have hlt := hlength ▸ (List.getElem?_eq_some_iff.mp hj).1
    have hitem := List.getElem?_eq_getElem hlt
    cases hresults : out.results env chunk j items[j] with
    | none =>
      refine ⟨.raise "", _, .itemRaises hitem hresults, rfl, ?_⟩
      simp [worldOf, Effect.frames, Frame.raised, stepsLeft]
    | some results =>
      have hread := List.getElem?_eq_getElem (hseen.symm ▸ hlt)
      cases hstatus : seen[j] with
      | none =>
        rw [hstatus] at hread
        have hlook : ProcessChunk.Body.look s j (.gathering items seen outcomes) =
            some (.goto (.gathering items (seen.set j (some s.db.batch.status)) outcomes)) := by
          simp [ProcessChunk.Body.look, hread]
        refine ⟨.look j, _, .look, by simp [Frame.step, ProcessChunk.look, hlook]; rfl, ?_⟩
        simpa [worldOf, Effect.frames, stepsLeft] using countP_set_lt s.db.batch.status hread
      | some status =>
        rw [hstatus] at hread
        have hopen : status ≠ .cancelled := fun heq => hopened (heq ▸ List.mem_of_getElem? hread)
        obtain ⟨outcome, hrow⟩ := exists_row hresults
        rw [row, hresults, Option.bind_some, ← runOne_of_ne hopen] at hrow
        have hreply : ProcessChunk.Body.reply env chunk j results
            (.gathering items seen outcomes) =
              some (.goto (.gathering items seen (outcomes.set j (some outcome)))) := by
          simp [ProcessChunk.Body.reply, hitem, hread, hj, hrow]
        refine ⟨.reply j results, _, .reply hitem hresults,
          by simp [Frame.step, ProcessChunk.reply, hreply]; rfl, ?_⟩
        simpa [worldOf, Effect.frames, stepsLeft] using countP_set_lt outcome hj
  · obtain ⟨all, hall⟩ : ∃ all, outcomes.mapM id = some all := by
      refine exists_mapM fun o ho => ?_
      cases o with
      | none => exact absurd ho hmissing
      | some outcome => exact ⟨outcome, rfl⟩
    refine canStep_next_body (e := .goto (ProcessChunk.afterGather all)) ?_ ?_ ?_
    · simp [ProcessChunk.Body.step, hall]
    · intro results hpc
      cases hpc
    · unfold ProcessChunk.afterGather
      split_ifs <;> simp [worldOf, Effect.frames, stepsLeft]

theorem canStep_body {pc : ProcessChunk.Body} (hreads : Reads env chunk items)
    (hpc : out.AtBody env i chunk items s pc) :
    CanStep out env items s (.processChunk i deferBy (.body chunk pc)) := by
  cases pc with
  | reading =>
    refine canStep_next_body (e := .goto (.gathering items (List.replicate items.length none)
      (List.replicate items.length none))) ?_ (by simp) ?_
    · rw [Reads] at hreads
      simp [ProcessChunk.Body.step, hreads]
    · simp [worldOf, Effect.frames, stepsLeft, List.countP_replicate]
  | gathering given seen outcomes =>
    obtain rfl := hpc.1
    exact canStep_gathering hpc
  | cancelling | cancelLoaded => exact hpc.elim
  | writing results =>
    by_cases hwrites : ∀ row ∈ results, row.writable out.writes = true
    · refine canStep_next_body rfl ?_ ?_
      · rintro _ ⟨⟩
        exact hwrites
      · simp [worldOf, Effect.frames, stepsLeft]
    · obtain ⟨row, hmem, hrefused⟩ : ∃ row ∈ results, row.writable out.writes = false := by
        simpa using hwrites
      refine ⟨.raise "", _, .writeRaises hmem hrefused, rfl, ?_⟩
      simp [worldOf, Effect.frames, Frame.raised, stepsLeft]
  | written ok fail =>
    refine canStep_next_body (e := .goto (.loaded chunk ok fail)) ?_ (by simp) ?_
    · simp [ProcessChunk.Body.step, hpc.1]
    · simp [worldOf, Effect.frames, stepsLeft]
  | loaded | flushed | recomputed | succeeded =>
    refine canStep_next_body rfl (by simp) ?_
    simp [worldOf, Effect.frames, stepsLeft]

theorem canStep_handler {exc : String} {pc : ProcessChunk.Handler}
    (hpc : out.AtHandler env i chunk items s pc) :
    CanStep out env items s (.processChunk i deferBy (.handler chunk exc pc)) := by
  refine ⟨.next, _, .next (by simp), rfl, ?_⟩
  cases pc with
  | failing =>
    obtain ⟨⟨row, hrow, -⟩, -⟩ := hpc
    simp [worldOf, Effect.frames, ProcessChunk.Handler.step, hrow, stepsLeft]
  | loadedBatch row batch =>
    simp only [ProcessChunk.Handler.step]
    split_ifs <;> simp [worldOf, Effect.frames, Effect.done, stepsLeft]
  | loadedChunk | announceFailed | reEnqueue =>
    simp [worldOf, Effect.frames, ProcessChunk.Handler.step, stepsLeft]

theorem ended_or_move (hreads : Reads env chunk items)
    (hlive : out.Live env i deferBy chunk items w) :
    Ended w ∨ ∃ m w', Permitted out env i w m ∧ (amid env).fire w m = some w' ∧
      (w'.pool.map (stepsLeft items)).sum < (w.pool.map (stepsLeft items)).sum := by
  have hmove {s : Shared} {frame : Frame} (h : CanStep out env items s frame) :
      ∃ m w', Permitted out env i ⟨s, [frame]⟩ m ∧ (amid env).fire ⟨s, [frame]⟩ m = some w' ∧
        (w'.pool.map (stepsLeft items)).sum < ([frame].map (stepsLeft items)).sum := by
    obtain ⟨c, e, hdue, hstep, hless⟩ := h
    refine ⟨.act 0 c, worldOf e s, ⟨frame, rfl, hdue⟩, ?_, by simpa using hless⟩
    exact fire_act_iff.mpr ⟨frame, _, rfl, step_iff.mpr ⟨e, hstep, rfl⟩, rfl⟩
  obtain ⟨hphase, hbatch⟩ := hlive
  cases hphase with
  | body hpc => exact .inr (hmove (canStep_body hreads hpc))
  | handler hpc => exact .inr (hmove (canStep_handler hpc))
  | succeeded jobs | failed jobs => exact .inl ⟨jobs, rfl⟩

/-- The run from the leased chunk on. -/
abbrev Run (out : Surroundings) (env : Env) (i deferBy : Nat) (chunk : BatchChunk) (s : Shared) :
    World Shared Frame → Prop :=
  (amid env).Reach (Permitted out env i) ⟨s, [.processChunk i deferBy (.body chunk .reading)]⟩

theorem live_of_run (hrow : s.db.chunks[i]? = some chunk) (hleased : chunk.status = .leased)
    (hbatch : s.db.batch.status ≠ .cancelled) (hreads : Reads env chunk items)
    (hrun : Run out env i deferBy chunk s w) : out.Live env i deferBy chunk items w := by
  have hstart : out.AtBody env i chunk items s .reading := hrow
  exact Reach.invariant (A := fun _ => True) (fun _ _ => trivial) ⟨.body hstart, hbatch⟩
    (fun _ _ _ _ hlive hm hf => hlive.fire hreads hleased hm hf) hrun

/-- The job can always go on to its end. -/
theorem exists_ended (hreads : Reads env chunk items) (hleased : chunk.status = .leased)
    (hlive : out.Live env i deferBy chunk items w) :
    ∃ w', (amid env).Reach (Permitted out env i) w w' ∧ Ended w' := by
  refine Reach.exists_of_measure (fun v => (v.pool.map (stepsLeft items)).sum) ?_ hlive
  intro v hv
  refine (ended_or_move hreads hv).imp_right ?_
  rintro ⟨m, v', hm, hf, hless⟩
  exact ⟨m, v', hm, hf, hv.fire hreads hleased hm hf, hless⟩

theorem ended_cases (hlive : out.Live env i deferBy chunk items w) (hended : Ended w) :
    out.Complete env i chunk items w.shared ∧ out.AllFine env chunk items ∨
      out.Failed env i chunk items w.shared := by
  obtain ⟨hphase, -⟩ := hlive
  obtain ⟨jobs, hjobs⟩ := hended
  cases hphase with
  | body | handler =>
    cases jobs <;> cases hjobs
  | succeeded _ hdone hfine => exact .inl ⟨hdone, hfine⟩
  | failed _ hfailed => exact .inr hfailed

theorem Failed.not_complete (h : out.Failed env i chunk items s) :
    ¬ out.Complete env i chunk items s := by
  obtain ⟨⟨row, hrow, hstatus⟩, -⟩ := h
  rintro ⟨⟨row', hrow', hdone⟩, -⟩
  obtain rfl := Option.some.inj (hrow.symm.trans hrow')
  exact hstatus hdone

end Surroundings

open Surroundings

/-- From any world of the run the job can go on to its end. It ends with the chunk succeeded and
one row for each item if and only if all items are fine, and if they are it never changes the
status of the batch. An item and the replies to it go into no row but its own. -/
theorem isolated_iff {out : Surroundings} {env : Env} {i deferBy : Nat} {chunk : BatchChunk}
    {items : List Json} {s : Shared} (hrow : s.db.chunks[i]? = some chunk)
    (hleased : chunk.status = .leased) (hbatch : s.db.batch.status ≠ .cancelled)
    (hreads : Reads env chunk items) :
    (∀ w, Run out env i deferBy chunk s w →
      (∃ w', (amid env).Reach (Permitted out env i) w w' ∧ Ended w') ∧
      (Ended w → (out.Complete env i chunk items w.shared ↔ out.AllFine env chunk items)) ∧
      (out.AllFine env chunk items → ∀ k c w', Permitted out env i w (.act k c) →
        (amid env).fire w (.act k c) = some w' →
        w'.shared.db.batch.status = w.shared.db.batch.status)) ∧
    ∀ k out' env' chunk' items', AlikeBut k out out' env env' chunk chunk' items items' →
      ∀ j ≠ k, (out'.rows env' chunk' items')[j]? = (out.rows env chunk items)[j]? := by
  refine ⟨fun w hrun => ?_, fun k out' env' chunk' items' halike j hj => halike.rows hj⟩
  have hlive := live_of_run hrow hleased hbatch hreads hrun
  refine ⟨exists_ended hreads hleased hlive, fun hended => ?_, fun hfine k c w' hm hf =>
    hlive.1.status hfine hm hf⟩
  rcases ended_cases hlive hended with ⟨hdone, hfine⟩ | hfailed
  · exact iff_of_true hdone hfine
  · exact iff_of_false hfailed.not_complete hfailed.2

/-! ## Two prompts -/

/-- Two prompts as `create_batch` stores them, and a parser for what is read of them. -/
def uploaded (first second : Prompt) : Env :=
  { twoPrompts 2 5 with
    spec :=
      { (twoPrompts 2 5).spec with
        prompts := joinLines [dumpsDict (first.object 0), dumpsDict (second.object 1)]
        lines_prompts := by
          rw [promptLines_joinLines]
          · rfl
          · simp [dumpsDict_line] }
    loads := fun text =>
      ((knowing [.obj (first.object 0), .obj (second.object 1)]).loads text).toOption }

/-- The only chunk of such a batch, after its first lease. -/
def leasedChunk : BatchChunk where
  chunkIndex := 0
  offset := 0
  limit := 2
  status := .leased
  attempts := 1
  leasedUntil := some 300

def leasedAlone : Shared where
  db := { batch := { status := .running }, chunks := [leasedChunk] }
  store := .empty
  now := 0

/-- The provider answers every call. -/
def answering : Surroundings where
  up := { model := "gpt-4o-mini", provider := "openai", str := pyStr, encodes := fun _ => true }
  replies _ _ := .response 200 none "" <| some <|
    .obj [("choices", .arr [.obj [("message", .obj [("content", .str "hello")])]])]
  writes _ := true

theorem isolated_iff_uploaded :
    let env := uploaded (.str "hello") (.str "hi")
    let items := [.obj [("index", .int 0), ("prompt", .str "hello")],
      .obj [("index", .int 1), ("prompt", .str "hi")]]
    Reads env leasedChunk items ∧
    ∃ w, Run answering env 0 0 leasedChunk leasedAlone w ∧ Ended w ∧
      answering.Complete env 0 leasedChunk items w.shared := by
  intro env items
  have hreads : Reads env leasedChunk items := rfl
  have hfine : answering.AllFine env leasedChunk items := by
    intro j item hitem
    match j, hitem with
    | 0, rfl => exact fine_iff.mpr ⟨_, rfl, rfl⟩
    | 1, rfl => exact fine_iff.mpr ⟨_, rfl, rfl⟩
  obtain ⟨hruns, -⟩ := @isolated_iff answering env 0 0 leasedChunk items leasedAlone rfl rfl
    (by decide) hreads
  obtain ⟨⟨w, hrun, hended⟩, -⟩ := hruns _ .refl
  obtain ⟨-, hcomplete, -⟩ := hruns w hrun
  exact ⟨hreads, w, hrun, hended, (hcomplete hended).mpr hfine⟩

/-- An item brings `"abc"` for its index, and `int` raises. The other item is fine and is
answered, but the job cannot end with the chunk succeeded. -/
theorem bad_index_fails_chunk :
    let env := uploaded (.dict [("index", .str "abc")]) (.str "hi")
    let items := [.obj [("index", .str "abc")],
      .obj [("index", .int 1), ("prompt", .str "hi")]]
    Reads env leasedChunk items ∧
    answering.Fine env leasedChunk 1 (.obj [("index", .int 1), ("prompt", .str "hi")]) ∧
    (∃ w, Run answering env 0 0 leasedChunk leasedAlone w ∧ Ended w) ∧
    ∀ w, Run answering env 0 0 leasedChunk leasedAlone w → Ended w →
      (∃ row, w.shared.db.chunks[0]? = some row ∧ row.status ≠ .succeeded) ∧
      ¬ answering.Complete env 0 leasedChunk items w.shared := by
  intro env items
  have hreads : Reads env leasedChunk items := rfl
  have hlive {w : World Shared Frame} (hrun : Run answering env 0 0 leasedChunk leasedAlone w) :
      answering.Live env 0 0 leasedChunk items w :=
    live_of_run rfl rfl (by decide) hreads hrun
  refine ⟨hreads, fine_iff.mpr ⟨_, rfl, rfl⟩, exists_ended hreads rfl (hlive .refl), ?_⟩
  intro w hrun hended
  rcases ended_cases (hlive hrun) hended with ⟨-, hfine⟩ | hfailed
  · have hraises : answering.results env leasedChunk 0 (.obj [("index", .str "abc")]) = none := rfl
    exact absurd hfine (not_fine_of_raises rfl hraises)
  · exact ⟨hfailed.1, hfailed.not_complete⟩

end BatchInference
