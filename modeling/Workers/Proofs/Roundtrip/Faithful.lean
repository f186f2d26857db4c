import Workers.Proofs.Roundtrip.Launched
import Workers.Script.Run
/-! # Values go through a worker and come back

The values of a launch are captured, adopted, loaded, returned, captured again, adopted again,
published, copied and loaded once more.  At the end they are the same values, with shared tables in
the places of the local ones, and these make up the same graph.
-/
namespace Workers

variable {U N : Type}

namespace WorkerState

variable {lib : Library U N} {k : Payload} {w : World} {h : WorkerId} {c : ContextId}
    {x y : WorkerState U N}

/-- Results are copied out and loaded as the values that they stand for, and all tables stay as they
are. -/
theorem loads_results (hw : k.In w h) (htokens : Tokens k.registry k.values (w.handle h).result)
    (hcompleted : w.status h = .completed) {d : ContextId} (hd : d < w.contexts.size)
    (hregistry : (w.context d).registry = k.registry) :
    ∃ copies w₁ w₂, w.completedResult h = (copies,w₁) ∧
      w₁.loadAll d copies = (.ok k.values,w₂) ∧ w.store.Keeps w₂.store := by
  obtain ⟨copies,t,hcopy,hvalues,hhome,hkeeps,halive⟩ := Stored.copyAll_eq (s := w.store) htokens.home
    fun handle hmem => hw.alive (htokens.named hmem)
  have hlive : ∀ handle, Stored.shared handle ∈ copies →
    handle.registry = ((w.setStore t).context d).registry ∧
      (w.setStore t).store.isAlive ((w.setStore t).context d).registry handle.entry = true := by
    intro handle hmem
    have hsame : ((w.setStore t).context d).registry = k.registry := hregistry
    rw [hsame]
    exact ⟨hhome handle hmem,halive handle hmem⟩
  obtain ⟨w₂,hload,hchecks⟩ := World.loadAll_eq (w := w.setStore t) hd hlive
  rw [hvalues, htokens.values] at hload
  refine ⟨copies,w.setStore t,w₂,?_,hload,hkeeps.trans hchecks.keeps⟩
  rw [World.completedResult, if_pos hcompleted, World.copyResult, hcopy]

/-- An end is only announced when the results are there. -/
theorem CarriesPayload.announced (hx : x.CarriesPayload lib k h c)
    (hlatched : x.world.isLatched (.completion h) = true) :
    x.world.status h = .completed ∧ Tokens k.registry k.values (x.world.handle h).result ∧
    k.Intact x.world := by
  have hrunning : ¬ 1 < x.worker.stage.left := fun hleft => (hx.notEnded hleft).completed hlatched
  obtain ⟨w,⟨i,stage⟩⟩ := x
  have hstage := hx.stage
  cases hstage with
  | starting | running | collecting | destroying | judging | publishing | announcing =>
    exact absurd (by simp [Stage.left]) hrunning
  | leaving tokens announced owners intact => exact ⟨announced.completed,tokens,intact⟩
  | gone tokens announced intact => exact ⟨announced.completed,tokens,intact⟩

theorem CarriesPayload.latched (hx : x.CarriesPayload lib k h c) (hgone : x.worker.stage = .gone) :
    x.world.isLatched (.completion h) = true := by
  have hstage := hx.stage
  rw [hgone] at hstage
  cases hstage with
  | gone tokens announced intact => exact announced.latched

end WorkerState

/-- While the tables made are there as they were, the shared tables of the graph are alive with them. -/
theorem Copied.alive_of_intact {hp : Heap} {vs : List Value} {s t : Store} {r : RegistryId}
    {objects : List Stored} {cells : List CellId} {entry : CellId → EntryId}
    (hc : Copied hp vs s r objects t cells entry) {w : World} {h : WorkerId}
    (hw : w.KeepsEntries h r (vs.map (Value.carried entry)))
    (hkept : t.Preserves (Address.made hp vs r entry) w.store) :
    ∀ id, hp.Occurs vs (.shared id) → w.store.isAlive r id = true := by
  intro id hid
  cases hid with
  | root hv => exact hw.alive (List.mem_map.mpr ⟨_,hv,rfl⟩)
  | @slot b table v hb hread hv =>
    obtain ⟨out,hout⟩ := hw.accounted
    have hsame := hkept ⟨r,entry b⟩ ⟨rfl,b,hb,rfl⟩
    exact hout.live_of_points ((hc.points hb hread hv rfl).congr hsame)

/-- A launch with the values of an acyclic graph of live, readable tables, in a runtime that is not
shutting down, of a routine that returns its arguments unchanged, starts a worker.  Its context is
`d`.  Whatever others do, as long as they do not stop the worker or touch what was made for it, it
can go on to its end.  Its completion is not announced before its status is `Completed`; and from
then on its results, loaded into any context of the registry, are the values in the same order, with
the tables of an isomorphic graph of shared tables in the places of the local ones. -/
theorem System.launch_hands_back {lib : Library U N} {e : GlobalState} (he : e.Arises lib)
    {l : Launcher} {c : ContextId} {vs : List Value} (hpool : l.pool < e.world.pools.size)
    (hregistry : (e.world.context c).registry = (e.world.pool l.pool).registry)
    (hopen : (e.world.pool l.pool).requested = false)
    (hv : e.world.memory.heap.Storable vs e.world.store (e.world.context c).registry)
    (hechoes : lib.Echoes l.routine) (threads : Array (Thread (Frame U N))) :
    ∃ t s worker d entry, System.launch ⟨e.world,threads⟩ l c vs = (.ok (worker.handle,t),s) ∧
      s.threads[t]? = some (.worker worker) ∧ (s.world.handle worker.handle).context = some d ∧
      ∀ x, Relation.ReflTransGen (WorkerState.StepAmongOthers lib d
        (Address.made e.world.memory.heap vs (e.world.context c).registry entry))
          ⟨s.world,worker⟩ x →
        (∃ y, Relation.ReflTransGen (WorkerState.StepAmongOthers lib d
            (Address.made e.world.memory.heap vs (e.world.context c).registry entry)) x y ∧
          y.worker.stage = .gone) ∧
        (x.worker.stage = .gone → x.world.isLatched (.completion worker.handle) = true) ∧
        (x.world.isLatched (.completion worker.handle) = true → x.world.status worker.handle =
          .completed ∧
          ∀ i, i < x.world.contexts.size → (x.world.context i).registry =
          (e.world.context c).registry →
            ∃ copies w₁ w₂, x.world.completedResult worker.handle = (copies,w₁) ∧
              w₁.loadAll i copies = (.ok (vs.map (Value.carried entry)),w₂) ∧
              Carried e.world.memory.heap vs e.world.store (e.world.context c).registry entry
                w₂.store) := by
  set r := (e.world.context c).registry
  have hw : e.world.Accounted e.shares := he.accounted.world
  have hr : r < e.world.store.registries.size := by
    rw [hregistry]
    exact hw.pools l.pool _ (by simp [World.pool, hpool])
  obtain ⟨objects,t,cells,entry,hcapture,hcopied,hcaptured⟩ := World.captureArguments_copied hw hr hv
  let k : Payload :=
    { registry := r
      values := vs.map (Value.carried entry)
      store := t
      tables := Address.made e.world.memory.heap vs r entry
      foreign := fun cell hmem => by
        obtain ⟨v,_,heq⟩ := List.mem_map.mp hmem
        exact Value.carried_ne_table entry v cell heq
      rooted := hcopied.rooted }
  obtain ⟨h,d,adopted,w',hprepare,hcarries⟩ := WorkerState.prepare_carriesPayload (k := k) (p := l.pool)
    hcaptured hpool hopen hregistry.symm hcopied.values_eq
    (fun handle hmem => hcopied.strong_of_mem hmem) hechoes (.refl _ _) l.config
  have hlaunch : System.launch ⟨e.world,threads⟩ l c vs = (.ok (h,threads.size),
      ⟨w',threads.push (.worker ⟨h,.starting l.routine adopted⟩)⟩) := by
    have hsame : ¬ (e.world.context c).registry ≠ (e.world.pool l.pool).registry :=
      fun hne => hne hregistry
    simp only [System.launch, World.launchArguments, if_neg hsame]
    rw [hcapture]
    simp only [System.spawn, hprepare]
    rfl
  have hown : (w'.handle h).context = some d := by
    cases hcarries.stage with
    | starting echoes tokens context => exact context
  refine ⟨threads.size,_,⟨h,.starting l.routine adopted⟩,d,entry,hlaunch,by simp,hown,fun x hrun => ?_⟩
  have hx : x.CarriesPayload lib k h d := hcarries.run hrun
  refine ⟨hx.arrives,hx.latched,fun hlatched => ?_⟩
  · obtain ⟨hcompleted,htokens,hintact⟩ := hx.announced hlatched
    refine ⟨hcompleted,fun i hi hcontext => ?_⟩
    obtain ⟨copies,w₁,w₂,hresult,hload,hkeeps⟩ :=
      WorkerState.loads_results hx.keepsEntries htokens hcompleted hi hcontext
    refine ⟨copies,w₁,w₂,hresult,hload,hcopied.carried hv
      (Store.Preserves.trans hintact (hkeeps.preserves _)) ?_⟩
    intro id hid
    rw [hkeeps.isAlive]
    exact hcopied.alive_of_intact hx.keepsEntries hintact id hid

def Script.echoing : Library Runner Activation := library #[.native "echo" #[.finishArguments]]

theorem Script.echoes_echoing : Script.echoing.Echoes ⟨"echo",0⟩ :=
  Library.echoes_of_finish fun _ => ⟨_,_,rfl,rfl⟩

def GlobalState.diamondShared : GlobalState :=
  run [.newPool,.newContext 0,.create 0 [],.ask 0 .newTable,.ask 0 .newTable,
  .ask 0 (.set (.table 0) (.integer 1) (.table 1)),.ask 0 (.set (.table 0) (.integer 2) (.table 1)),
  .ask 0 (.set (.table 1) (.string "n") (.integer 7)),.ask 0
  (.set (.table 1) (.string "t") (.shared ⟨0,0⟩))]

theorem System.launch_hands_back_diamond :
    let e := GlobalState.diamondShared
    let l := Launcher.ofRoutine 0 ⟨"echo",0⟩
    let vs : List Value := [.table 0,.table 1]
    (e.Arises Script.echoing ∧ l.pool < e.world.pools.size ∧
      (e.world.context 0).registry = (e.world.pool l.pool).registry ∧
      (e.world.pool l.pool).requested = false ∧
      e.world.memory.heap.Storable vs e.world.store (e.world.context 0).registry ∧
      Script.echoing.Echoes l.routine) ∧
    ∃ t s worker d entry, System.launch ⟨e.world,#[]⟩ l 0 vs = (.ok (worker.handle,t),s) ∧
      s.threads[t]? = some (.worker worker) ∧ (s.world.handle worker.handle).context = some d ∧
      ∀ x, Relation.ReflTransGen (WorkerState.StepAmongOthers Script.echoing d
          (Address.made e.world.memory.heap vs (e.world.context 0).registry entry)) ⟨s.world,worker⟩ x →
        (∃ y, Relation.ReflTransGen (WorkerState.StepAmongOthers Script.echoing d
            (Address.made e.world.memory.heap vs (e.world.context 0).registry entry)) x y ∧
          y.worker.stage = .gone) ∧
        (x.worker.stage = .gone → x.world.isLatched (.completion worker.handle) = true) ∧
        (x.world.isLatched (.completion worker.handle) = true → x.world.status worker.handle =
          .completed ∧
          ∀ i, i < x.world.contexts.size → (x.world.context i).registry = (e.world.context 0).registry →
            ∃ copies w₁ w₂, x.world.completedResult worker.handle = (copies,w₁) ∧
              w₁.loadAll i copies = (.ok (vs.map (Value.carried entry)),w₂) ∧
              Carried e.world.memory.heap vs e.world.store (e.world.context 0).registry entry
              w₂.store) := by
  intro e l vs
  have he : e.Arises Script.echoing := GlobalState.arises_run _ _
  have hheap : e.world.memory.heap = Heap.diamond := rfl
  have hpool : l.pool < e.world.pools.size := by decide
  have hregistry : (e.world.context 0).registry = (e.world.pool l.pool).registry := by rfl
  have hopen : (e.world.pool l.pool).requested = false := by rfl
  have hv : e.world.memory.heap.Storable vs e.world.store (e.world.context 0).registry := by
    rw [hheap]
    exact Heap.diamond_storable (by rfl)
  have hechoes : Script.echoing.Echoes l.routine := Script.echoes_echoing
  exact ⟨⟨he,hpool,hregistry,hopen,hv,hechoes⟩,launch_hands_back he hpool hregistry hopen hv hechoes #[]⟩

end Workers
