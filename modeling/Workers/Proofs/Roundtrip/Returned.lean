import Workers.Proofs.Handover.Uninterrupted
import Workers.Proofs.Roundtrip.Echo
import Workers.Proofs.Roundtrip.Tokens
/-! # A worker that hands back what it was given

From one stage of a worker to the next the arguments of a routine that returns them unchanged are its
arguments, its values and its results.  The worker keeps what they name, so all that they lead to stays
as it was, and nothing can stop the worker on the way to its end.
-/
namespace Workers

variable {U N : Type}

/-- Values that a worker is given, and tables that they lead to as a store has them. -/
structure Payload where
  registry : RegistryId
  values : List Value
  store : Store
  tables : Set Address
  foreign : ∀ cell, Value.table cell ∉ values
  rooted : store.Rooted (Address.named registry values) tables

namespace Payload

variable {k : Payload} {w w' : World} {h : WorkerId} {c : ContextId}

def Intact (k : Payload) (w : World) : Prop := k.store.Preserves k.tables w.store

abbrev In (k : Payload) (w : World) (h : WorkerId) : Prop := w.KeepsEntries h k.registry k.values

theorem Intact.onlyRemoves (hk : k.Intact w) (hw : k.In w' h)
    (hremoves : w.store.OnlyRemoves w'.store) : k.Intact w' :=
  hw.preserves k.rooted hk hremoves

theorem Intact.othersStep (hk : k.Intact w) (ha : w.OthersStep h c k.tables w') : k.Intact w' :=
  Store.Preserves.trans hk ha.tables

end Payload

inductive WorkerState.StepAmongOthers (lib : Library U N) (c : ContextId) (Y : Set Address) :
    WorkerState U N → WorkerState U N → Prop
  | work {x y : WorkerState U N} (hworks : Works lib x y) : StepAmongOthers lib c Y x y
  | other {x : WorkerState U N} {w : World} (hothers : x.world.OthersStep x.worker.handle c Y w) :
      StepAmongOthers lib c Y x ⟨w,x.worker⟩

structure World.Announced (w : World) (h : WorkerId) : Prop where
  completed : w.status h = .completed
  latched : w.isLatched (.completion h) = true

/-- What a worker has at each stage of the values that it was given. -/
inductive Stage.CarriesPayload (lib : Library U N) (k : Payload) (h : WorkerId) (c : ContextId)
    (w : World) : Stage (Frame U N) → Prop
  | starting {f : Routine} {objects : List Stored} (echoes : lib.Echoes f)
      (tokens : Tokens k.registry k.values objects) (context : (w.handle h).context = some c)
      (hook : (w.context c).hook = some (.worker h)) (going : (w.context c).stopping = false)
      (unstopped : w.Unstopped h) (dedicated : w.Dedicated h c k.registry) (intact : k.Intact w) :
      CarriesPayload lib k h c w (.starting f objects)
  | running {w₀ : World} {f : Routine} {s : Strand (Frame U N)} (echoes : lib.Echoes f)
      (ready : w₀.Ready h c k.registry k.values) (unstopped : w.Unstopped h)
      (dedicated : w.Dedicated h c k.registry) (probes : Strand.Probes c (· ≠ .stop) w s)
      (intact : k.Intact w₀)
      (run : Relation.ReflTransGen (Strand.StepAmongOthers lib h c k.tables)
        (w₀,.ofCall f k.values) (w,s)) :
      CarriesPayload lib k h c w (.running c s)
  | collecting (dedicated : w.Dedicated h c k.registry) (intact : k.Intact w) :
      CarriesPayload lib k h c w (.collecting c k.values)
  | destroying {results : List Stored} (tokens : Tokens k.registry k.values results)
      (dedicated : w.Dedicated h c k.registry) (intact : k.Intact w) :
      CarriesPayload lib k h c w (.destroying c (.completed results))
  | judging {results : List Stored} (tokens : Tokens k.registry k.values results)
      (owners : 2 ≤ (w.handle h).owners) (intact : k.Intact w) :
      CarriesPayload lib k h c w (.judging (.completed results))
  | publishing {results : List Stored} (tokens : Tokens k.registry k.values results)
      (owners : 2 ≤ (w.handle h).owners) (intact : k.Intact w) :
      CarriesPayload lib k h c w (.publishing results .completed)
  | announcing (tokens : Tokens k.registry k.values (w.handle h).result)
      (owners : 2 ≤ (w.handle h).owners) (intact : k.Intact w) :
      CarriesPayload lib k h c w (.announcing .completed)
  | leaving (tokens : Tokens k.registry k.values (w.handle h).result) (announced : w.Announced h)
      (owners : 2 ≤ (w.handle h).owners) (intact : k.Intact w) : CarriesPayload lib k h c w .leaving
  | gone (tokens : Tokens k.registry k.values (w.handle h).result) (announced : w.Announced h)
      (intact : k.Intact w) : CarriesPayload lib k h c w .gone

def Stage.left : Stage (Frame U N) → ℕ
  | .starting .. => 8
  | .running .. => 7
  | .collecting .. => 6
  | .destroying .. => 5
  | .judging _ => 4
  | .publishing .. => 3
  | .announcing _ => 2
  | .leaving => 1
  | .gone => 0

namespace Stage

open World

variable {lib : Library U N} {k : Payload} {w w' : World} {h : WorkerId} {c : ContextId} {f : Routine}
variable {objects results : List Stored} {stage : Stage (Frame U N)}

def Goes (lib : Library U N) (k : Payload) (h : WorkerId) (c : ContextId) (w : World)
    (stage : Stage (Frame U N)) : Prop :=
  ∃ w' stage', Worker.step lib w ⟨h,stage⟩ = .ran ⟨h,stage'⟩ w' ∧ k.In w' h ∧
  stage'.CarriesPayload lib k h c w' ∧
    stage'.left < stage.left ∧ (1 < stage'.left → w.KeepsControl h w')

/-- The context has loaded the arguments, and the handle has given it up. -/
theorem begun_eq (hw : k.In w h) (tokens : Tokens k.registry k.values objects)
    (dedicated : w.Dedicated h c k.registry) :
    ∃ s references, (w.setHandle h { w.handle h with context := none }).loadAll c objects =
    (.ok k.values,
        ((w.setHandle h { w.handle h with context := none }).setStore s).setContext c
          { w.context c with references }) ∧
      w.store.Keeps s ∧ ∀ out, Moves w out
        (((w.setHandle h { w.handle h with context := none }).setStore s).setContext c
          { w.context c with references }) out := by
  set w₁ := w.setHandle h { w.handle h with context := none }
  have hlive : ∀ handle, Stored.shared handle ∈ objects →
      handle.registry = (w₁.context c).registry ∧
        w₁.store.isAlive (w₁.context c).registry handle.entry = true := by
    intro handle hmem
    have hregistry : (w₁.context c).registry = k.registry := dedicated.registry
    rw [hregistry]
    exact ⟨tokens.home handle hmem,hw.alive (tokens.named hmem)⟩
  obtain ⟨w₂,hload,hchecks⟩ := loadAll_eq (w := w₁) dedicated.range hlive
  rw [tokens.values] at hload
  obtain ⟨s,references,rfl⟩ := hchecks.eq
  have htaken : ∀ out, Moves w out w₁ out := fun out =>
    moves_setHandle w h { w.handle h with context := none } rfl rfl (fun hzero => .inl hzero) rfl rfl out
  exact ⟨s,references,hload,hchecks.keeps,fun out => (htaken out).trans (hchecks.moves out)⟩

/-- The arguments are loaded under the eyes of the worker, which does not need its context any more. -/
theorem goes_starting (hw : k.In w h)
    (hb : (starting f objects : Stage (Frame U N)).CarriesPayload lib k h c w) :
    (starting f objects : Stage (Frame U N)).Goes lib k h c w := by
  cases hb with
  | starting echoes tokens context hook going unstopped dedicated intact =>
    obtain ⟨s,references,hload,hkeeps,hmoves⟩ := begun_eq hw tokens dedicated
    set w₂ := ((w.setHandle h { w.handle h with context := none }).setStore s).setContext c
      { w.context c with references }
    have hcontext : w₂.context c = { w.context c with references } :=
      context_setContext_self dedicated.range _
    have hhandle : w₂.handle h = { w.handle h with context := none } := handle_setHandle_self hw.range _
    have hw₂ : k.In w₂ h := hw.moves (size_setHandle w h _) (by rw [hhandle]) (by rw [hhandle]) hmoves
    have hcontrol : w.KeepsControl h w₂ := by
      have hbegin := keepsControl_begin (h := h) w h c objects
      rwa [World.begun, hload, tokens.drop_eq] at hbegin
    have hdedicated : w₂.Dedicated h c k.registry := by
      refine ⟨dedicated.range.trans_le hcontrol.contexts,?_,?_,?_,?_⟩
      · rw [hcontext]
        exact dedicated.registry
      · intro i hi
        rw [hcontext] at hi
        exact dedicated.serves i hi
      · rw [hhandle]
        exact dedicated.owners
      · rw [hcontext, hhandle]
        exact dedicated.hooked
    have hunstopped : w₂.Unstopped h := by
      refine ⟨?_,?_,?_⟩
      · rw [hhandle]
        exact unstopped.command
      · rw [hhandle]
        exact unstopped.requested
      · rw [hhandle]
        exact unstopped.notEnded
    have hready : w₂.Ready h c k.registry k.values :=
      ⟨hw₂.range,hdedicated,by rw [hcontext]; exact hook,by rw [hcontext]; exact going,hunstopped,
        k.foreign,fun id hid => hw₂.alive hid⟩
    refine ⟨w₂,.running c (.ofCall f k.values),?_,hw₂,?_,by simp [left],fun _ => hcontrol⟩
    · simp only [Worker.step, context]
      rw [hload]
      simp only [tokens.drop_eq]
      rfl
    · exact .running echoes hready hunstopped hdedicated (fun _ h => by cases h)
        (intact.onlyRemoves hw₂ hkeeps.onlyRemoves) .refl

theorem goes_collecting (hw : k.In w h)
    (hb : (collecting c k.values : Stage (Frame U N)).CarriesPayload lib k h c w) :
    (collecting c k.values : Stage (Frame U N)).Goes lib k h c w := by
  cases hb with
  | collecting dedicated intact =>
    have hown : (w.handle h).owners ≠ 0 := Nat.ne_zero_of_lt dedicated.owners
    obtain ⟨results,w',hcollect,tokens,htakes,hw'⟩ := collect_eq hw hown [] (fun _ hu => hu) k.foreign
    obtain ⟨references,hhandle⟩ := htakes.handle hw.range
    have hcontrol : w.KeepsControl h w' := by
      have hall := keepsControl_collect (h := h) w h { registry := k.registry } [] k.values
      rwa [hcollect] at hall
    have hdedicated : w'.Dedicated h c k.registry := by
      have hcontexts : w'.contexts = w.contexts := by
        obtain ⟨_,_,rfl⟩ := htakes.eq
        rfl
      have hcontext : w'.context c = w.context c := by rw [World.context, hcontexts]; rfl
      refine ⟨dedicated.range.trans_le hcontrol.contexts,?_,?_,?_,?_⟩
      · rw [hcontext]
        exact dedicated.registry
      · intro i hi
        rw [hcontext] at hi
        exact dedicated.serves i hi
      · rw [hhandle]
        exact dedicated.owners
      · rw [hcontext, hhandle]
        exact dedicated.hooked
    refine ⟨w',.destroying c (.completed results),?_,hw',?_,by simp [left],fun _ => hcontrol⟩
    · simp only [Worker.step, dedicated.registry]
      rw [hcollect]
      rfl
    · exact .destroying tokens hdedicated (intact.onlyRemoves hw' htakes.onlyRemoves)

theorem onlyRemoves_dropContext (hshared : w.Shared c) :
    w.store.OnlyRemoves (w.dropContext c).store := by
  rw [Code.dropContext_eq hshared]
  have hstore := store_clearHook hshared
  change w.store.OnlyRemoves (((w.clearHook c).context c).destroy (w.clearHook c).store).2
  rw [hstore]
  unfold Context.destroy
  split
  · exact .refl w.store
  · exact Store.onlyRemoves_releaseAll w.store _ _ _

theorem goes_destroying (hw : k.In w h)
    (hb : (destroying c (.completed results) : Stage (Frame U N)).CarriesPayload lib k h c w) :
    (destroying c (.completed results) : Stage (Frame U N)).Goes lib k h c w := by
  cases hb with
  | destroying tokens dedicated intact =>
    have hshared := dedicated.shared
    have heq := Code.dropContext_eq hshared
    have hw' : k.In (w.dropContext c) h := by
      refine hw.moves (within_dropContext dedicated.serves).handles ?_ ?_ fun out =>
        moves_dropContext w c out
      · rw [heq]
        exact clearHook_keeps WorkerHandle.registry (fun _ _ _ _ => rfl) hshared h
      · rw [heq]
        exact clearHook_keeps WorkerHandle.references (fun _ _ _ _ => rfl) hshared h
    refine ⟨w.dropContext c,.judging (.completed results),rfl,hw',?_,
      by simp [left],fun _ => keepsControl_dropContext w c⟩
    refine .judging tokens ?_ (intact.onlyRemoves hw' (onlyRemoves_dropContext hshared))
    rw [heq]
    exact dedicated.owners_clearHook

theorem goes_judging (hw : k.In w h)
    (hb : (judging (.completed results) : Stage (Frame U N)).CarriesPayload lib k h c w) :
    (judging (.completed results) : Stage (Frame U N)).Goes lib k h c w := by
  cases hb with
  | judging tokens owners intact =>
    exact ⟨w,.publishing results .completed,rfl,hw,.publishing tokens owners intact,
      by simp [left],fun _ => .refl h w⟩

/-- The results give way to the new ones, which have no references of their own. -/
theorem goes_publishing (hw : k.In w h)
    (hb : (publishing results .completed : Stage (Frame U N)).CarriesPayload lib k h c w) :
    (publishing results .completed : Stage (Frame U N)).Goes lib k h c w := by
  cases hb with
  | publishing tokens owners intact =>
    have hhandle : (w.setResult h results).handle h = { w.handle h with result := results } :=
      handle_setHandle_self (w := w) hw.range _
    have hmoves : ∀ out, Moves w out (w.setResult h results) out := by
      intro out
      have hset := moves_setResult hw.range (Nat.ne_zero_of_lt owners) results out
      rwa [tokens.shares_eq, zero_add] at hset
    have hw' : k.In (w.setResult h results) h :=
      hw.moves (size_setHandle w h _) (by rw [hhandle]) (by rw [hhandle]) hmoves
    refine ⟨w.setResult h results,.announcing .completed,rfl,hw',.announcing ?_ ?_ ?_,by simp [left],
      fun _ => keepsControl_setResult w h results⟩
    · rwa [hhandle]
    · rwa [hhandle]
    · exact intact.onlyRemoves hw' (Store.onlyRemoves_settle w.store _)

theorem goes_announcing (hw : k.In w h)
    (hb : (announcing .completed : Stage (Frame U N)).CarriesPayload lib k h c w) :
    (announcing .completed : Stage (Frame U N)).Goes lib k h c w := by
  cases hb with
  | announcing tokens owners intact =>
    have hhandle : (w.changeStatus h .completed).handle h =
        { w.handle h with control := (w.handle h).control.changeStatus .completed } :=
        handle_setHandle_self hw.range _
    have hw' : k.In (w.changeStatus h .completed) h := by
      refine hw.moves (size_setHandle w h _) ?_ ?_ fun out => moves_setHandle w h
        { w.handle h with control := (w.handle h).control.changeStatus .completed } rfl rfl
        (fun hzero => .inl hzero)
        rfl rfl out
      all_goals rw [hhandle]
    refine ⟨w.changeStatus h .completed,.leaving,rfl,hw',.leaving ?_ ?_ ?_ intact,
      by simp [left],by simp [left]⟩
    · rwa [hhandle]
    · refine ⟨?_,?_⟩
      · rw [status, hhandle]
        rfl
      · rw [isLatched, hhandle]
        rfl
    · rwa [hhandle]

/-- The worker is not the last to keep its handle. -/
theorem goes_leaving (hw : k.In w h) (hb : (leaving : Stage (Frame U N)).CarriesPayload lib k h c w) :
    (leaving : Stage (Frame U N)).Goes lib k h c w := by
  cases hb with
  | leaving tokens announced owners intact =>
    set u := w.leave (w.handle h).pool
    have hlast : u.disown h = u.setHandle h { w.handle h with owners := (w.handle h).owners - 1 } :=
      disown_of_lt (w := u) owners
    have hhandle : (u.disown h).handle h = { w.handle h with owners := (w.handle h).owners - 1 } := by
      rw [hlast]
      exact handle_setHandle_self (w := u) hw.range _
    have hstore : (u.disown h).store = w.store := by
      rw [hlast]
      rfl
    have hw' : k.In (u.disown h) h := by
      refine hw.moves (by rw [hlast]; exact size_setHandle u h _) ?_ ?_ fun out => ?_
      · rw [hhandle]
      · rw [hhandle]
      · have hleave : Moves w out u out := moves_setPool w (w.handle h).pool
          { w.pool (w.handle h).pool with active := (w.pool (w.handle h).pool).active - 1 } rfl out
        exact hleave.trans (moves_disown u h out)
    refine ⟨u.disown h,.gone,rfl,hw',.gone ?_ ?_ ?_,by simp [left],by simp [left]⟩
    · rwa [hhandle]
    · refine ⟨?_,?_⟩
      · rw [status, hhandle]
        exact announced.completed
      · rw [isLatched, hhandle]
        exact announced.latched
    · rwa [Payload.Intact, hstore]

theorem CarriesPayload.goes (hb : stage.CarriesPayload lib k h c w) (hw : k.In w h)
    (hrunning : ∀ s, stage ≠ .running c s) (hgone : stage ≠ .gone) : stage.Goes lib k h c w := by
  have hcarries := hb
  cases hb with
  | starting => exact goes_starting hw hcarries
  | @running _ _ s => exact absurd rfl (hrunning s)
  | collecting => exact goes_collecting hw hcarries
  | destroying => exact goes_destroying hw hcarries
  | judging => exact goes_judging hw hcarries
  | publishing => exact goes_publishing hw hcarries
  | announcing => exact goes_announcing hw hcarries
  | leaving => exact goes_leaving hw hcarries
  | gone => exact absurd rfl hgone

theorem CarriesPayload.othersStep (hb : stage.CarriesPayload lib k h c w)
    (ha : w.OthersStep h c k.tables w') : stage.CarriesPayload lib k h c w' := by
  have howners : 2 ≤ (w.handle h).owners → 2 ≤ (w'.handle h).owners :=
    fun howners => howners.trans ha.owners
  have hannounced : w.Announced h → w'.Announced h := by
    obtain ⟨hstatus,hcompleted⟩ := ha.announced
    refine fun announced => ⟨hstatus.trans announced.completed,?_⟩
    rw [isLatched, hcompleted]
    exact announced.latched
  have htokens : Tokens k.registry k.values (w.handle h).result →
      Tokens k.registry k.values (w'.handle h).result := by
    rw [ha.record WorkerHandle.result fun _ _ _ => rfl]
    exact id
  cases hb with
  | starting echoes tokens context hook going unstopped dedicated intact =>
    refine .starting echoes tokens ?_ ?_ ?_ (unstopped.othersStep ha) (dedicated.othersStep ha)
      (intact.othersStep ha)
    · rwa [ha.record WorkerHandle.context fun _ _ _ => rfl]
    · rwa [ha.context]
    · rwa [ha.context]
  | running echoes ready unstopped dedicated probes intact run =>
    exact .running echoes ready (unstopped.othersStep ha) (dedicated.othersStep ha)
      (probes.others ha.context) intact
      (run.tail (.other ha))
  | collecting dedicated intact => exact .collecting (dedicated.othersStep ha) (intact.othersStep ha)
  | destroying tokens dedicated intact =>
    exact .destroying tokens (dedicated.othersStep ha) (intact.othersStep ha)
  | judging tokens owners intact => exact .judging tokens (howners owners) (intact.othersStep ha)
  | publishing tokens owners intact => exact .publishing tokens (howners owners) (intact.othersStep ha)
  | announcing tokens owners intact =>
    exact .announcing (htokens tokens) (howners owners) (intact.othersStep ha)
  | leaving tokens announced owners intact =>
    exact .leaving (htokens tokens) (hannounced announced) (howners owners) (intact.othersStep ha)
  | gone tokens announced intact =>
    exact .gone (htokens tokens) (hannounced announced) (intact.othersStep ha)

end Stage

theorem Strand.exit?_of_step {lib : Library U N} {c : ContextId} {w w' : World}
    {s s' : Strand (Frame U N)} (hstep : s.step lib c w = .ran s' w') : s.exit? = none := by
  obtain ⟨phase,callers⟩ := s
  cases phase with
  | exit e => cases hstep
  | turn | acting | counting | checking | waiting => rfl

namespace WorkerState

variable {lib : Library U N} {k : Payload} {w w' : World} {h : WorkerId} {c : ContextId}
    {s : Strand (Frame U N)}
variable {worker : Worker (Frame U N)} {x y : WorkerState U N}

structure CarriesPayload (lib : Library U N) (k : Payload) (h : WorkerId) (c : ContextId)
    (x : WorkerState U N) : Prop where
  handle : x.worker.handle = h
  keepsEntries : k.In x.world h
  stage : x.worker.stage.CarriesPayload lib k h c x.world
  notEnded : 1 < x.worker.stage.left → (x.world.handle h).control.NotEnded

/-- While its routine runs the worker goes on with it, and then it has the values that it was given. -/
theorem CarriesPayload.works_running (hx : CarriesPayload lib k h c ⟨w,⟨h,.running c s⟩⟩)
    (hstep : Worker.step lib w ⟨h,.running c s⟩ = .ran worker w') :
    CarriesPayload lib k h c ⟨w',worker⟩ := by
  obtain ⟨_,hw,hb,hnotended⟩ := hx
  cases hb with
  | @running w₀ _ _ echoes ready unstopped dedicated probes intact run =>
    obtain ⟨stage',rfl,ht⟩ := Worker.transition_of_step hstep
    cases ht with
    | exits hexit =>
      have hrooted : w₀.store.Rooted (Address.named k.registry k.values) k.tables :=
        k.rooted.preserves intact
      obtain ⟨⟨left,rfl⟩,hpreserves⟩ :=
        (echoes w₀ h c k.registry k.values ready k.tables hrooted w s run).2 _ hexit
      refine ⟨rfl,hw,.collecting dedicated (Store.Preserves.trans intact hpreserves),
        fun _ => hnotended ?_⟩
      simp [Stage.left]
    | runs hs =>
      have hunstopped := Strand.unstopped_step dedicated unstopped hw.range probes hs
      exact ⟨rfl,Strand.keepsEntries_step hw dedicated hs,
        .running echoes ready hunstopped (Strand.dedicated_step dedicated hs)
        (Strand.unstopping_step dedicated unstopped probes hs) intact (run.tail (.own hs)),fun _ =>
        hunstopped.notEnded⟩

theorem CarriesPayload.goes (hx : x.CarriesPayload lib k h c)
    (hrunning : ∀ s, x.worker.stage ≠ .running c s) (hgone : x.worker.stage ≠ .gone) :
    ∃ y, Works lib x y ∧ y.CarriesPayload lib k h c ∧
    y.worker.stage.left < x.worker.stage.left := by
  obtain ⟨w,⟨i,stage⟩⟩ := x
  obtain rfl : i = h := hx.handle
  obtain ⟨w',stage',hstep,hw',hb,hlt,hcontrol⟩ := hx.stage.goes hx.keepsEntries hrunning hgone
  refine ⟨⟨w',⟨i,stage'⟩⟩,hstep,⟨rfl,hw',hb,fun hleft => ?_⟩,hlt⟩
  rw [(hcontrol hleft).control]
  exact hx.notEnded (hleft.trans hlt)

theorem CarriesPayload.works (hx : x.CarriesPayload lib k h c) (hworks : Works lib x y) :
    y.CarriesPayload lib k h c := by
  by_cases hrunning : ∃ s, x.worker.stage = .running c s
  · obtain ⟨w,⟨i,stage⟩⟩ := x
    obtain rfl : i = h := hx.handle
    obtain ⟨s,rfl⟩ := hrunning
    exact hx.works_running hworks
  · by_cases hgone : x.worker.stage = .gone
    · rw [Works, Worker.step, hgone] at hworks
      cases hworks
    · obtain ⟨z,hz,hcarries,_⟩ := hx.goes (fun s hs => hrunning ⟨s,hs⟩) hgone
      rwa [hworks.unique hz]

/-- Each step, its own or of others, leaves the worker on its way. -/
theorem CarriesPayload.step (hx : x.CarriesPayload lib k h c)
    (hstep : StepAmongOthers lib c k.tables x y) : y.CarriesPayload lib k h c := by
  cases hstep with
  | work hworks => exact hx.works hworks
  | other hothers =>
    rw [hx.handle] at hothers
    exact ⟨hx.handle,hx.keepsEntries.othersStep hothers,hx.stage.othersStep hothers,
      fun hleft => hothers.notEnded (hx.notEnded hleft)⟩

theorem CarriesPayload.run (hx : x.CarriesPayload lib k h c)
    (hrun : Relation.ReflTransGen (StepAmongOthers lib c k.tables) x y) :
    y.CarriesPayload lib k h c := by
  induction hrun with
  | refl => exact hx
  | tail _ hstep ih => exact ih.step hstep

/-- Steps of a call are steps of the worker that runs it. -/
theorem stepAmongOthers_running {Y : Set Address} {p q : World × Strand (Frame U N)}
    (hrun : Relation.ReflTransGen (Strand.StepAmongOthers lib h c Y) p q) :
    Relation.ReflTransGen (StepAmongOthers lib c Y) ⟨p.1,⟨h,.running c p.2⟩⟩
      ⟨q.1,⟨h,.running c q.2⟩⟩ := by
  induction hrun with
  | refl => exact .refl
  | tail _ hstep ih =>
    refine ih.tail ?_
    cases hstep with
    | own hs => exact .work (WorkerState.works_running (Strand.exit?_of_step hs) hs)
    | other hothers => exact .other hothers

/-- A worker whose routine runs can go on until it has the values. -/
theorem CarriesPayload.finishes (hx : CarriesPayload lib k h c ⟨w,⟨h,.running c s⟩⟩) :
    ∃ y, Relation.ReflTransGen (StepAmongOthers lib c k.tables) ⟨w,⟨h,.running c s⟩⟩ y ∧
    y.worker.stage.left < 7 := by
  have hcarries := hx.stage
  cases hcarries with
  | @running w₀ _ _ echoes ready unstopped dedicated probes intact run =>
    have hrooted : w₀.store.Rooted (Address.named k.registry k.values) k.tables :=
      k.rooted.preserves intact
    obtain ⟨⟨⟨u,t⟩,e,hends,hexit⟩,_⟩ := echoes w₀ h c k.registry k.values ready k.tables hrooted w s run
    have hworks : Works lib ⟨u,⟨h,.running c t⟩⟩ ⟨u,⟨h,Worker.afterExit c e⟩⟩ := by
      simp only [Works, Worker.step, hexit]
    refine ⟨_,(stepAmongOthers_running hends).tail (.work hworks),?_⟩
    cases e with
    | ended outcome left =>
      rcases outcome with (_ | fault) | values <;> simp [Worker.afterExit, Stage.left]
    | panicked | stepped | received => simp [Worker.afterExit, Stage.left]

/-- Wherever the worker is, it can go on to its end. -/
theorem CarriesPayload.arrives (hx : x.CarriesPayload lib k h c) :
    ∃ y, Relation.ReflTransGen (StepAmongOthers lib c k.tables) x y ∧ y.worker.stage = .gone := by
  refine exists_run (fun n y => y.CarriesPayload lib k h c ∧ y.worker.stage.left = n) ?_ ⟨hx,rfl⟩
  rintro _ y ⟨hy,rfl⟩
  by_cases hgone : y.worker.stage = .gone
  · exact .inl hgone
  · by_cases hrunning : ∃ s, y.worker.stage = .running c s
    · obtain ⟨w,⟨i,stage⟩⟩ := y
      obtain rfl : i = h := hy.handle
      obtain ⟨s,rfl⟩ := hrunning
      obtain ⟨z,hrun,hlt⟩ := hy.finishes
      exact .inr ⟨_,hlt,z,hrun,hy.run hrun,rfl⟩
    · obtain ⟨z,hworks,hz,hlt⟩ := hy.goes (fun s hs => hrunning ⟨s,hs⟩) hgone
      exact .inr ⟨_,hlt,z,.single (.work hworks),hz,rfl⟩

end WorkerState

end Workers
