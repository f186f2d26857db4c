import Workers.Proofs.Pool.Shutdown
import Workers.Proofs.Pool.Traceless
/-! # Starts that are refused

A start is refused while its pool shuts down, for the first argument that the handle does not take
over, or when the machine has no thread for the worker.  Whichever it is, the start leaves what it
found, and the store as if the arguments had just been dropped.
-/
namespace Workers

namespace Store

theorem settle_of_weak {handles : List TableHandle}
    (hweak : ∀ handle ∈ handles, handle.strong = false) (s : Store) :
    s.settle handles = s := by
  induction handles with
  | nil => exact settle_nil s
  | cons handle rest ih =>
    rw [settle_cons_weak s (by simp [hweak handle List.mem_cons_self])]
    exact ih fun other hmem => hweak other (List.mem_cons_of_mem handle hmem)

theorem drop_weakened (s : Store) (objects : List Stored) :
    s.drop (objects.map Stored.weakened) = s := by
  refine settle_of_weak (fun handle hmem => ?_) s
  obtain ⟨_,hobject,hmem⟩ := List.mem_flatMap.mp hmem
  obtain ⟨object,_,rfl⟩ := List.mem_map.mp hobject
  exact Code.weak_weakened object handle hmem

end Store

namespace World

variable {w w' u : World} {p : PoolId} {config : Config} {arguments : List Stored}
    {refusal : Option String}
variable {fault : Fault} {out : Multiset Share}

/-- Prepares a worker for a machine that may have no thread for it, and says why.  Then what was to
run gives up its arguments and counts itself out, and the hook goes before the handle. -/
def attempt (w : World) (p : PoolId) (config : Config) (arguments : List Stored)
    (refusal : Option String) :
    Except Fault (WorkerId × List Stored) × World :=
  let w := w.enter p
  if (w.pool p).requested then (.error .shuttingDown,(w.setStore (w.store.drop arguments)).leave p)
  else
    let (h,w) := w.addHandle p
    match w.adoptAll h 1 arguments with
    | (.error fault,w) => (.error fault,(w.disown h).leave p)
    | (.ok adopted,w) =>
      let w := w.configure h config
      match refusal with
      | none => (.ok (h,adopted),(w.own h).track p h)
      | some reason =>
        (.error (.notStarted reason),(((w.setStore (w.store.drop adopted)).leave p).unhook h).disown h)

/-- On a machine that has a thread this is what preparing a worker does. -/
theorem attempt_none (w : World) (p : PoolId) (config : Config) (arguments : List Stored) :
    w.attempt p config arguments none = w.prepare p config arguments := rfl

inductive Refuses (w : World) (p : PoolId) (arguments : List Stored) (refusal : Option String) :
    Fault → Prop
  | shuttingDown (hrequested : (w.pool p).requested = true) : Refuses w p arguments refusal .shuttingDown
  /-- The handle takes the arguments in front over, and not the next one. -/
  | badArgument {front back : List Stored} {object : Stored} {fault : Fault}
      (hopen : (w.pool p).requested = false) (harguments : arguments = front ++ object :: back)
      (hfront : ∀ other ∈ front, other.refusal? w.store (w.pool p).registry = none)
      (hfault : object.refusal? w.store (w.pool p).registry = some fault) :
      Refuses w p arguments refusal (.badArgument (1 + front.length) fault)
  | notStarted {reason : String} (hopen : (w.pool p).requested = false)
      (hall : ∀ object ∈ arguments, object.refusal? w.store (w.pool p).registry = none)
      (hrefusal : refusal = some reason) :
      Refuses w p arguments refusal (.notStarted reason)

theorem takesOver_addHandle (hb : w.store.Balanced out) (p : PoolId) :
    ((w.enter p).addHandle p).2.TakesOver w.handles.size w.store 0 := by
  have hhandle : ((w.enter p).addHandle p).2.handle w.handles.size = _ :=
    handle_addHandle_self (w.enter p) p
  unfold TakesOver
  rw [hhandle]
  refine .start hb.sound (fun id => hb.not_holds_of_le le_rfl)
    (keeps_addHandle (w.enter p) p) fun x => ?_
  simp [Store.Holds, addHandle, addContext, Context.create, store, setStore]
  rfl

theorem TakesOver.returned {h : WorkerId} {s : Store} {front : List Stored}
    (hb : w.TakesOver h s (0 + (front.map Stored.shares).sum)) (back : List Stored) :
    (s.drop (front ++ back)).Restored ((w.setStore (w.store.drop back)).returned h) := by
  rw [zero_add, ← TableHandle.shares_flatMap] at hb
  unfold Store.drop
  rw [List.flatMap_append]
  exact Store.Lent.given_back hb (back.flatMap Stored.handles)

theorem attempt_requested (hrequested : (w.pool p).requested = true) :
    w.attempt p config arguments refusal =
      (.error .shuttingDown,((w.enter p).setStore (w.store.drop arguments)).leave p) := by
  rw [← requested_enter] at hrequested
  unfold attempt
  exact if_pos hrequested

theorem registry_addHandle (w : World) (p : PoolId) :
    (((w.enter p).addHandle p).2.handle w.handles.size).registry = (w.pool p).registry := by
  have hhandle : ((w.enter p).addHandle p).2.handle w.handles.size = _ :=
    handle_addHandle_self (w.enter p) p
  rw [hhandle]
  exact Handover.registry_enter w p p

/-- Beyond the flag a start goes by what becomes of its arguments. -/
theorem attempt_adopt (hopen : (w.pool p).requested = false)
    {outcome : Except Fault (List Stored)}
    (hadopt : ((w.enter p).addHandle p).2.adoptAll w.handles.size 1 arguments = (outcome,u))
    (config : Config) (refusal : Option String) :
    w.attempt p config arguments refusal = match (outcome,u) with
      | (.error fault,w') => (.error fault,(w'.disown w.handles.size).leave p)
      | (.ok adopted,w') => match refusal with
        | none => (.ok (w.handles.size,adopted),
            ((w'.configure w.handles.size config).own w.handles.size).track p w.handles.size)
        | some reason => (.error (.notStarted reason),
            ((((w'.configure w.handles.size config).setStore
              ((w'.configure w.handles.size config).store.drop adopted)).leave p).unhook
                w.handles.size).disown
                w.handles.size) := by
  have hentered : ¬ ((w.enter p).pool p).requested = true := by
    rw [requested_enter, hopen]
    exact Bool.false_ne_true
  rw [← hadopt]
  unfold attempt
  exact if_neg hentered

/-- The first argument that the handle does not take over. -/
theorem attempt_badArgument (hb : w.store.Balanced out) (hopen : (w.pool p).requested = false)
    {front : List Stored} {object : Stored}
    (hfront : ∀ other ∈ front, other.refusal? w.store (w.pool p).registry = none)
    (hfault : object.refusal? w.store (w.pool p).registry = some fault) (back : List Stored)
    (config : Config) (refusal : Option String) :
    ∃ w', w.attempt p config (front ++ object :: back) refusal =
    (.error (.badArgument (1 + front.length) fault),w') ∧
      w.LeavesNothing w' ∧ (w.store.drop (front ++ object :: back)).Restored w'.store := by
  have hf := withNewHandle_addHandle w p
  rw [← registry_addHandle] at hfront hfault
  obtain ⟨v,hadopt,htakes,htakeover⟩ :=
    (takesOver_addHandle hb p).adoptAll_refused hf.handle_lt 1 hfront hfault back
  obtain ⟨hclean,hstore⟩ := ((hf.adoptsEntries htakes).setStore (v.store.drop (object :: back))).discard
  refine ⟨_,attempt_adopt hopen hadopt config refusal,hclean,?_⟩
  rw [hstore]
  exact htakeover.returned (object :: back)

theorem attempt_taken (hb : w.store.Balanced out)
    (hall : ∀ object ∈ arguments, object.refusal? w.store (w.pool p).registry = none) :
    ∃ v, ((w.enter p).addHandle p).2.adoptAll w.handles.size 1 arguments =
    (.ok (arguments.map Stored.weakened),v) ∧
      w.WithNewHandle p v ∧ (w.store.drop arguments).Restored (v.returned w.handles.size) := by
  have hf := withNewHandle_addHandle w p
  rw [← registry_addHandle] at hall
  obtain ⟨v,hadopt,htakes,htakeover⟩ := (takesOver_addHandle hb p).adoptAll hf.handle_lt 1 hall
  have hrestored := htakeover.returned []
  rw [List.append_nil, Store.drop_nil] at hrestored
  exact ⟨v,hadopt,hf.adoptsEntries htakes,hrestored⟩

/-- No thread for the worker. -/
theorem attempt_notStarted (hb : w.store.Balanced out) (hopen : (w.pool p).requested = false)
    (hall : ∀ object ∈ arguments, object.refusal? w.store (w.pool p).registry = none)
    (config : Config) (reason : String) :
    ∃ w', w.attempt p config arguments (some reason) = (.error (.notStarted reason),w') ∧
    w.LeavesNothing w' ∧
      (w.store.drop arguments).Restored w'.store := by
  obtain ⟨v,hadopt,hf,hrestored⟩ := attempt_taken hb hall
  obtain ⟨hclean,hstore⟩ := hf.withdraw config
  have hattempt := attempt_adopt hopen hadopt config (some reason)
  simp only [Store.drop_weakened] at hattempt
  refine ⟨_,hattempt,hclean,?_⟩
  rw [← hstore] at hrestored
  exact hrestored

/-- A start that has not made a handle yet. -/
theorem leavesNothing_leave_enter (w : World) (p : PoolId) (s : Store) :
    w.LeavesNothing (((w.enter p).setStore s).leave p) where
  toOnlyAdds := (((OnlyAdds.refl w).setPool p _).setStore s).setPool p _
  pools := pools_leave rfl
  handle_gone _ hi hnew := absurd hi (Nat.not_lt.mpr hnew)
  context_gone _ hd hnew := absurd hd (Nat.not_lt.mpr hnew)

/-- A start that is refused leaves no trace, and the store as if the arguments had been dropped. -/
theorem attempt_error (hb : w.store.Balanced out)
    (h : w.attempt p config arguments refusal = (.error fault,w')) :
    w.LeavesNothing w' ∧ (w.store.drop arguments).Restored w'.store ∧
    w.Refuses p arguments refusal fault := by
  cases hrequested : (w.pool p).requested with
  | true =>
    rw [attempt_requested hrequested] at h
    cases h
    exact ⟨leavesNothing_leave_enter w p _,.refl _,.shuttingDown hrequested⟩
  | false =>
    cases hfirst : arguments.findSome? (·.refusal? w.store (w.pool p).registry) with
    | none =>
      have hall := List.findSome?_eq_none_iff.mp hfirst
      cases refusal with
      | none =>
        obtain ⟨v,hadopt,_⟩ := attempt_taken hb hall
        rw [attempt_adopt hrequested hadopt] at h
        cases h
      | some reason =>
        obtain ⟨u,hu,hclean,hrestored⟩ := attempt_notStarted hb hrequested hall config reason
        rw [hu] at h
        cases h
        exact ⟨hclean,hrestored,.notStarted hrequested hall rfl⟩
    | some refused =>
      obtain ⟨front,object,back,rfl,hfault,hfront⟩ := List.findSome?_eq_some_iff.mp hfirst
      obtain ⟨u,hu,hclean,hrestored⟩ :=
        attempt_badArgument hb hrequested hfront hfault back config refusal
      rw [hu] at h
      cases h
      exact ⟨hclean,hrestored,.badArgument hrequested rfl hfront hfault⟩

end World

namespace PoolState

variable {U N : Type} {lib : Library U N} {x y : PoolState U N} {i : Nat} {l : Launcher} {w : World}
variable {stage stage' : Spawning (Frame U N)} {arguments : List Stored} {refusal : Option String}
    {fault : Fault}

/-- A start may take its steps while everybody else waits. -/
theorem steps_takes (hs : x.spawns[i]? = some ⟨l,stage⟩)
    (htakes : Relation.ReflTransGen (Spawning.Takes l) (stage,x.world) (stage',w)) :
    ∃ y, Steps lib x y ∧ y.world = w ∧ y.spawns[i]? = some ⟨l,stage'⟩ := by
  generalize hend : (stage',w) = after at htakes
  induction htakes generalizing stage' w with
  | refl =>
    cases hend
    exact ⟨x,.refl,rfl,hs⟩
  | @tail mid after _ htake ih =>
    subst hend
    obtain ⟨stage,u⟩ := mid
    obtain ⟨y,hsteps,rfl,hy⟩ := ih rfl
    have hstep : stage.step l y.world = .ran stage' w := htake
    exact ⟨_,hsteps.tail (.spawn hy hstep),rfl,restage_spawn hy⟩

/-- The machine has no thread for a worker, and the start takes its handle down. -/
theorem steps_fail {h : WorkerId} {adopted : List Stored}
    (hs : x.spawns[i]? = some ⟨l,.launching h adopted⟩) (reason : String) : ∃ y, Steps lib x y ∧
      y.world = (((x.world.setStore (x.world.store.drop adopted)).leave l.pool).unhook h).disown h ∧
      y.spawns[i]? = some ⟨l,.refused (.notStarted reason)⟩ := by
  have hfail : Step lib x { x.restage i ⟨l,.launching h adopted⟩ (.unhooking h (.notStarted reason)) with
    world := (x.world.setStore (x.world.store.drop adopted)).leave l.pool } := .fail reason hs rfl
  obtain ⟨y,hsteps,hworld,hy⟩ := @steps_takes _ _ lib
    { x.restage i ⟨l,.launching h adopted⟩ (.unhooking h (.notStarted reason)) with
      world := (x.world.setStore (x.world.store.drop adopted)).leave l.pool }
        _ _ _ _ _ (restage_spawn hs) (.single rfl)
  exact ⟨y,.head hfail hsteps,hworld,hy⟩

/-- A start that is refused is one of those in a pool state, where any number of threads take their
steps in any order. -/
theorem steps_attempt (hs : x.spawns[i]? = some ⟨l,.entering arguments⟩)
    (h : x.world.attempt l.pool l.config arguments refusal = (.error fault,w)) :
    ∃ y, Steps lib x y ∧ y.world = w ∧ y.spawns[i]? = some ⟨l,.refused fault⟩ := by
  by_cases hrequested : ((x.world.enter l.pool).pool l.pool).requested = true
  · rw [World.requested_enter] at hrequested
    rw [World.attempt_requested hrequested] at h
    cases h
    rw [← World.requested_enter] at hrequested
    exact steps_takes hs (Spawning.takes_requested l hrequested arguments)
  · have hgathered := Spawning.takes_gathered (F := Frame U N) l hrequested arguments
    rw [World.requested_enter, Bool.not_eq_true] at hrequested
    rcases hadopt : ((x.world.enter l.pool).addHandle l.pool).2.adoptAll x.world.handles.size 1
      arguments with ⟨outcome,v⟩
    have hadopt' : ((x.world.enter l.pool).addHandle l.pool).2.adoptAll
      ((x.world.enter l.pool).addHandle l.pool).1 1
      arguments = (outcome,v) := hadopt
    rw [hadopt'] at hgathered
    rw [World.attempt_adopt hrequested hadopt] at h
    cases outcome with
    | error refused =>
      cases h
      have hdiscard : Spawning.Takes (F := Frame U N) l
        (Spawning.discarding x.world.handles.size fault,v)
        (Spawning.releasing fault,v.disown x.world.handles.size) := rfl
      exact steps_takes hs (hgathered.trans (.head hdiscard (.single rfl)))
    | ok adopted =>
      cases refusal with
      | none => cases h
      | some reason =>
        cases h
        have hconfigure : Spawning.Takes (F := Frame U N) l
          (Spawning.configuring x.world.handles.size adopted,v)
          (Spawning.launching x.world.handles.size adopted,
            v.configure x.world.handles.size l.config) := rfl
        obtain ⟨y,hsteps,hworld,hy⟩ := steps_takes hs (hgathered.tail hconfigure)
        obtain ⟨z,hsteps',hworld',hz⟩ := @steps_fail _ _ lib _ _ _ _ _ hy reason
        rw [hworld] at hworld'
        exact ⟨z,hsteps.trans hsteps',hworld',hz⟩

end PoolState

end Workers
