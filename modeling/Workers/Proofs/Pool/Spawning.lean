import Mathlib.Logic.Relation
import Workers.Proofs.Pool.Within
/-! # Starting a worker step by step

A start counts itself in, looks at the shutdown flag, makes a handle, moves the arguments under it
one by one, sets up the context, launches the worker and has it tracked.  Other threads come in
between; left to itself a start does what `World.prepare` does at once.
-/
namespace Workers

namespace Fault

def notStarted (reason : String) : Fault :=
  .invalidOperation ("onion.thread: failed to start worker: " ++ reason)

end Fault

namespace World

def unhook (w : World) (h : WorkerId) : World :=
  match (w.handle h).context with
  | some c => (w.setHandle h { w.handle h with context := none }).dropContext c
  | none => w

variable {w : World} {h : WorkerId}

theorem within_unhook (hserves : ∀ c, (w.handle h).context = some c → w.Serves c h) :
    Within h w (w.unhook h) := by
  unfold unhook
  split
  · rename_i c hc
    have htake := within_setHandle (h := h) w { w.handle h with context := none } rfl nofun
    exact htake.trans (within_dropContext (htake.serves (hserves c hc)))
  · exact .refl h w

theorem keepsControl_unhook (w : World) (i : WorkerId) : KeepsControl h w (w.unhook i) := by
  unfold unhook
  split
  · rename_i c _
    have htake := keepsControl_setHandle (h := h) w i { w.handle i with context := none }
      (fun hi => hi ▸ rfl) fun _ => nofun
    exact htake.trans (keepsControl_dropContext _ c)
  · exact .refl h w

end World

/-- How far a start is.  From the launch on the worker goes its own way. -/
inductive Spawning (F : Type) where
  | entering (arguments : List Stored)
  | checking (arguments : List Stored)
  | preparing (arguments : List Stored)
  | adopting (h : WorkerId) (adopted rest : List Stored)
  | configuring (h : WorkerId) (adopted : List Stored)
  | launching (h : WorkerId) (adopted : List Stored)
  | tracking (worker : Worker F)
  | started (worker : Worker F)
  /-- An argument was refused. -/
  | discarding (h : WorkerId) (fault : Fault)
  /-- There was no thread for the worker. -/
  | unhooking (h : WorkerId) (fault : Fault)
  | releasing (fault : Fault)
  | refused (fault : Fault)

namespace Spawning

variable {F : Type}

def step (l : Launcher) (w : World) : Spawning F → Progress (Spawning F)
  | entering arguments => .ran (checking arguments) (w.enter l.pool)
  | checking arguments =>
    if (w.pool l.pool).requested then .ran (releasing .shuttingDown)
      (w.setStore (w.store.drop arguments))
    else .ran (preparing arguments) w
  | preparing arguments =>
    let (h,w) := w.addHandle l.pool
    .ran (adopting h [] arguments) w
  | adopting h adopted [] => .ran (configuring h adopted) w
  | adopting h adopted (object :: rest) =>
    match w.adopt h object with
    | (.ok object,w) => .ran (adopting h (adopted ++ [object]) rest) w
    | (.error fault,w) =>
      .ran (discarding h (.badArgument (adopted.length + 1) fault)) (w.setStore (w.store.drop rest))
  | configuring h adopted => .ran (launching h adopted) (w.configure h l.config)
  | launching h adopted =>
    .ran (tracking { handle := h, stage := .starting l.routine adopted }) (w.own h)
  | tracking worker => .ran (started worker) (w.track l.pool worker.handle)
  | discarding h fault => .ran (releasing fault) (w.disown h)
  | unhooking h fault => .ran (refused fault) ((w.unhook h).disown h)
  | releasing fault => .ran (refused fault) (w.leave l.pool)
  | started _ | refused _ => .blocked none

/-- A step in the given world, from one stage of the start to the next and the world that it leaves. -/
inductive Transition (l : Launcher) (w : World) : Spawning F → Spawning F → World → Prop
  | enters (arguments : List Stored) :
      Transition l w (entering arguments) (checking arguments) (w.enter l.pool)
  | turnsAway (arguments : List Stored) (hrequested : (w.pool l.pool).requested = true) :
      Transition l w (checking arguments) (releasing .shuttingDown) (w.setStore (w.store.drop arguments))
  | passes (arguments : List Stored) (hopen : ¬ (w.pool l.pool).requested = true) :
      Transition l w (checking arguments) (preparing arguments) w
  | prepares (arguments : List Stored) :
      Transition l w (preparing arguments) (adopting (w.addHandle l.pool).1 [] arguments)
        (w.addHandle l.pool).2
  | adopted (h : WorkerId) (moved : List Stored) :
      Transition l w (adopting h moved []) (configuring h moved) w
  | adopts {h : WorkerId} {object object' : Stored} {u : World} (moved rest : List Stored)
      (hadopt : w.adopt h object = (.ok object',u)) :
      Transition l w (adopting h moved (object :: rest)) (adopting h (moved ++ [object']) rest) u
  | rejects {h : WorkerId} {object : Stored} {fault : Fault} {u : World}
      (moved rest : List Stored) (hadopt : w.adopt h object = (.error fault,u)) :
      Transition l w (adopting h moved (object :: rest))
        (discarding h (.badArgument (moved.length + 1) fault))
        (u.setStore (u.store.drop rest))
  | configures (h : WorkerId) (moved : List Stored) :
      Transition l w (configuring h moved) (launching h moved) (w.configure h l.config)
  | launches (h : WorkerId) (moved : List Stored) : Transition l w (launching h moved)
        (tracking { handle := h, stage := .starting l.routine moved }) (w.own h)
  | tracks (worker : Worker F) :
      Transition l w (tracking worker) (started worker) (w.track l.pool worker.handle)
  | discards (h : WorkerId) (fault : Fault) :
      Transition l w (discarding h fault) (releasing fault) (w.disown h)
  | unhooks (h : WorkerId) (fault : Fault) :
      Transition l w (unhooking h fault) (refused fault) ((w.unhook h).disown h)
  | releases (fault : Fault) : Transition l w (releasing fault) (refused fault) (w.leave l.pool)

/-- There are no other steps. -/
theorem transition_of_step {l : Launcher} {w w' : World} {stage stage' : Spawning F}
    (hstep : stage.step l w = .ran stage' w') : Transition l w stage stage' w' := by
  cases stage with
  | entering arguments =>
    cases hstep
    exact .enters arguments
  | checking arguments =>
    simp only [step] at hstep
    split at hstep <;> cases hstep
    · exact .turnsAway arguments ‹_›
    · exact .passes arguments ‹_›
  | preparing arguments =>
    cases hstep
    exact .prepares arguments
  | adopting h moved rest =>
    cases rest with
    | nil =>
      cases hstep
      exact .adopted h moved
    | cons object rest =>
      simp only [step] at hstep
      split at hstep <;> cases hstep
      · exact .adopts moved rest ‹_›
      · exact .rejects moved rest ‹_›
  | configuring h moved =>
    cases hstep
    exact .configures h moved
  | launching h moved =>
    cases hstep
    exact .launches h moved
  | tracking worker =>
    cases hstep
    exact .tracks worker
  | discarding h fault =>
    cases hstep
    exact .discards h fault
  | unhooking h fault =>
    cases hstep
    exact .unhooks h fault
  | releasing fault =>
    cases hstep
    exact .releases fault
  | started | refused => cases hstep

def worker? : Spawning F → Option (Worker F)
  | tracking worker | started worker => some worker
  | _ => none

def withWorker (worker : Worker F) : Spawning F → Spawning F
  | tracking _ => tracking worker
  | started _ => started worker
  | stage => stage

def handle? : Spawning F → Option WorkerId
  | adopting h _ _ | configuring h _ | launching h _ | discarding h _ | unhooking h _ => some h
  | tracking worker | started worker => some worker.handle
  | entering _ | checking _ | preparing _ | releasing _ | refused _ => none

theorem of_worker? {worker : Worker F} {stage : Spawning F} (hworker : stage.worker? = some worker) :
    stage = tracking worker ∨ stage = started worker := by
  cases stage with
  | tracking other => exact .inl (congrArg tracking (Option.some.inj hworker))
  | started other => exact .inr (congrArg started (Option.some.inj hworker))
  | _ => cases hworker

theorem handle?_worker {worker : Worker F} {stage : Spawning F} (hworker : stage.worker? = some worker) :
    stage.handle? = some worker.handle := by
  rcases of_worker? hworker with rfl | rfl <;> rfl

theorem worker?_withWorker {worker : Worker F} {stage : Spawning F}
    (hworker : stage.worker? = some worker) (worker' : Worker F) :
    (stage.withWorker worker').worker? = some worker' := by
  rcases of_worker? hworker with rfl | rfl <;> rfl

def Takes (l : Launcher) (x y : Spawning F × World) : Prop := x.1.step l x.2 = .ran y.1 y.2

def gathered (h : WorkerId) (adopted : List Stored) :
    Except Fault (List Stored) × World → Spawning F × World
  | (.ok more,w) => (configuring h (adopted ++ more),w)
  | (.error fault,w) => (discarding h fault,w)

def prepared (l : Launcher) : Except Fault (WorkerId × List Stored) × World → Spawning F × World
  | (.ok (h,adopted),w) => (started { handle := h, stage := .starting l.routine adopted },w)
  | (.error fault,w) => (refused fault,w)

theorem takes_adoptAll (l : Launcher) (w : World) (h : WorkerId) (adopted rest : List Stored) :
    Relation.ReflTransGen (Takes (F := F) l) (adopting h adopted rest,w)
      (gathered h adopted (w.adoptAll h (adopted.length + 1) rest)) := by
  induction rest generalizing w adopted with
  | nil => exact .single (by simp [Takes, step, World.adoptAll, gathered])
  | cons object rest ih =>
    cases ha : w.adopt h object with
    | mk outcome u =>
      cases outcome with
      | error fault => exact .single (by simp [Takes, step, World.adoptAll, gathered, ha])
      | ok object' =>
        have hfirst : Takes (F := F) l (adopting h adopted (object :: rest),w)
            (adopting h (adopted ++ [object']) rest,u) := by
          simp [Takes, step, ha]
        have hrest := ih u (adopted ++ [object'])
        rw [List.length_append, List.length_singleton] at hrest
        refine .head hfirst ?_
        simp only [World.adoptAll, ha]
        cases hall : u.adoptAll h (adopted.length + 1 + 1) rest with
        | mk outcome v =>
          rw [hall] at hrest
          cases outcome with
          | error fault => exact hrest
          | ok more => simpa [gathered, Except.map] using hrest

/-- While its pool takes workers, a start comes to what becomes of its arguments. -/
theorem takes_gathered (l : Launcher) {w : World}
    (hopen : ¬ ((w.enter l.pool).pool l.pool).requested = true) (arguments : List Stored) :
    Relation.ReflTransGen (Takes (F := F) l) (entering arguments,w)
      (gathered ((w.enter l.pool).addHandle l.pool).1 []
        (((w.enter l.pool).addHandle l.pool).2.adoptAll
        ((w.enter l.pool).addHandle l.pool).1 1 arguments)) := by
  have hpass : Takes (F := F) l (checking arguments,w.enter l.pool)
      (preparing arguments,w.enter l.pool) := by
    simp [Takes, step, hopen]
  refine .head (b := (checking arguments,w.enter l.pool)) rfl (.head hpass ?_)
  exact .head (b := (adopting ((w.enter l.pool).addHandle l.pool).1 [] arguments,
    ((w.enter l.pool).addHandle l.pool).2)) rfl (takes_adoptAll l _ _ [] arguments)

/-- While its pool shuts down, a start gives up. -/
theorem takes_requested (l : Launcher) {w : World}
    (hrequested : ((w.enter l.pool).pool l.pool).requested = true) (arguments : List Stored) :
    Relation.ReflTransGen (Takes (F := F) l) (entering arguments,w)
      (refused .shuttingDown,((w.enter l.pool).setStore
        ((w.enter l.pool).store.drop arguments)).leave l.pool) := by
  have hrefuse : Takes (F := F) l (checking arguments,w.enter l.pool)
      (releasing .shuttingDown,(w.enter l.pool).setStore ((w.enter l.pool).store.drop arguments)) := by
    simp [Takes, step, hrequested]
  exact .head (b := (checking arguments,w.enter l.pool)) rfl (.head hrefuse (.single rfl))

/-- The steps of a start make up `World.prepare`. -/
theorem takes_prepare (l : Launcher) (w : World) (arguments : List Stored) :
    Relation.ReflTransGen (Takes (F := F) l) (entering arguments,w)
      (prepared l (w.prepare l.pool l.config arguments)) := by
  unfold World.prepare
  dsimp only
  split
  · rename_i hrequested
    exact takes_requested l hrequested arguments
  · rename_i hopen
    have hgathered := takes_gathered (F := F) l hopen arguments
    generalize (w.enter l.pool).addHandle l.pool = made at hgathered ⊢
    obtain ⟨h,u⟩ := made
    dsimp only at hgathered ⊢
    cases hall : u.adoptAll h 1 arguments with
    | mk outcome v =>
      rw [hall] at hgathered
      cases outcome with
      | error fault =>
        exact hgathered.trans (.head (b := (releasing fault,v.disown h)) rfl (.single rfl))
      | ok adopted =>
        refine hgathered.trans (.head (b := (launching h adopted,v.configure h l.config)) rfl ?_)
        exact .head (b := (tracking { handle := h, stage := .starting l.routine adopted },
          (v.configure h l.config).own h)) rfl (.single rfl)

end Spawning

end Workers
