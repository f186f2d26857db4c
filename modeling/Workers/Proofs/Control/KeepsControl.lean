import Workers.Errand
import Workers.Proofs.Control.Transitions
import Workers.Proofs.Ledger.Owners
/-! # What leaves the control of a worker alone

Most of what threads do never takes the lock of a worker's control.  A change of the world keeps the
control of a worker if it leaves it as it is, gives the handle no other context, and takes no stop
back that a context has observed.
-/
namespace Workers

/-- What an order does to the world, and what has to be done for it before anything else. -/
inductive Order.Effect (w : World) : Order → World → List Order → Prop
  | put (h : WorkerId) (command : Command) : Effect w (.put h command) (w.putCommand h command) []
  | aim (h : WorkerId) (n : NotifierId) (htarget : (w.handle h).target = some n) :
      Effect w (.interrupt h) w [.fire n]
  | miss (h : WorkerId) (htarget : (w.handle h).target = none) : Effect w (.interrupt h) w []
  | fire (n : NotifierId) : Effect w (.fire n) (w.notify n) []
  | request (p : PoolId) : Effect w (.request p) (w.request p) []
  | cancelAll (p : PoolId) :
      Effect w (.cancelAll p) w ((Errand.liveWorkers w p).flatMap fun h => [.put h .cancel,.interrupt h])
  | await (s : Signal) (deadline : Option Nat) : Effect w (.await s deadline) w []
  | untilIdle (p : PoolId) : Effect w (.untilIdle p) w []
  | untilRequested (p : PoolId) : Effect w (.untilRequested p) w []
  | untilStatus (h : WorkerId) (status : Status) : Effect w (.untilStatus h status) w []

namespace Errand

variable {w w' : World} {e e' : Errand}

/-- A step carries out the first order. -/
theorem effect_of_step (hstep : e.step w = .ran e' w') :
    ∃ o rest more, e.orders = o :: rest ∧ o.Effect w w' more ∧ e'.orders = more ++ rest := by
  obtain ⟨orders,answered⟩ := e
  cases orders with
  | nil => cases hstep
  | cons o rest =>
    cases o with
    | put h command =>
      cases hstep
      exact ⟨_,rest,_,rfl,.put h command,rfl⟩
    | interrupt h =>
      simp only [step] at hstep
      split at hstep <;> rename_i htarget <;> cases hstep
      · exact ⟨_,rest,_,rfl,.aim h _ htarget,rfl⟩
      · exact ⟨_,rest,_,rfl,.miss h htarget,rfl⟩
    | fire n =>
      cases hstep
      exact ⟨_,rest,_,rfl,.fire n,rfl⟩
    | await s deadline =>
      simp only [step] at hstep
      split at hstep
      · cases hstep
        exact ⟨_,rest,_,rfl,.await s deadline,rfl⟩
      · split at hstep <;> cases hstep
        exact ⟨_,rest,_,rfl,.await s deadline,rfl⟩
    | request p =>
      cases hstep
      exact ⟨_,rest,_,rfl,.request p,rfl⟩
    | cancelAll p =>
      cases hstep
      exact ⟨_,rest,_,rfl,.cancelAll p,rfl⟩
    | untilIdle p =>
      simp only [step] at hstep
      split at hstep <;> cases hstep
      exact ⟨_,rest,_,rfl,.untilIdle p,rfl⟩
    | untilRequested p =>
      simp only [step] at hstep
      split at hstep <;> cases hstep
      exact ⟨_,rest,_,rfl,.untilRequested p,rfl⟩
    | untilStatus h status =>
      simp only [step] at hstep
      split at hstep <;> cases hstep
      exact ⟨_,rest,_,rfl,.untilStatus h status,rfl⟩

theorem step_cases (hstep : e.step w = .ran e' w') :
    (∃ h command, w' = w.putCommand h command) ∨ (∃ n, w' = w.notify n) ∨ (∃ p, w' = w.request p) ∨
    w' = w := by
  obtain ⟨o,rest,more,_,hdoes,_⟩ := effect_of_step hstep
  cases hdoes with
  | put h command => exact .inl ⟨h,command,rfl⟩
  | fire n => exact .inr (.inl ⟨n,rfl⟩)
  | request p => exact .inr (.inr (.inl ⟨p,rfl⟩))
  | aim | miss | cancelAll | await | untilIdle | untilRequested | untilStatus =>
    exact .inr (.inr (.inr rfl))

end Errand

namespace World

variable {h : WorkerId} {w w' w'' : World}

structure KeepsControl (h : WorkerId) (w w' : World) : Prop where
  handles : w.handles.size ≤ w'.handles.size
  control : (w'.handle h).control = (w.handle h).control
  context : ∀ c, (w'.handle h).context = some c → (w.handle h).context = some c
  contexts : w.contexts.size ≤ w'.contexts.size
  stopping : ∀ c < w.contexts.size, (w.context c).stopping = true → (w'.context c).stopping = true

theorem KeepsControl.refl (h : WorkerId) (w : World) : KeepsControl h w w :=
  ⟨le_rfl,rfl,fun _ hc => hc,le_rfl,fun _ _ hs => hs⟩

theorem KeepsControl.trans (hs : KeepsControl h w w') (hs' : KeepsControl h w' w'') :
    KeepsControl h w w'' where
  handles := hs.handles.trans hs'.handles
  control := hs'.control.trans hs.control
  context c hc := hs.context c (hs'.context c hc)
  contexts := hs.contexts.trans hs'.contexts
  stopping c hc hstop := hs'.stopping c (hc.trans_le hs.contexts) (hs.stopping c hc hstop)

theorem KeepsControl.of_eq (hhandles : w'.handles = w.handles) (hcontexts : w'.contexts = w.contexts) :
    KeepsControl h w w' := by
  have hhandle : w'.handle h = w.handle h := by rw [handle, hhandles]; rfl
  have hcontext : ∀ c, w'.context c = w.context c := fun c => by rw [World.context, hcontexts]; rfl
  refine ⟨by rw [hhandles],by rw [hhandle],fun c hc => hhandle ▸ hc,by rw [hcontexts],?_⟩
  intro c _ hstop
  rwa [hcontext]

theorem keepsControl_setContext (w : World) (c : ContextId) (context : Context)
    (hstop : (w.context c).stopping = true → context.stopping = true) :
    KeepsControl h w (w.setContext c context) := by
  refine ⟨le_rfl,rfl,fun _ hc => hc,(size_setContext w c context).ge,fun d hd hs => ?_⟩
  rw [context_setContext]
  split
  · rename_i hcd
    obtain ⟨rfl,_⟩ := hcd
    exact hstop hs
  · exact hs

theorem keepsControl_setHandle (w : World) (i : WorkerId) (handle : WorkerHandle)
    (hcontrol : i = h → handle.control = (w.handle h).control)
    (hcontext : i = h → ∀ c, handle.context = some c → (w.handle h).context = some c) :
    KeepsControl h w (w.setHandle i handle) := by
  refine ⟨(size_setHandle w i handle).ge,?_,fun c hc => ?_,le_rfl,fun _ _ hs => hs⟩
  · rw [handle_setHandle]
    split
    · rename_i hi
      exact hcontrol hi.1
    · rfl
  · rw [handle_setHandle] at hc
    split at hc
    · rename_i hi
      exact hcontext hi.1 c hc
    · exact hc

theorem addReference_record {c c' : Context} {s s' : Store} {id : EntryId}
    (ha : c.addReference s id = .ok (c',s')) : c' = { c with references := c'.references } := by
  unfold Context.addReference at ha
  split at ha
  · cases ha
    rfl
  · cases hs : s.addReference c.registry id c.holder with
    | error fault => rw [hs] at ha; cases ha
    | ok t => rw [hs] at ha; cases ha; rfl

theorem load_record {c c' : Context} {s s' : Store} {object : Stored} {v : Value}
    (hl : c.load s object = .ok (v,c',s')) : c' = { c with references := c'.references } := by
  cases object with
  | nil | boolean | integer | float | string | function => cases hl; rfl
  | shared handle =>
    simp only [Context.load] at hl
    cases hcheck : (Stored.shared handle).checkRegistry c.registry with
    | error fault => rw [hcheck] at hl; cases hl
    | ok _ =>
      rw [hcheck] at hl
      cases href : c.addReference s handle.entry with
      | error fault => simp [Except.bind, href, Except.map] at hl
      | ok p =>
        obtain ⟨d,u⟩ := p
        simp only [Except.bind, href, Except.map, Except.ok.injEq, Prod.mk.injEq] at hl
        obtain ⟨_,rfl,rfl⟩ := hl
        exact addReference_record href

theorem get_record (c : Context) (m : Memory) (table key : Value) :
    (c.get m table key).2.1 = { c with references := (c.get m table key).2.1.references } := by
  unfold Context.get
  split
  · rfl
  · split
    · rfl
    · split
      · rfl
      · split
        · rfl
        · simp only
          split
          · rename_i hload
            exact load_record hload
          · rfl
    · rfl

theorem stopping_load {c c' : Context} {s s' : Store} {object : Stored} {v : Value}
    (hl : c.load s object = .ok (v,c',s')) : c'.stopping = c.stopping := by
  rw [load_record hl]

theorem stopping_get (c : Context) (m : Memory) (table key : Value) :
    (c.get m table key).2.1.stopping = c.stopping := by
  rw [get_record]

theorem stopping_countInstruction (c : Context) : c.countInstruction.2.stopping = c.stopping := by
  unfold Context.countInstruction
  split
  · rfl
  · split
    · rfl
    · simp only
      split <;> rfl

theorem stopping_destroy (c : Context) (s : Store) : (c.destroy s).1.stopping = c.stopping := by
  unfold Context.destroy
  split <;> rfl

theorem keepsControl_setStore (w : World) (s : Store) : KeepsControl h w (w.setStore s) := .of_eq rfl rfl

theorem keepsControl_destroyUnhooked (w : World) (c : ContextId) :
    KeepsControl h w (w.destroyUnhooked c) := by
  have hstore := keepsControl_setStore (h := h) w ((w.context c).destroy w.store).2
  have hcontext := keepsControl_setContext (h := h) (w.setStore ((w.context c).destroy w.store).2) c
    ((w.context c).destroy w.store).1 fun hstop => (stopping_destroy _ _).trans hstop
  exact hstore.trans hcontext

theorem keepsControl_own (w : World) (i : WorkerId) : KeepsControl h w (w.own i) :=
  keepsControl_setHandle w i _ (fun hi => hi ▸ rfl) (fun hi _ hc => hi ▸ hc)

/-- The end of a handle does not take the lock: its last status stays. -/
theorem keepsControl_disown (w : World) (i : WorkerId) : KeepsControl h w (w.disown i) := by
  unfold disown
  simp only
  split
  · have hrelease := keepsControl_setStore (h := h) w
      (w.store.releaseAll (w.handle i).registry (w.handle i).holder (w.handle i).references)
    have hlast : ∀ u : World, KeepsControl h w u →
        KeepsControl h w ((u.setStore (u.store.drop (w.handle i).result)).setHandle i
          { w.handle i with owners := 0, references := [], context := none, result := [] }) := by
      intro u hu
      have hdrop := hu.trans (keepsControl_setStore u (u.store.drop (w.handle i).result))
      refine hdrop.trans (keepsControl_setHandle _ i _ (fun hi => ?_) (fun _ c hc => by cases hc))
      rw [hdrop.control, hi]
    cases (w.handle i).context with
    | none => exact hlast _ hrelease
    | some c => exact hlast _ (hrelease.trans (keepsControl_destroyUnhooked _ c))
  · exact keepsControl_setHandle w i _ (fun hi => hi ▸ rfl) (fun hi _ hc => hi ▸ hc)

theorem keepsControl_keepHook (w : World) (hook : Option Hook) : KeepsControl h w (w.keepHook hook) := by
  rcases hook with _ | ⟨i⟩ | ⟨g⟩
  · exact .refl h w
  · exact keepsControl_own w i
  · exact .refl h w

theorem keepsControl_dropHook (w : World) (hook : Option Hook) : KeepsControl h w (w.dropHook hook) := by
  rcases hook with _ | ⟨i⟩ | ⟨g⟩
  · exact .refl h w
  · exact keepsControl_disown w i
  · exact .refl h w

theorem keepsControl_setHook (w : World) (c : ContextId) (hook : Hook) (n : UInt32) :
    KeepsControl h w (w.setHook c hook n) := by
  have hkeep := keepsControl_keepHook (h := h) w (some hook)
  have hset :=
    hkeep.trans (keepsControl_setContext _ c (((w.keepHook (some hook)).context c).setHook hook n)
    fun hstop => hstop)
  exact hset.trans (keepsControl_dropHook _ _)

theorem keepsControl_destroy (w : World) (c : ContextId) : KeepsControl h w (w.destroy c) := by
  unfold destroy
  simp only
  split
  · exact .refl h w
  · have hset := keepsControl_setContext (h := h) w c { w.context c with hook := none }
      fun hstop => hstop
    exact (hset.trans (keepsControl_dropHook _ _)).trans (keepsControl_destroyUnhooked _ c)

theorem keepsControl_dropContext (w : World) (c : ContextId) : KeepsControl h w (w.dropContext c) := by
  have hdestroy := keepsControl_destroy (h := h) w c
  have hset := hdestroy.trans (keepsControl_setContext _ c { (w.destroy c).context c with hook := none }
    fun hstop => hstop)
  exact hset.trans (keepsControl_dropHook _ _)

theorem keepsControl_retarget (w : World) (hook : Option Hook) (target : Option NotifierId) :
    KeepsControl h w (w.retarget hook target).2 := by
  rcases hook with _ | ⟨i⟩ | ⟨g⟩
  · exact .refl h w
  · exact keepsControl_setHandle w i _ (fun hi => hi ▸ rfl) (fun hi _ hc => hi ▸ hc)
  · exact .of_eq rfl rfl

theorem keepsControl_adopt (w : World) (i : WorkerId) (object : Stored) :
    KeepsControl h w (w.adopt i object).2 := by
  rcases adopt_writes w i object with ⟨s,heq⟩ | ⟨s,references,heq⟩
  · rw [heq]
    exact keepsControl_setStore w s
  · rw [heq]
    have hset : KeepsControl h w (w.setHandle i { w.handle i with references }) :=
      keepsControl_setHandle w i _ (fun hi => hi ▸ rfl) fun hi _ hc => hi ▸ hc
    exact hset.trans (keepsControl_setStore _ s)

theorem keepsControl_share (w : World) (c : ContextId) (v : Value) :
    KeepsControl h w (w.share c v).2 := by
  unfold share
  simp only
  split
  · exact keepsControl_setStore w _
  · split
    · rename_i hload
      exact (keepsControl_setStore w _).trans
        (keepsControl_setContext (w.setStore _) c _ fun hstop => (stopping_load hload).trans hstop)
    · exact keepsControl_setStore w _

/-- No answer to running code changes a status or a command. -/
theorem keepsControl_answer (w : World) (c : ContextId) (q : Query) :
    KeepsControl h w (w.answer c q).2 := by
  cases q with
  | newTable => exact .of_eq rfl rfl
  | newShared =>
    exact (keepsControl_setStore w _).trans
      (keepsControl_setContext (w.setStore _) c _ fun hstop => hstop)
  | get table key =>
    exact (keepsControl_setStore w _).trans (keepsControl_setContext (w.setStore _) c _
      fun hstop => (stopping_get (w.context c) w.memory table key).trans hstop)
  | set | notify | newNotifier => exact .of_eq rfl rfl
  | share value => exact keepsControl_share w c value
  | length | paths | hookStep | isNotified => exact .refl h w
  | count =>
    exact keepsControl_setContext w c _ fun hstop => (stopping_countInstruction _).trans hstop
  | destroy => exact keepsControl_destroy w c
  | retarget target => exact keepsControl_retarget w _ target

theorem keepsControl_loadAll (w : World) (c : ContextId) (objects : List Stored) :
    KeepsControl h w (w.loadAll c objects).2 := by
  induction objects generalizing w with
  | nil => exact .refl h w
  | cons object rest ih =>
    unfold loadAll
    split
    · exact .refl h w
    · rename_i v context s hload
      have hone := (keepsControl_setStore (h := h) w s).trans
        (keepsControl_setContext (w.setStore s) c context fun hstop => (stopping_load hload).trans hstop)
      exact hone.trans (ih _)

theorem keepsControl_begin (w : World) (i : WorkerId) (c : ContextId) (objects : List Stored) :
    KeepsControl h w (w.begun i c objects) := by
  have htake := keepsControl_setHandle (h := h) w i { w.handle i with context := none }
    (fun hi => hi ▸ rfl)
    fun _ d hd => by cases hd
  exact (htake.trans (keepsControl_loadAll _ c objects)).trans (keepsControl_setStore _ _)

theorem keepsControl_leave (w : World) (i : WorkerId) (p : PoolId) :
    KeepsControl h w ((w.leave p).disown i) := by
  have hleave : KeepsControl h w (w.leave p) := .of_eq rfl rfl
  exact hleave.trans (keepsControl_disown _ i)

theorem keepsControl_collect (w : World) (i : WorkerId) (capture : Capture) (done : List Stored)
    (values : List Value) :
    KeepsControl h w (w.collect i capture done values).2 := by
  induction values generalizing w capture done with
  | nil => exact keepsControl_setStore w _
  | cons v rest ih =>
    unfold collect
    split
    · exact keepsControl_setStore w _
    · rename_i object capture' s hstore
      have hadopt := (keepsControl_setStore (h := h) w s).trans
        (keepsControl_adopt (w.setStore s) i object)
      split
      · rename_i heq
        rw [heq] at hadopt
        exact hadopt.trans (ih _ _ _)
      · rename_i heq
        rw [heq] at hadopt
        exact hadopt.trans (keepsControl_setStore _ _)

theorem keepsControl_adoptAll (w : World) (i : WorkerId) (n : Nat) (objects : List Stored) :
    KeepsControl h w (w.adoptAll i n objects).2 := by
  induction objects generalizing w n with
  | nil => exact .refl h w
  | cons object rest ih =>
    have hadopt := keepsControl_adopt (h := h) w i object
    unfold adoptAll
    split
    · rename_i heq
      rw [heq] at hadopt
      exact hadopt.trans (ih _ _)
    · rename_i heq
      rw [heq] at hadopt
      exact hadopt.trans (keepsControl_setStore _ _)

theorem keepsControl_setResult (w : World) (i : WorkerId) (results : List Stored) :
    KeepsControl h w (w.setResult i results) := by
  have hset := keepsControl_setHandle (h := h) w i { w.handle i with result := results }
    (fun hi => hi ▸ rfl)
    (fun hi _ hc => hi ▸ hc)
  exact hset.trans (keepsControl_setStore _ _)

theorem keepsControl_configure (w : World) (i : WorkerId) (config : Config) :
    KeepsControl h w (w.configure i config) := by
  unfold configure
  split
  · exact .refl h w
  · rename_i c _
    have hpaths := keepsControl_setContext (h := h) w c
      { w.context c with path := config.path, cpath := config.cpath } fun hstop => hstop
    have hhook := hpaths.trans (keepsControl_setHook _ c (.worker i) config.step)
    simp only
    split
    · exact hhook.trans (keepsControl_setContext _ c _ fun hstop => hstop)
    · exact hhook

theorem keepsControl_register (w : World) (i : WorkerId) (config : Config) (p : PoolId) :
    KeepsControl h w (((w.configure i config).own i).track p i) := by
  have hown := (keepsControl_configure (h := h) w i config).trans (keepsControl_own _ i)
  exact hown.trans (.of_eq rfl rfl)

end World

end Workers
