import Workers.Proofs.Handover.Delivered
import Workers.Proofs.Hooks.Passing
import Workers.Proofs.Ledger.Dropped
import Workers.Proofs.Pool.Starts
import Workers.Proofs.Roundtrip.Kept
/-! # A worker and its context

A worker that keeps some entries, in a context that reports to nobody else.  Whatever code runs in
the context, the worker keeps them, its handle stays and nothing stops it, and so it is when others
do what they like beside the two of them: they may even have the worker pause, and resume it.
-/
namespace Workers

def Address.named (r : RegistryId) (us : List Value) : Set Address :=
  {x | x.registry = r ∧ .shared x.entry ∈ us}

theorem Context.registry_countInstruction (c : Context) :
    c.countInstruction.2.registry = c.registry := by
  unfold countInstruction
  split
  · rfl
  · split
    · rfl
    · simp only
      split <;> rfl

def Control.OnlyCommands : Control → Control → Prop :=
  Relation.ReflTransGen fun control control' => ∃ command, command ≠ .cancel ∧
  control' = control.putCommand command

structure Control.NotEnded (control : Control) : Prop where
  status : ¬ control.status.isTerminal = true
  completed : ¬ control.completed.latched = true

section Told

variable {control control' : Control}

theorem Control.completed_putCommand (control : Control) (command : Command) :
    (control.putCommand command).completed = control.completed := by
  unfold putCommand
  split <;> rfl

theorem Control.OnlyCommands.announced (ht : control.OnlyCommands control') :
    control'.status = control.status ∧ control'.completed = control.completed := by
  induction ht with
  | refl => exact ⟨rfl,rfl⟩
  | tail _ hput ih =>
    obtain ⟨command,_,rfl⟩ := hput
    exact ⟨(status_putCommand _ command).trans ih.1,(completed_putCommand _ command).trans ih.2⟩

theorem Control.OnlyCommands.not_cancel (ht : control.OnlyCommands control')
    (hcommand : control.command ≠ .cancel) :
    control'.command ≠ .cancel := by
  induction ht with
  | refl => exact hcommand
  | tail _ hput ih =>
    obtain ⟨command,hnot,rfl⟩ := hput
    unfold putCommand
    split
    · exact ih
    · exact hnot

end Told

namespace World

structure KeepsEntries (w : World) (h : WorkerId) (r : RegistryId) (us : List Value) : Prop where
  range : h < w.handles.size
  registry : (w.handle h).registry = r
  kept : ∀ id, .shared id ∈ us → id ∈ (w.handle h).references
  accounted : ∃ out, w.Accounted out

structure Dedicated (w : World) (h : WorkerId) (c : ContextId) (r : RegistryId) : Prop where
  range : c < w.contexts.size
  registry : (w.context c).registry = r
  serves : w.Serves c h
  owners : 2 ≤ (w.handle h).owners
  hooked : ∀ k, (w.context c).hook = some k → 3 ≤ (w.handle h).owners

structure Unstopped (w : World) (h : WorkerId) : Prop where
  command : (w.handle h).control.command ≠ .cancel
  requested : (w.pool (w.handle h).pool).requested = false
  notEnded : (w.handle h).control.NotEnded

/-- What others may do beside a worker and its context: anything, as long as they leave the context
and some tables alone, do not shut the worker's pool down, and touch the handle only to share in it
or to put commands other than a cancellation. -/
structure OthersStep (w : World) (h : WorkerId) (c : ContextId) (Y : Set Address) (w' : World) :
    Prop where
  handles : w.handles.size ≤ w'.handles.size
  handle : ∃ control owners, w'.handle h = { w.handle h with control, owners } ∧
      (w.handle h).control.OnlyCommands control ∧
    (w.handle h).owners ≤ owners
  contexts : w.contexts.size ≤ w'.contexts.size
  context : w'.context c = w.context c
  requested : (w'.pool (w.handle h).pool).requested = (w.pool (w.handle h).pool).requested
  accounted : (∃ out, w.Accounted out) → ∃ out, w'.Accounted out
  tables : w.store.Preserves Y w'.store

variable {w w' : World} {h : WorkerId} {c : ContextId} {r : RegistryId} {us : List Value}
    {Y : Set Address}

theorem KeepsEntries.alive (hw : w.KeepsEntries h r us) {id : EntryId} (hid : .shared id ∈ us) :
    w.store.isAlive r id = true := by
  obtain ⟨out,hout⟩ := hw.accounted
  have halive := hout.live_of_reference hw.range (hw.kept id hid)
  rwa [hw.registry] at halive

/-- Tables that the worker keeps alive are not among those that are taken away. -/
theorem KeepsEntries.preserves (hw : w'.KeepsEntries h r us) {s : Store}
    (hrooted : s.Rooted (Address.named r us) Y) (htables : s.Preserves Y w.store)
    (hremoves : w.store.OnlyRemoves w'.store) : s.Preserves Y w'.store := by
  obtain ⟨out,hout⟩ := hw.accounted
  refine htables.trans (hout.preserves (hrooted.preserves htables) hremoves ?_)
  rintro x ⟨hr,hid⟩
  rw [Store.Live, hr]
  exact hw.alive hid

/-- Whatever leaves the registry and the references of the handle, and accounts for all handles. -/
theorem KeepsEntries.moves (hw : w.KeepsEntries h r us) (hsize : w'.handles.size = w.handles.size)
    (hregistry : (w'.handle h).registry = (w.handle h).registry)
    (hreferences : (w'.handle h).references = (w.handle h).references)
    (hmoves : ∀ out, Moves w out w' out) :
    w'.KeepsEntries h r us where
  range := by rw [hsize]; exact hw.range
  registry := hregistry.trans hw.registry
  kept := by
    rw [hreferences]
    exact hw.kept
  accounted := by
    obtain ⟨out,hout⟩ := hw.accounted
    exact ⟨out,(hmoves out).accounted hout⟩

theorem Dedicated.shared (he : w.Dedicated h c r) : w.Shared c := by
  intro i hi
  obtain rfl := Hook.worker.inj (he.serves _ hi)
  exact Nat.lt_of_lt_of_le (by decide) (he.hooked _ hi)

theorem Dedicated.hookAsksNoStop (he : w.Dedicated h c r) (hu : w.Unstopped h) : w.HookAsksNoStop c where
  gauge g hg := by cases he.serves _ hg
  worker i hi := by
    obtain rfl := Hook.worker.inj (he.serves _ hi)
    exact ⟨hu.command,hu.requested⟩
  shared := he.shared

theorem OthersStep.record {β : Type} (f : WorkerHandle → β)
    (hf : ∀ handle control owners, f { handle with control, owners } = f handle)
    (ha : w.OthersStep h c Y w') : f (w'.handle h) = f (w.handle h) := by
  obtain ⟨control,owners,hhandle,_⟩ := ha.handle
  rw [hhandle, hf]

theorem OthersStep.owners (ha : w.OthersStep h c Y w') : (w.handle h).owners ≤ (w'.handle h).owners := by
  obtain ⟨control,owners,hhandle,_,hle⟩ := ha.handle
  rw [hhandle]
  exact hle

theorem OthersStep.announced (ha : w.OthersStep h c Y w') :
    (w'.handle h).control.status = (w.handle h).control.status ∧
    (w'.handle h).control.completed = (w.handle h).control.completed := by
  obtain ⟨control,owners,hhandle,htold,_⟩ := ha.handle
  rw [hhandle]
  exact htold.announced

theorem OthersStep.notEnded (ha : w.OthersStep h c Y w') (hu : (w.handle h).control.NotEnded) :
    (w'.handle h).control.NotEnded := by
  obtain ⟨hstatus,hcompleted⟩ := ha.announced
  exact ⟨by rw [hstatus]; exact hu.status,by rw [hcompleted]; exact hu.completed⟩

theorem KeepsEntries.othersStep (hw : w.KeepsEntries h r us) (ha : w.OthersStep h c Y w') :
    w'.KeepsEntries h r us where
  range := hw.range.trans_le ha.handles
  registry := (ha.record WorkerHandle.registry fun _ _ _ => rfl).trans hw.registry
  kept := by
    rw [ha.record WorkerHandle.references fun _ _ _ => rfl]
    exact hw.kept
  accounted := ha.accounted hw.accounted

theorem Dedicated.othersStep (he : w.Dedicated h c r) (ha : w.OthersStep h c Y w') :
    w'.Dedicated h c r where
  range := he.range.trans_le ha.contexts
  registry := by rw [ha.context, he.registry]
  serves k hk := he.serves k (by rwa [ha.context] at hk)
  owners := he.owners.trans ha.owners
  hooked k hk := by
    rw [ha.context] at hk
    exact (he.hooked k hk).trans ha.owners

theorem Unstopped.othersStep (hu : w.Unstopped h) (ha : w.OthersStep h c Y w') : w'.Unstopped h where
  command := by
    obtain ⟨control,owners,hhandle,htold,_⟩ := ha.handle
    rw [hhandle]
    exact htold.not_cancel hu.command
  requested := by
    rw [ha.record WorkerHandle.pool fun _ _ _ => rfl, ha.requested]
    exact hu.requested
  notEnded := ha.notEnded hu.notEnded

/-- A command that is put to the worker is such a thing. -/
theorem othersStep_putCommand (hh : h < w.handles.size) (c : ContextId) (Y : Set Address)
    {command : Command} (hcommand : command ≠ .cancel) :
    w.OthersStep h c Y (w.putCommand h command) where
  handles := (size_setHandle w h _).ge
  handle := ⟨(w.handle h).control.putCommand command,(w.handle h).owners,handle_setHandle_self hh _,
    .single ⟨command,hcommand,rfl⟩,le_rfl⟩
  contexts := le_rfl
  context := rfl
  requested := rfl
  accounted := by
    rintro ⟨out,hout⟩
    have hmoves : Moves w out (w.putCommand h command) out := moves_setHandle w h
      { w.handle h with control := (w.handle h).control.putCommand command } rfl rfl
      (fun hzero => .inl hzero) rfl rfl out
    exact ⟨out,hmoves.accounted hout⟩
  tables := .refl w.store Y

theorem registry_share (w : World) (c : ContextId) (v : Value) :
    ((w.share c v).2.context c).registry = (w.context c).registry := by
  unfold share
  simp only
  split
  · rfl
  · split
    · rename_i value context s hload
      rw [context_setContext]
      split
      · rw [load_record hload]
      · rfl
    · rfl

/-- A context stays in its registry. -/
theorem registry_answer (w : World) (c : ContextId) (q : Query) :
    ((w.answer c q).2.context c).registry = (w.context c).registry := by
  have hset : ∀ (u : World) (context : Context), (∀ d, u.context d = w.context d) →
      context.registry = (w.context c).registry → ((u.setContext c context).context c).registry =
      (w.context c).registry := by
    intro u context hu hr
    rw [context_setContext]
    split
    · exact hr
    · rw [hu]
  cases q with
  | newShared => exact hset (w.setStore _) _ (fun _ => rfl) rfl
  | get table key =>
    exact hset (w.setStore _) ((w.context c).get w.memory table key).2.1 (fun _ => rfl)
      (by rw [get_record])
  | count =>
    exact hset w (w.context c).countInstruction.2 (fun _ => rfl)
      (w.context c).registry_countInstruction
  | share value => exact registry_share w c value
  | destroy => exact (closes_destroy w c).registry
  | retarget target =>
    simp only [answer, retarget]
    split <;> rfl
  | newTable | set | length | paths | hookStep | notify | isNotified | newNotifier => rfl

theorem clearHook_keeps {β : Type} (f : WorkerHandle → β)
    (hf : ∀ handle control target owners, f { handle with control, target, owners } = f handle)
    (hshared : w.Shared c) (i : WorkerId) : f ((w.clearHook c).handle i) = f (w.handle i) := by
  rcases clearHook_writes hshared with hw | ⟨j,hw⟩
  · rw [hw]
    rfl
  · rw [hw]
    exact setHandle_keeps f j _ (hf (w.handle j) (w.handle j).control (w.handle j).target _) i

/-- Of the record of a worker handle, code in a context writes the control, the target and, when it
destroys the context, the number of owners. -/
theorem answer_keeps {β : Type} (f : WorkerHandle → β)
    (hf : ∀ handle control target owners, f { handle with control, target, owners } = f handle)
    (hshared : w.Shared c) (q : Query) (i : WorkerId) :
    f ((w.answer c q).2.handle i) = f (w.handle i) := by
  cases q with
  | destroy =>
    simp only [answer, destroy]
    split
    · rfl
    · exact clearHook_keeps f hf hshared i
  | retarget target =>
    simp only [answer, retarget]
    split
    · rfl
    · rfl
    · exact setHandle_keeps f _ _ (hf (w.handle _) (w.handle _).control target (w.handle _).owners) i
  | share value => exact congrArg f (handle_of_within (fun i => within_share w c value) i)
  | newTable | newShared | get | set | length | paths | hookStep | count | notify | isNotified
  | newNotifier => rfl

theorem writes_keeps {β : Type} (f : WorkerHandle → β)
    (hf : ∀ handle control target owners, f { handle with control, target, owners } = f handle)
    (hwrites : Probe.Writes w w') (i : WorkerId) : f (w'.handle i) = f (w.handle i) := by
  cases hwrites with
  | control j control =>
    exact setHandle_keeps f j _ (hf (w.handle j) control (w.handle j).target (w.handle j).owners) i
  | gauge g gauge => rfl

/-- A context that gives up its hook gives up one share. -/
theorem Dedicated.owners_clearHook (he : w.Dedicated h c r) : 2 ≤ ((w.clearHook c).handle h).owners := by
  unfold clearHook
  cases hhook : (w.context c).hook with
  | none => exact he.owners
  | some k =>
    obtain rfl := he.serves k hhook
    have hthree := he.hooked _ hhook
    have hlt : 1 < ((w.setContext c { w.context c with hook := none }).handle h).owners :=
      Nat.lt_of_lt_of_le (by decide) hthree
    rw [dropHook, disown_of_lt hlt, handle_setHandle]
    split
    · exact Nat.le_sub_one_of_lt hthree
    · exact he.owners

theorem Dedicated.destroy (he : w.Dedicated h c r) : (w.destroy c).Dedicated h c r := by
  have hwithin := within_destroy he.serves
  refine ⟨by rw [hwithin.contexts]; exact he.range,?_,hwithin.serves he.serves,?_,?_⟩
  · rw [(closes_destroy w c).registry, he.registry]
  · unfold World.destroy
    simp only
    split
    · exact he.owners
    · exact he.owners_clearHook
  · by_cases hdead : (w.context c).destroyed = true
    · have hsame : w.destroy c = w := if_pos hdead
      rw [hsame]
      exact he.hooked
    · intro k hk
      rw [hook_destroy he.shared hdead] at hk
      cases hk

theorem Dedicated.answer (he : w.Dedicated h c r) (q : Query) : (w.answer c q).2.Dedicated h c r := by
  by_cases hq : q = .destroy
  · subst hq
    exact he.destroy
  · have hwithin := within_answer he.serves q
    have hhook := (keepsHook_answer (c := c) w c hq).hook
    refine ⟨by rw [hwithin.contexts]; exact he.range,?_,hwithin.serves he.serves,?_,?_⟩
    · rw [registry_answer, he.registry]
    · rw [owners_answer w c hq]
      exact he.owners
    · intro k hk
      rw [hhook] at hk
      rw [owners_answer w c hq]
      exact he.hooked k hk

theorem Dedicated.writes (he : w.Dedicated h c r) (hwrites : Probe.Writes w w') :
    w'.Dedicated h c r := by
  have hcontexts := Strand.contexts_writes hwrites
  have hcontext : w'.context c = w.context c := by rw [World.context, hcontexts]; rfl
  have howners := owners_writes hwrites h
  refine ⟨by rw [hcontexts]; exact he.range,by rw [hcontext, he.registry],fun k hk => ?_,?_,
    fun k hk => ?_⟩
  · exact he.serves k (by rwa [hcontext] at hk)
  · rw [howners]
    exact he.owners
  · rw [hcontext] at hk
    rw [howners]
    exact he.hooked k hk

theorem Dedicated.setContext (he : w.Dedicated h c r) {context : Context}
    (hregistry : context.registry = (w.context c).registry)
    (hhook : context.hook = (w.context c).hook) : (w.setContext c context).Dedicated h c r := by
  have hcontext : (w.setContext c context).context c = context :=
    context_setContext_self he.range context
  refine ⟨by rw [size_setContext]; exact he.range,by rw [hcontext, hregistry, he.registry],
    fun k hk => ?_,he.owners,fun k hk => ?_⟩
  · rw [hcontext, hhook] at hk
    exact he.serves k hk
  · rw [hcontext, hhook] at hk
    exact he.hooked k hk

end World

namespace Strand

open World (Dedicated KeepsEntries)

variable {U N : Type} {lib : Library U N} {w w' : World} {h : WorkerId} {c : ContextId} {r : RegistryId}
variable {us : List Value} {s s' : Strand (Frame U N)}

theorem dedicated_step (he : w.Dedicated h c r) (hstep : s.step lib c w = .ran s' w') :
    w'.Dedicated h c r := by
  cases effect_step hstep with
  | none => exact he
  | query q => exact he.answer q
  | check hwrites => exact he.writes hwrites
  | outcome stopped hwrites =>
    refine (he.writes hwrites).setContext ?_ (Context.hook_observe _ _)
    unfold Context.observe
    split <;> rfl

theorem keeps_record {β : Type} (f : WorkerHandle → β)
    (hf : ∀ handle control target owners, f { handle with control, target, owners } = f handle)
    (hshared : w.Shared c) (hstep : s.step lib c w = .ran s' w') (i : WorkerId) :
    f (w'.handle i) = f (w.handle i) := by
  cases effect_step hstep with
  | none => rfl
  | query q => exact World.answer_keeps f hf hshared q i
  | check hwrites => exact World.writes_keeps f hf hwrites i
  | outcome stopped hwrites => exact World.writes_keeps f hf hwrites i

theorem handles_step (hserves : w.Serves c h) (hstep : s.step lib c w = .ran s' w') :
    w'.handles.size = w.handles.size := by
  have hwrites : ∀ {u}, Probe.Writes w u → u.handles.size = w.handles.size := by
    rintro u (⟨i,control⟩ | ⟨g,gauge⟩)
    · exact World.size_setHandle w i _
    · rfl
  cases effect_step hstep with
  | none => rfl
  | query q => exact (World.within_answer hserves q).handles
  | check hw => exact hwrites hw
  | outcome stopped hw => exact (within_observe (h := h) _ c stopped).handles.trans (hwrites hw)

theorem keepsEntries_step (hw : w.KeepsEntries h r us) (he : w.Dedicated h c r)
    (hstep : s.step lib c w = .ran s' w') :
    w'.KeepsEntries h r us :=
  hw.moves (handles_step he.serves hstep)
    (keeps_record WorkerHandle.registry (fun _ _ _ _ => rfl) he.shared hstep h)
    (keeps_record WorkerHandle.references (fun _ _ _ _ => rfl) he.shared hstep h) fun out =>
    moves_step he.range hstep out

theorem pools_step (hserves : w.Serves c h) (hstep : s.step lib c w = .ran s' w') :
    w'.pools = w.pools := by
  have hwrites : ∀ {u}, Probe.Writes w u → u.pools = w.pools := by
    rintro u (⟨i,control⟩ | ⟨g,gauge⟩) <;> rfl
  cases effect_step hstep with
  | none => rfl
  | query q => exact (World.within_answer hserves q).pools
  | check hw => exact hwrites hw
  | outcome stopped hw => exact (within_observe (h := h) _ c stopped).pools.trans (hwrites hw)

/-- A check of a worker that nobody has stopped may announce a pause and its end, and nothing else. -/
theorem control_step (hp : Probes c (· ≠ .stop) w s) (hh : h < w.handles.size)
    (hstep : s.step lib c w = .ran s' w') :
    (w'.handle h).control.command = (w.handle h).control.command ∧
      ((w.handle h).control.NotEnded → (w'.handle h).control.NotEnded) := by
  rcases step_control (h := h) hstep with hchecks | ⟨_,hpasses⟩
  · cases hchecks with
    | goto at_ next control hat hmove hnext hw' =>
      rw [hw', WorkerState.control_withControl hh]
      rcases Check.control_goto hmove with ⟨_,rfl⟩ | ⟨_,rfl⟩
      · exact ⟨rfl,id⟩
      · unfold Control.acknowledgePause
        split
        · exact ⟨rfl,fun hu => ⟨nofun,hu.completed⟩⟩
        · exact ⟨rfl,id⟩
    | finish at_ stopped control hat hmove hnext hw' =>
      have hpoint : at_ ≠ .stop := by
        obtain ⟨phase,callers⟩ := s
        cases phase with
        | counting | checking =>
          obtain rfl := probe_of_checkOf hat
          exact (hp _ rfl).2
        | turn | acting | waiting | exit => cases hat
      have hgoes := Check.finish_ne_true hpoint hmove
      rw [hw', (keepsControl_observe _ c stopped).control, WorkerState.control_withControl hh]
      rcases Check.control_finish hmove with ⟨_,rfl⟩ | ⟨_,rfl⟩ | ⟨hstopped,_⟩
      · exact ⟨rfl,id⟩
      · exact ⟨rfl,fun hu => ⟨nofun,hu.completed⟩⟩
      · rw [hgoes] at hstopped
        cases hstopped
  · rw [hpasses.1.control]
    exact ⟨rfl,id⟩

theorem unstopped_step (he : w.Dedicated h c r) (hu : w.Unstopped h) (hh : h < w.handles.size)
    (hp : Probes c (· ≠ .stop) w s) (hstep : s.step lib c w = .ran s' w') : w'.Unstopped h := by
  obtain ⟨hcommand,hsettled⟩ := control_step hp hh hstep
  have hpool := keeps_record WorkerHandle.pool (fun _ _ _ _ => rfl) he.shared hstep h
  refine ⟨?_,?_,hsettled hu.notEnded⟩
  · rw [hcommand]
    exact hu.command
  · rw [hpool, World.pool, pools_step he.serves hstep]
    exact hu.requested

theorem unstopping_step (he : w.Dedicated h c r) (hu : w.Unstopped h) (hp : Probes c (· ≠ .stop) w s)
    (hstep : s.step lib c w = .ran s' w') : Probes c (· ≠ .stop) w' s' := by
  refine hp.step Check.start_ne_stop (fun probe next u hprobe hmove => ?_) hstep
  exact Probe.at_goto (hp probe hprobe).1 (he.hookAsksNoStop hu) hmove

end Strand

end Workers
