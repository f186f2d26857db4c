import Workers.Proofs.Call.Effects
import Workers.Proofs.Call.Sleep
import Workers.Proofs.Pool.Within
/-! # Going to sleep step by step

One step of plain code keeps it plain, and takes it from each point of a sleep to the next.  The
target is registered before the look for a cancellation, so code that waits has its notifier
registered and has not passed a cancellation over.  The hook of the context stays unless the code
destroys the context.
-/
namespace Workers

namespace World

variable {c : ContextId} {h : WorkerId} {n : NotifierId} {w w' w'' : World}

structure KeepsHook (c : ContextId) (w w' : World) : Prop where
  hook : (w'.context c).hook = (w.context c).hook
  notifiers : w.notifiers.size ≤ w'.notifiers.size
  notified : ∀ n, w.isNotified n = true → w'.isNotified n = true

theorem KeepsHook.refl (c : ContextId) (w : World) : KeepsHook c w w := ⟨rfl,le_rfl,fun _ hn => hn⟩

theorem KeepsHook.trans (hw : KeepsHook c w w') (hw' : KeepsHook c w' w'') : KeepsHook c w w'' where
  hook := hw'.hook.trans hw.hook
  notifiers := hw.notifiers.trans hw'.notifiers
  notified n hn := hw'.notified n (hw.notified n hn)

theorem KeepsHook.of_eq (hnotifiers : w'.notifiers = w.notifiers)
    (hcontexts : w'.contexts = w.contexts) :
    KeepsHook c w w' := by
  refine ⟨by rw [World.context, hcontexts]; rfl,by rw [hnotifiers],fun n hn => ?_⟩
  rwa [isNotified, hnotifiers]

theorem keepsHook_setContext (w : World) (i : ContextId) (context : Context)
    (hhook : context.hook = (w.context i).hook) : KeepsHook c w (w.setContext i context) := by
  refine ⟨?_,le_rfl,fun _ hn => hn⟩
  rw [context_setContext]
  split
  · rename_i hi
    rw [hhook, hi.1]
  · rfl

theorem keepsHook_setStore (w : World) (s : Store) : KeepsHook c w (w.setStore s) := .of_eq rfl rfl

theorem keepsHook_setHandle (w : World) (i : WorkerId) (handle : WorkerHandle) :
    KeepsHook c w (w.setHandle i handle) :=
  .of_eq rfl rfl

theorem keepsHook_share (w : World) (i : ContextId) (v : Value) : KeepsHook c w (w.share i v).2 := by
  unfold share
  simp only
  split
  · exact keepsHook_setStore w _
  · split
    · rename_i hload
      exact (keepsHook_setStore w _).trans
        (keepsHook_setContext (w.setStore _) i _ (Context.hook_load hload))
    · exact keepsHook_setStore w _

theorem keepsHook_retarget (w : World) (hook : Option Hook) (target : Option NotifierId) :
    KeepsHook c w (w.retarget hook target).2 := by
  rcases hook with _ | ⟨i⟩ | ⟨g⟩
  · exact .refl c w
  · exact keepsHook_setHandle w i _
  · exact .of_eq rfl rfl

theorem isNotified_notify (hn : n < w.notifiers.size) : (w.notify n).isNotified n = true := by
  have hself : (w.notify n).notifiers[n]? = some (Notifier.notify w.notifiers[n]) := by
    rw [notify, Array.getElem?_modify, if_pos rfl, Array.getElem?_eq_getElem hn]
    rfl
  rw [isNotified, hself]
  rfl

theorem not_isNotified_of_le (hn : w.notifiers.size ≤ n) : w.isNotified n = false := by
  rw [isNotified, Array.getElem?_eq_none hn]
  rfl

theorem isNotified_notify_of_ne {m : NotifierId} (hnm : n ≠ m) :
    (w.notify n).isNotified m = w.isNotified m := by
  have hother : (w.notify n).notifiers[m]? = w.notifiers[m]? := by
    rw [notify, Array.getElem?_modify, if_neg hnm]
  rw [isNotified, hother, isNotified]

theorem keepsHook_notify (w : World) (n : NotifierId) : KeepsHook c w (w.notify n) := by
  refine ⟨rfl,(Array.size_modify ..).ge,fun m hm => ?_⟩
  have hsize : m < w.notifiers.size := by
    by_contra hout
    cases hm.symm.trans (not_isNotified_of_le (Nat.le_of_not_lt hout))
  by_cases hnm : n = m
  · rw [hnm]
    exact isNotified_notify hsize
  · rwa [isNotified_notify_of_ne hnm]

theorem isNotified_addNotifier (w : World) (n : NotifierId) :
    w.addNotifier.2.isNotified n = w.isNotified n := by
  have hpush : w.addNotifier.2.notifiers[n]? = if n = w.notifiers.size then some {}
      else w.notifiers[n]? :=
    Array.getElem?_push
  rw [isNotified, isNotified, hpush]
  split
  · rename_i hlast
    rw [hlast, Array.getElem?_eq_none le_rfl]
    rfl
  · rfl

theorem keepsHook_addNotifier (w : World) : KeepsHook c w w.addNotifier.2 :=
  ⟨rfl,by simp [addNotifier],fun n hn => (isNotified_addNotifier w n).trans hn⟩

/-- Only the destruction of the context has its hook dropped. -/
theorem keepsHook_answer (w : World) (i : ContextId) {q : Query} (hq : q ≠ .destroy) :
    KeepsHook c w (w.answer i q).2 := by
  cases q with
  | newTable | set => exact .of_eq rfl rfl
  | newShared => exact (keepsHook_setStore w _).trans (keepsHook_setContext (w.setStore _) i _ rfl)
  | get table key =>
    exact (keepsHook_setStore w _).trans
      (keepsHook_setContext (w.setStore _) i _ (Context.hook_get (w.context i) w.memory table key))
  | share value => exact keepsHook_share w i value
  | length | paths | hookStep | isNotified => exact .refl c w
  | count => exact keepsHook_setContext w i _ (Context.hook_countInstruction (w.context i))
  | destroy => exact absurd rfl hq
  | notify n => exact keepsHook_notify w n
  | newNotifier => exact keepsHook_addNotifier w
  | retarget target => exact keepsHook_retarget w _ target

theorem keepsHook_loadAll (w : World) (i : ContextId) (objects : List Stored) :
    KeepsHook c w (w.loadAll i objects).2 := by
  induction objects generalizing w with
  | nil => exact .refl c w
  | cons object rest ih =>
    unfold loadAll
    split
    · exact .refl c w
    · rename_i v context s hload
      have hone := (keepsHook_setStore (c := c) w s).trans
        (keepsHook_setContext (w.setStore s) i context (Context.hook_load hload))
      exact hone.trans (ih _)

/-- No order has to do with the target of a worker. -/
theorem target_errand {e e' : Errand} (h : WorkerId) (hstep : e.step w = .ran e' w') :
    (w'.handle h).target = (w.handle h).target ∧ (w'.handle h).context = (w.handle h).context := by
  rcases Errand.step_cases hstep with ⟨i,command,rfl⟩ | ⟨n,rfl⟩ | ⟨p,rfl⟩ | rfl
  · rw [putCommand, handle_setHandle]
    split
    · rename_i hi
      rw [hi.1]
      exact ⟨rfl,rfl⟩
    · exact ⟨rfl,rfl⟩
  · exact ⟨rfl,rfl⟩
  · exact ⟨rfl,rfl⟩
  · exact ⟨rfl,rfl⟩

theorem keepsHook_errand {e e' : Errand} (hstep : e.step w = .ran e' w') : KeepsHook c w w' := by
  rcases Errand.step_cases hstep with ⟨i,command,rfl⟩ | ⟨n,rfl⟩ | ⟨p,rfl⟩ | rfl
  · exact keepsHook_setHandle w i _
  · exact keepsHook_notify w n
  · exact .of_eq rfl rfl
  · exact .refl c _

end World

namespace Check

variable {at_ next : Check} {shutdown : Bool} {control control' : Control}

theorem ofPoint_goto (hat : at_.OfPoint) (hmove : at_.step shutdown control = .goto next control') :
    next.OfPoint := by
  cases at_ with
  | pointShutdown =>
    cases hmove
    cases shutdown <;> trivial
  | pointCommand =>
    simp only [step] at hmove
    split at hmove <;> cases hmove
    trivial
  | stop => cases hmove
  | tickShutdown | tickCommand | acknowledge | awaitCommand | reconsider | resume => exact hat.elim

/-- A cancellation is not passed over. -/
theorem ofPoint_finish (hat : at_.OfPoint) (hmove : at_.step shutdown control = .finish false control') :
    at_ = .pointCommand ∧ control.command ≠ .cancel := by
  cases at_ with
  | pointCommand =>
    simp only [step] at hmove
    split at hmove <;> cases hmove <;> rename_i hcommand <;> rw [hcommand] <;> exact ⟨rfl,nofun⟩
  | pointShutdown | stop => cases hmove
  | tickShutdown | tickCommand | acknowledge | awaitCommand | reconsider | resume => exact hat.elim

/-- The flag is looked at before the command. -/
theorem goto_pointCommand (hmove : at_.step shutdown control = .goto .pointCommand control') :
    shutdown = false := by
  cases at_ with
  | pointShutdown | tickShutdown =>
    cases shutdown with
    | false => rfl
    | true => cases hmove
  | tickCommand | reconsider | pointCommand =>
    simp only [step] at hmove
    split at hmove <;> cases hmove
  | awaitCommand =>
    simp only [step] at hmove
    split at hmove <;> cases hmove
  | acknowledge | resume | stop => cases hmove

end Check

namespace Strand

open World (KeepsHook)

variable {U N : Type} {lib : Library U N} {c d : ContextId} {h : WorkerId} {n : NotifierId}
    {w w' : World}
variable {s s' : Strand (Frame U N)}

def PlainCallers (callers : List (Caller (Frame U N))) : Prop :=
  ∀ caller ∈ callers, ∀ outcome, (caller.resume outcome).Plain

structure RunsPlain (w : World) (h : WorkerId) (s : Strand (Frame U N)) : Prop where
  callers : PlainCallers s.callers
  phase : s.phase.OutsideSleep ∨ ∃ n < w.notifiers.size, s.phase.InSleep h (w.handle h).target n

theorem runsPlain_outsideSleep {callers : List (Caller (Frame U N))} {phase : Phase (Frame U N)}
    (hcallers : PlainCallers callers) (hawake : phase.OutsideSleep) :
    RunsPlain w h ⟨phase,callers⟩ := ⟨hcallers,.inl hawake⟩

theorem RunsPlain.keep (hs : s.RunsPlain w h) (htarget : (w'.handle h).target = (w.handle h).target)
    (hsize : w.notifiers.size ≤ w'.notifiers.size) : s.RunsPlain w' h := by
  refine ⟨hs.callers,hs.phase.imp id ?_⟩
  rintro ⟨n,hn,hsleep⟩
  exact ⟨n,hn.trans_le hsize,htarget ▸ hsleep⟩

theorem RunsPlain.awaits (hs : s.RunsPlain w h) (hwait : s.phase.awaits = some n) :
    n < w.notifiers.size ∧ (w.handle h).target = some n := by
  rcases hs.phase with hawake | ⟨m,hm,hsleep⟩
  · rw [hawake.awaits] at hwait
    cases hwait
  · obtain ⟨rfl,htarget⟩ := hsleep.awaits hwait
    exact ⟨hm,htarget⟩

def SleepsPastFlag (w : World) (h : WorkerId) (s : Strand (Frame U N)) (n : NotifierId) : Prop :=
  s.phase.InSleep h (w.handle h).target n ∧ (s.phase.awaits = some n ∨ s.checkOf h = some .pointCommand)

theorem SleepsPastFlag.target (hsleeps : s.SleepsPastFlag w h n) : (w.handle h).target = some n := by
  obtain ⟨phase,callers⟩ := s
  obtain ⟨hsleep,hlate⟩ := hsleeps
  cases hsleep with
  | register | look => rcases hlate with hlate | hlate <;> cases hlate
  | looking _ _ htarget | beforeWait _ _ htarget | waiting _ htarget => exact htarget

/-- Code that goes on to wait is in a sleep. -/
theorem SleepsPastFlag.not_outsideSleep (hsleeps : s.SleepsPastFlag w h n) : ¬ s.phase.OutsideSleep := by
  obtain ⟨phase,callers⟩ := s
  obtain ⟨hsleep,hlate⟩ := hsleeps
  intro hawake
  rcases hlate with hwait | hpoint
  · rw [hawake.awaits] at hwait
    cases hwait
  · cases hsleep with
    | register | look | beforeWait | waiting => cases hpoint
    | looking =>
      cases hawake with
      | checking _ hk => cases hk false

theorem RunsPlain.registered (hs : s.RunsPlain w h) (hsleeps : s.SleepsPastFlag w h n) :
    n < w.notifiers.size := by
  rcases hs.phase with hawake | ⟨m,hm,hsleep⟩
  · exact absurd hawake hsleeps.not_outsideSleep
  · have hlate : s.SleepsPastFlag w h m := by
      refine ⟨hsleep,hsleeps.2.imp_left fun hwait => ?_⟩
      rw [hwait, (hsleep.awaits hwait).1]
    obtain rfl := Option.some.inj (hsleeps.target.symm.trans hlate.target)
    exact hm

theorem RunsPlain.sleepsPastFlag (hs : s.RunsPlain w h) (hwait : s.phase.awaits = some n) :
    s.SleepsPastFlag w h n := by
  rcases hs.phase with hawake | ⟨m,_,hsleep⟩
  · rw [hawake.awaits] at hwait
    cases hwait
  · obtain ⟨rfl,_⟩ := hsleep.awaits hwait
    exact ⟨hsleep,.inl hwait⟩

/-- One step of plain code: nobody begins to wait who has not looked for a cancellation before, and
nobody gets to the latest command who has not looked at the flag. -/
structure PlainStep (h : WorkerId) (w : World) (s : Strand (Frame U N)) (w' : World)
    (s' : Strand (Frame U N)) : Prop where
  runsPlain : s'.RunsPlain w' h
  awaits : ∀ n, s'.phase.awaits = some n → s.phase.awaits = some n ∨
      (w.handle h).control.command ≠ .cancel
  sleepsPastFlag : ∀ n, s'.SleepsPastFlag w' h n → s.SleepsPastFlag w h n ∨
      (w.pool (w.handle h).pool).requested = false

theorem plainStep_of_none (hs : s'.RunsPlain w' h) (hnone : s'.phase.awaits = none)
    (hpoint : s'.checkOf h ≠ some .pointCommand) : PlainStep h w s w' s' := by
  refine ⟨hs,fun n hn => ?_,fun n hn => ?_⟩
  · rw [hnone] at hn
    cases hn
  · rcases hn.2 with hwait | hlate
    · rw [hnone] at hwait
      cases hwait
    · exact absurd hlate hpoint

theorem plainStep_outsideSleep {callers : List (Caller (Frame U N))} {phase : Phase (Frame U N)}
    (hcallers : PlainCallers callers) (hawake : phase.OutsideSleep) :
    PlainStep h w s w' ⟨phase,callers⟩ := by
  refine ⟨runsPlain_outsideSleep hcallers hawake,fun n hn => ?_,fun n hn =>
    absurd hawake hn.not_outsideSleep⟩
  rw [hawake.awaits] at hn
  cases hn

theorem plainStep_stepTurn (hlib : lib.Plain) {callers : List (Caller (Frame U N))}
    (hcallers : PlainCallers callers) (t : Turn (Frame U N)) :
    PlainStep h w s (stepTurn lib c w callers t).2 (stepTurn lib c w callers t).1 := by
  cases t with
  | count stack =>
    unfold stepTurn
    dsimp only
    split
    · exact plainStep_outsideSleep hcallers (.turn _)
    · exact plainStep_outsideSleep hcallers (.counting _ _)
    · exact plainStep_outsideSleep hcallers (.turn _)
  | step active below => exact plainStep_outsideSleep hcallers (.acting (hlib.advance active))
  | offer parent below outcome unwound =>
    exact plainStep_outsideSleep hcallers (.acting (hlib.accept outcome parent))
  | escape fault unwound => exact plainStep_outsideSleep hcallers (.turn _)
  | ended outcome left =>
    cases callers with
    | nil => exact plainStep_outsideSleep hcallers (.exit _)
    | cons caller callers =>
      have hall := List.forall_mem_cons.mp hcallers
      exact plainStep_outsideSleep hall.2 (.acting (hall.1 outcome))

/-- What follows plain code is again outside of any sleep. -/
theorem outsideSleep_afterAct (hlib : lib.Plain) (stopping : Bool) (role : Role (Frame U N))
    (report : role.Report) :
    (afterAct lib stopping role report).OutsideSleep := by
  cases role with
  | step | receive => exact .turn _
  | loneStep =>
    obtain ⟨frame,move⟩ := report
    cases move with
    | again => exact .acting (hlib.advance frame)
    | proceed | launch | finish | fault | stop => exact .exit _
  | loneReceive | outside => exact .exit _

theorem plainStep_stepAct (hlib : lib.Plain) {callers : List (Caller (Frame U N))}
    (hcallers : PlainCallers callers) {role : Role (Frame U N)} {act : Act role.Report}
    (hact : act.Plain) :
    PlainStep h w s (stepAct lib c w callers role act).2 (stepAct lib c w callers role act).1 := by
  cases hact with
  | done report => exact plainStep_outsideSleep hcallers (outsideSleep_afterAct hlib _ role report)
  | query hk => exact plainStep_outsideSleep hcallers (.acting (hk _))
  | check hk =>
    unfold stepAct
    dsimp only
    split
    · exact plainStep_outsideSleep hcallers (.acting (hk false))
    · exact plainStep_outsideSleep hcallers (.checking _ hk)
  | call hk =>
    unfold stepAct
    dsimp only
    split
    · exact plainStep_outsideSleep hcallers (.acting (hk _))
    · split
      · exact plainStep_outsideSleep hcallers (.acting (hk _))
      · exact plainStep_outsideSleep (List.forall_mem_cons.mpr ⟨hk,hcallers⟩) (.turn _)
  | panic text =>
    exact plainStep_outsideSleep (fun _ hcaller => absurd hcaller List.not_mem_nil) (.exit _)
  | sleep t hk =>
    rw [Act.sleepFor_bind]
    have hlast : w.notifiers.size < w.addNotifier.2.notifiers.size := by simp [World.addNotifier]
    exact plainStep_of_none ⟨hcallers,.inr ⟨w.notifiers.size,hlast,.register t hk⟩⟩ rfl nofun

theorem target_withControl (w : World) (i h : WorkerId) (control : Control) :
    ((w.setHandle i { w.handle i with control }).handle h).target = (w.handle h).target := by
  rw [World.handle_setHandle]
  split
  · rename_i hi
    rw [hi.1]
  · rfl

theorem target_retarget (hh : h < w.handles.size) (target : Option NotifierId) :
    ((w.retarget (some (.worker h)) target).2.handle h).target = target :=
  congrArg WorkerHandle.target (World.handle_setHandle_self hh _)

/-- A step of plain code that is not in a sleep may begin one. -/
theorem plainStep_of_outsideSleep (hlib : lib.Plain) (hcallers : PlainCallers s.callers)
    (hawake : s.phase.OutsideSleep) (hstep : s.step lib c w = .ran s' w') :
    PlainStep h w s w' s' := by
  obtain ⟨phase,callers⟩ := s
  cases hawake with
  | turn t =>
    cases hstep
    exact plainStep_stepTurn hlib hcallers t
  | acting hact =>
    cases hstep
    exact plainStep_stepAct hlib hcallers hact
  | counting probe stack =>
    simp only [step] at hstep
    split at hstep <;> cases hstep
    · exact plainStep_outsideSleep hcallers (.counting _ _)
    · exact plainStep_outsideSleep hcallers (.turn _)
  | checking probe hk =>
    simp only [step] at hstep
    split at hstep <;> cases hstep
    · exact plainStep_outsideSleep hcallers (.checking _ hk)
    · exact plainStep_outsideSleep hcallers (.acting (hk _))
  | exit e => cases hstep

/-- A sleep goes on to its next point, and to the wait only if no cancellation is there. -/
theorem plainStep_of_inSleep (hh : h < w.handles.size) (hhook : (w.context c).hook = some (.worker h))
    (hcallers : PlainCallers s.callers) (hn : n < w.notifiers.size)
    (hsleep : s.phase.InSleep h (w.handle h).target n) (hstep : s.step lib c w = .ran s' w') :
    PlainStep h w s w' s' := by
  obtain ⟨phase,callers⟩ := s
  cases hsleep with
  | register t hk =>
    -- the hook of the context is the worker, so the target is registered with it
    have hretarget : (w.answer c (.retarget (some n))).2 =
        (w.retarget (some (.worker h)) (some n)).2 := by
      rw [World.answer, hhook]
    have htarget := target_retarget hh (some n)
    rw [← hretarget] at htarget
    have hleaves : KeepsHook c w (w.answer c (.retarget (some n))).2 :=
      World.keepsHook_answer w c fun hq => by cases hq
    cases hstep
    exact plainStep_of_none ⟨hcallers,.inr ⟨n,hn.trans_le hleaves.notifiers,.look t _ htarget hk⟩⟩
      rfl fun h => by cases h
  | look t previous htarget hk =>
    simp only [step, stepAct, hhook] at hstep
    cases hstep
    refine plainStep_of_none ⟨hcallers,.inr ⟨n,hn,.looking t previous htarget trivial hk⟩⟩ rfl
      fun hpoint => ?_
    have hstart : (Probe.start (.worker h) .point).checkOf h = some .pointCommand := hpoint
    cases checkOf_start hstart
  | looking t previous htarget hat hk =>
    simp only [step, Probe.step] at hstep
    split at hstep
    · rename_i next u hprobe
      split at hprobe <;> cases hprobe
      rename_i next control hmove
      cases hstep
      refine ⟨⟨hcallers,.inr ⟨n,hn,.looking t previous ?_ (Check.ofPoint_goto hat hmove) hk⟩⟩,
        (fun _ hn => by cases hn),fun m hm => ?_⟩
      · rwa [target_withControl]
      · rcases hm.2 with hwait | hpoint
        · cases hwait
        · have hat' : (Probe.worker h next).checkOf h = some .pointCommand := hpoint
          obtain ⟨_,rfl⟩ := Probe.worker.inj (probe_of_checkOf hat')
          exact .inr (Check.goto_pointCommand hmove)
    · rename_i stopped u hprobe
      split at hprobe <;> cases hprobe
      rename_i control hmove
      cases hstep
      cases stopped with
      | true =>
        exact plainStep_outsideSleep hcallers (.acting (Act.plain_restoreTarget previous hk true))
      | false =>
        -- the only way into the wait: the command has just been read
        obtain ⟨rfl,hcommand⟩ := Check.ofPoint_finish hat hmove
        refine ⟨⟨hcallers,.inr ⟨n,hn,.beforeWait t previous ?_ hk⟩⟩,fun _ _ => .inr hcommand,
          fun m hm => .inl ?_⟩
        · rw [← htarget]
          exact target_withControl w h h control
        · obtain rfl : n = m := (hm.1.awaits rfl).1
          exact ⟨.looking t previous htarget hat hk,.inr (if_pos rfl)⟩
    · cases hstep
  | beforeWait t previous htarget hk =>
    cases hstep
    refine ⟨⟨hcallers,.inr ⟨n,hn,.waiting _ htarget fun stopped => ?_⟩⟩,fun _ hm => .inl hm,
      fun m hm => .inl ?_⟩
    · exact .check (Act.plain_restoreTarget previous hk)
    · obtain rfl : n = m := (hm.1.awaits rfl).1
      exact ⟨.beforeWait t previous htarget hk,.inl rfl⟩
  | waiting deadline htarget hk =>
    simp only [step] at hstep
    split at hstep
    · cases hstep
      exact plainStep_outsideSleep hcallers (.acting (hk true))
    · split at hstep <;> cases hstep
      exact plainStep_outsideSleep hcallers (.acting (hk false))

theorem RunsPlain.plainStep (hs : s.RunsPlain w h) (hlib : lib.Plain) (hh : h < w.handles.size)
    (hhook : (w.context c).hook = some (.worker h)) (hstep : s.step lib c w = .ran s' w') :
    PlainStep h w s w' s' := by
  rcases hs.phase with hawake | ⟨n,hn,hsleep⟩
  · exact plainStep_of_outsideSleep hlib hs.callers hawake hstep
  · exact plainStep_of_inSleep hh hhook hs.callers hn hsleep hstep

theorem keepsHook_observe (w : World) (d : ContextId) (stopped : Bool) :
    KeepsHook c w (observe w d stopped) :=
  World.keepsHook_setContext w d _ (Context.hook_observe (w.context d) stopped)

theorem keepsHook_writes (hwrites : Probe.Writes w w') : KeepsHook c w w' := by
  cases hwrites with
  | control i control => exact World.keepsHook_setHandle w i _
  | gauge g gauge => exact .of_eq rfl rfl

theorem keepsHook_step (hkeeps : s.phase.destroys = false) (hstep : s.step lib d w = .ran s' w') :
    KeepsHook c w w' := by
  cases effect_step hstep with
  | none => exact .refl c w
  | query q hq => exact World.keepsHook_answer w d fun hdestroy => by simp [hq hdestroy] at hkeeps
  | check hwrites => exact keepsHook_writes hwrites
  | outcome stopped hwrites => exact (keepsHook_writes hwrites).trans (keepsHook_observe _ d stopped)

end Strand

end Workers
