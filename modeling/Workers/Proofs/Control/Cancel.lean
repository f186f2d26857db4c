import Workers.Proofs.Control.Execution
import Workers.Proofs.Control.PlainSteps
/-! # No cancellation misses a sleeping worker

A sleep registers its notifier before it looks for a cancellation, and a controller puts the
cancellation before it reads what is registered.  So either the worker finds the command and does not
wait, or the controller finds the notifier and wakes it.
-/
namespace Workers

namespace World

variable {c : ContextId} {h : WorkerId} {w : World}

theorem within_adoptAll (w : World) (h : WorkerId) (position : Nat) (objects : List Stored) :
    Within h w (w.adoptAll h position objects).2 := by
  induction objects generalizing w position with
  | nil => exact .refl h w
  | cons object rest ih =>
    have hadopt := within_adopt w h object
    unfold adoptAll
    split
    · rename_i heq
      rw [heq] at hadopt
      exact hadopt.trans (ih _ _)
    · rename_i heq
      rw [heq] at hadopt
      exact hadopt.trans (within_setStore _ _)

theorem hook_setHook (hc : c < w.contexts.size) (hnone : (w.context c).hook = none) (h : WorkerId)
    (step : UInt32) :
    ((w.setHook c (.worker h) step).context c).hook = some (.worker h) := by
  have hkeep : c < (w.keepHook (some (.worker h))).contexts.size := hc
  simp only [setHook, hnone, dropHook, context_setContext, hkeep, and_self, if_true]
  rfl

theorem hook_configure (hcontext : (w.handle h).context = some c) (hc : c < w.contexts.size)
    (hnone : (w.context c).hook = none) (config : Config) :
    ((w.configure h config).context c).hook = some (.worker h) := by
  have hsize :
      c <
      (w.setContext c
      { w.context c with path := config.path, cpath := config.cpath }).contexts.size := by
    rwa [size_setContext]
  have hunhooked :
    ((w.setContext c { w.context c with path := config.path, cpath := config.cpath }).context
    c).hook =
      none := by
    rw [context_setContext, if_pos ⟨rfl,hc⟩]
    exact hnone
  have hhook := hook_setHook hsize hunhooked h config.step
  rw [configure, hcontext]
  simp only
  split
  · rw [context_setContext]
    split
    · exact hhook
    · exact hhook
  · exact hhook

/-- A prepared worker has been registered, with a context that had no hook before. -/
theorem registered_of_prepare {w' : World} {p : PoolId} {config : Config}
    {arguments adopted : List Stored}
    (hprepare : w.prepare p config arguments = (.ok (h,adopted),w')) :
    ∃ v : World, w' = ((v.configure h config).own h).track p h ∧
    ∀ c, (w'.handle h).context = some c →
      (v.handle h).context = some c ∧ c < v.contexts.size ∧ (v.context c).hook = none := by
  unfold prepare at hprepare
  simp only at hprepare
  split at hprepare
  · cases hprepare
  · have hfresh := handle_addHandle_self (w.enter p) p
    have hnone := hook_addHandle (w.enter p) p
    have hsize := (size_addHandle (w.enter p) p).2.2
    generalize (w.enter p).addHandle p = started at hfresh hnone hsize hprepare
    obtain ⟨i,u⟩ := started
    have hadopt := within_adoptAll u i 1 arguments
    split at hprepare
    · cases hprepare
    · rename_i adopted' v heq
      rw [heq] at hadopt
      cases hprepare
      refine ⟨v,rfl,fun c hc => ?_⟩
      have hbefore := (keepsControl_register v i config p).context c hc
      have hlast : c = (w.enter p).contexts.size := by
        have hstart := hadopt.context c hbefore
        rw [hfresh] at hstart
        exact (Option.some.inj hstart).symm
      refine ⟨hbefore,?_,Option.eq_none_iff_forall_ne_some.mpr fun k hk => ?_⟩
      · rw [hadopt.contexts, hsize, hlast]
        exact Nat.lt_succ_self _
      · have hhook := hadopt.hook c k hk
        rw [hlast, hnone] at hhook
        cases hhook

theorem keepsHook_begin (w : World) (h : WorkerId) (d : ContextId) (objects : List Stored) :
    KeepsHook c w (w.begun h d objects) :=
  ((keepsHook_setHandle w h _).trans (keepsHook_loadAll _ d objects)).trans (keepsHook_setStore _ _)

end World

def Stage.Past {F : Type} : Stage F → Prop
  | .starting .. | .running .. => False
  | _ => True

theorem Worker.past_afterExit {U N : Type} (c : ContextId) (e : Exit (Frame U N)) :
    (afterExit c e).Past := by
  rcases afterExit_cases c e with ⟨_,hnext⟩ | ⟨_,hnext⟩ <;> rw [hnext] <;> trivial

/-- A worker runs its code, begins to, or is done with it. -/
theorem Worker.step_cases {U N : Type} {lib : Library U N} {w w' : World}
    {worker worker' : Worker (Frame U N)} (hstep : worker.step lib w = .ran worker' w') :
    (∃ c s s', worker.stage = .running c s ∧ worker'.stage = .running c s' ∧
      s.step lib c w = .ran s' w') ∨
      (∃ c routine arguments values, worker.stage = .starting routine arguments ∧
        worker'.stage = .running c (.ofCall routine values) ∧
        (w.handle worker.handle).context = some c ∧
        w.KeepsHook c w') ∨ worker'.stage.Past := by
  obtain ⟨h,stage⟩ := worker
  obtain ⟨stage',rfl,ht⟩ := transition_of_step hstep
  cases ht with
  | @runs c s s' _ hs => exact .inl ⟨c,s,s',rfl,rfl,hs⟩
  | @begins c values routine arguments hcontext =>
    exact .inr (.inl ⟨c,routine,arguments,values,rfl,rfl,hcontext,World.keepsHook_begin w h c arguments⟩)
  | exits => exact .inr (.inr (past_afterExit _ _))
  | deserted | unloaded | collects | uncollected | destroys | completes => exact .inr (.inr trivial)
  | canceled | stops | fails | publishes | announces | leaves => exact .inr (.inr trivial)

namespace WorkerState

variable {U N : Type} {lib : Library U N} {x y : WorkerState U N} {w : World} {n : NotifierId}

def RunsIn (x : WorkerState U N) (c : ContextId) : Prop :=
  (∃ routine arguments, x.worker.stage = .starting routine arguments) ∧
      (x.world.handle x.worker.handle).context = some c ∨
    ∃ s, x.worker.stage = .running c s

def AwaitsNotifier (x : WorkerState U N) (n : NotifierId) : Prop :=
  ∃ c s, x.worker.stage = .running c s ∧ s.phase.awaits = some n

def SleepsPastFlag (x : WorkerState U N) (n : NotifierId) : Prop :=
  ∃ c s, x.worker.stage = .running c s ∧ s.SleepsPastFlag x.world x.worker.handle n

def SleepNotified (x : WorkerState U N) : Prop := ∀ n, x.AwaitsNotifier n → x.world.isNotified n = true

def destroys (x : WorkerState U N) : Bool :=
  match x.worker.stage with
  | .running _ s => s.phase.destroys
  | _ => false

structure SleepUntouched (x : WorkerState U N) (w : World) : Prop where
  target : (w.handle x.worker.handle).target = (x.world.handle x.worker.handle).target
  context : ∀ c, (w.handle x.worker.handle).context = some c →
      (x.world.handle x.worker.handle).context = some c
  hook : ∀ c, x.RunsIn c → (w.context c).hook = (x.world.context c).hook
  notifiers : x.world.notifiers.size ≤ w.notifiers.size
  notified : ∀ n, x.AwaitsNotifier n → x.world.isNotified n = true → w.isNotified n = true

theorem sleepUntouched_errand {e e' : Errand} (hstep : e.step x.world = .ran e' w) :
    x.SleepUntouched w where
  target := (World.target_errand x.worker.handle hstep).1
  context _ hc := (World.target_errand x.worker.handle hstep).2.symm.trans hc
  hook _ _ := (World.keepsHook_errand hstep).hook
  notifiers := (World.keepsHook_errand (c := 0) hstep).notifiers
  notified n _ hn := (World.keepsHook_errand (c := 0) hstep).notified n hn

/-- The context of the worker reports to it, and what the worker runs is plain. -/
structure Interruptible (x : WorkerState U N) : Prop where
  hook : ∀ c, x.RunsIn c → (x.world.context c).hook = some (.worker x.worker.handle)
  runsPlain : ∀ c s, x.worker.stage = .running c s → s.RunsPlain x.world x.worker.handle

theorem Interruptible.sleepUntouched (hx : Interruptible x) (hleft : x.SleepUntouched w) :
    Interruptible ⟨w,x.worker⟩ := by
  refine ⟨fun c hc => ?_,fun c s hs => (hx.runsPlain c s hs).keep hleft.target hleft.notifiers⟩
  have howns : x.RunsIn c := hc.imp (fun ⟨hstage,hcontext⟩ => ⟨hstage,hleft.context c hcontext⟩) id
  exact (hleft.hook c howns).trans (hx.hook c howns)

theorem Launched.interruptible (hx : Launched x) : Interruptible x := by
  obtain ⟨w,w',p,config,routine,arguments,adopted,h,hprepare,rfl⟩ := hx
  obtain ⟨v,rfl,hbefore⟩ := World.registered_of_prepare hprepare
  refine ⟨fun c hc => ?_,fun _ _ hs => by cases hs⟩
  rcases hc with ⟨_,hc⟩ | ⟨s,hs⟩
  · obtain ⟨hcontext,hin,hunhooked⟩ := hbefore c hc
    exact World.hook_configure hcontext hin hunhooked config
  · cases hs

theorem not_runsIn_of_past (hpast : x.worker.stage.Past) (c : ContextId) : ¬ x.RunsIn c := by
  rintro (⟨⟨routine,arguments,hstage⟩,_⟩ | ⟨s,hstage⟩) <;> rw [hstage] at hpast <;> exact hpast

theorem RunsIn.unique {c d : ContextId} {s : Strand (Frame U N)} (hc : x.RunsIn c)
    (hstage : x.worker.stage = .running d s) :
    c = d := by
  rcases hc with ⟨⟨routine,arguments,hstage'⟩,_⟩ | ⟨s',hstage'⟩
  · rw [hstage'] at hstage
    cases hstage
  · rw [hstage'] at hstage
    exact (Stage.running.inj hstage).1

theorem interruptible_running {c : ContextId} {s : Strand (Frame U N)}
    (hstage : x.worker.stage = .running c s)
    (hhook : (x.world.context c).hook = some (.worker x.worker.handle))
    (hs : s.RunsPlain x.world x.worker.handle) :
    Interruptible x := by
  refine ⟨fun d hd => ?_,fun d t ht => ?_⟩
  · rw [hd.unique hstage, hhook]
  · obtain ⟨_,rfl⟩ := Stage.running.inj (hstage.symm.trans ht)
    exact hs

theorem Interruptible.registered (hx : Interruptible x) (hn : x.AwaitsNotifier n) :
    n < x.world.notifiers.size ∧ (x.world.handle x.worker.handle).target = some n := by
  obtain ⟨c,s,hstage,hwait⟩ := hn
  exact (hx.runsPlain c s hstage).awaits hwait

theorem Interruptible.sleepsPastFlag (hx : Interruptible x) (hn : x.AwaitsNotifier n) :
    x.SleepsPastFlag n := by
  obtain ⟨c,s,hstage,hwait⟩ := hn
  exact ⟨c,s,hstage,(hx.runsPlain c s hstage).sleepsPastFlag hwait⟩

theorem Interruptible.noted (hx : Interruptible x) (hn : x.SleepsPastFlag n) :
    n < x.world.notifiers.size ∧ (x.world.handle x.worker.handle).target = some n := by
  obtain ⟨c,s,hstage,hsleeps⟩ := hn
  exact ⟨(hx.runsPlain c s hstage).registered hsleeps,hsleeps.target⟩

def NoNewSleeper (x y : WorkerState U N) : Prop :=
  ∀ n, y.AwaitsNotifier n → x.AwaitsNotifier n ∧
  (x.world.isNotified n = true → y.world.isNotified n = true)

def NonePassFlag (x y : WorkerState U N) : Prop :=
  ∀ n, y.SleepsPastFlag n → x.SleepsPastFlag n ∧
  (x.world.isNotified n = true → y.world.isNotified n = true)

theorem NoNewSleeper.sleepNotified (hnosleeper : NoNewSleeper x y) (hx : x.SleepNotified) :
    y.SleepNotified := by
  intro n hn
  obtain ⟨hn',hnotified⟩ := hnosleeper n hn
  exact hnotified (hx n hn')

/-- A worker whose code does not destroy the context looks for a cancellation before it goes to
sleep, and at the flag before that. -/
theorem Interruptible.works (hx : Interruptible x) (hlib : lib.Plain) (hsound : Sound x)
    (hkeeps : x.destroys = false) (hworks : Works lib x y) :
    Interruptible y ∧ (x.control.command = .cancel → NoNewSleeper x y) ∧
    (x.requested = true → NonePassFlag x y) := by
  have hhandle := hworks.handle_eq
  rcases Worker.step_cases hworks with ⟨c,s,s',hstage,hstage',hs⟩ |
    ⟨c,routine,arguments,values,hstage,hstage',hcontext,hleaves⟩ | hpast
  · have hhook := hx.hook c (.inr ⟨s,hstage⟩)
    have hadvance := (hx.runsPlain c s hstage).plainStep hlib hsound.range hhook hs
    have hleaves : x.world.KeepsHook c y.world := by
      rw [destroys, hstage] at hkeeps
      exact Strand.keepsHook_step hkeeps hs
    refine ⟨interruptible_running hstage' (by rw [hhandle, hleaves.hook, hhook])
      (hhandle ▸ hadvance.runsPlain),?_,?_⟩
    · rintro hcancel n ⟨d,t,ht,hwait⟩
      obtain ⟨_,rfl⟩ := Stage.running.inj (hstage'.symm.trans ht)
      have hbefore := (hadvance.awaits n hwait).resolve_right fun hne => hne hcancel
      exact ⟨⟨c,s,hstage,hbefore⟩,hleaves.notified n⟩
    · rintro hrequested n ⟨d,t,ht,hsleeps⟩
      obtain ⟨_,rfl⟩ := Stage.running.inj (hstage'.symm.trans ht)
      rw [hhandle] at hsleeps
      have hbefore := (hadvance.sleepsPastFlag n hsleeps).resolve_right fun hnot => by
        cases hrequested.symm.trans hnot
      exact ⟨⟨c,s,hstage,hbefore⟩,hleaves.notified n⟩
  · have hhook := hx.hook c (.inl ⟨⟨routine,arguments,hstage⟩,hcontext⟩)
    have hcall : (Act.call (α := Outcome) routine values .done).Plain :=
      .call fun outcome => .done outcome
    have hrests : (Strand.ofCall routine values : Strand (Frame U N)).RunsPlain y.world
        y.worker.handle :=
      Strand.runsPlain_outsideSleep (fun _ hcaller => absurd hcaller List.not_mem_nil) (.acting hcall)
    refine ⟨interruptible_running hstage' (by rw [hhandle, hleaves.hook, hhook]) hrests,?_,?_⟩
    · rintro _ n ⟨d,t,ht,hwait⟩
      obtain ⟨_,rfl⟩ := Stage.running.inj (hstage'.symm.trans ht)
      cases hwait
    · rintro _ n ⟨d,t,ht,hsleeps⟩
      obtain ⟨_,rfl⟩ := Stage.running.inj (hstage'.symm.trans ht)
      exact absurd (.acting hcall) hsleeps.not_outsideSleep
  · have hnone : ∀ c s, y.worker.stage ≠ .running c s :=
      fun c s hs => not_runsIn_of_past hpast c (.inr ⟨s,hs⟩)
    refine ⟨⟨fun c hc => (not_runsIn_of_past hpast c hc).elim,fun c s hs => (hnone c s hs).elim⟩,?_,?_⟩
    all_goals
      rintro _ n ⟨c,s,hs,_⟩
      exact (hnone c s hs).elim

/-- One step of the worker, of the controller in question, of any other, or of anybody else. -/
inductive ControlledStep (lib : Library U N) : WorkerState U N → Errand → WorkerState U N → Errand → Prop
  | worker {x y : WorkerState U N} {e : Errand} (hworks : Works lib x y) : ControlledStep lib x e y e
  | errand {x : WorkerState U N} {e e' : Errand} {w : World} (hstep : e.step x.world = .ran e' w) :
      ControlledStep lib x e ⟨w,x.worker⟩ e'
  | another {x : WorkerState U N} {e f f' : Errand} {w : World} (hstep : f.step x.world = .ran f' w) :
      ControlledStep lib x e ⟨w,x.worker⟩ e
  | other {x : WorkerState U N} {e : Errand} {w : World}
      (hcontrol : x.world.KeepsControl x.worker.handle w) (hleft : x.SleepUntouched w) :
      ControlledStep lib x e ⟨w,x.worker⟩ e

variable {e e' : Errand}

theorem ControlledStep.step (hstep : ControlledStep lib x e y e') : Step lib x y := by
  cases hstep with
  | worker hworks => exact .worker hworks
  | errand hstep | another hstep => exact .errand hstep
  | other hcontrol => exact .other hcontrol

theorem ControlledStep.handle_eq (hstep : ControlledStep lib x e y e') :
    y.worker.handle = x.worker.handle := by
  cases hstep with
  | worker hworks => exact hworks.handle_eq
  | errand | another | other => rfl

theorem ControlledStep.errand_or (hstep : ControlledStep lib x e y e') :
    e.step x.world = .ran e' y.world ∨ e' = e := by
  cases hstep with
  | errand hstep => exact .inl hstep
  | worker | another | other => exact .inr rfl

/-- Under a cancellation nobody falls asleep. -/
theorem ControlledStep.interruptible (hstep : ControlledStep lib x e y e') (hx : Interruptible x)
    (hlib : lib.Plain) (hsound : Sound x) (hkeeps : x.destroys = false) :
    Interruptible y ∧ (x.control.command = .cancel → NoNewSleeper x y) := by
  have hothers : ∀ w : World, x.SleepUntouched w → Interruptible (⟨w,x.worker⟩ : WorkerState U N) ∧
      (x.control.command = .cancel → NoNewSleeper x ⟨w,x.worker⟩) :=
    fun w hleft => ⟨hx.sleepUntouched hleft,fun _ n hn => ⟨hn,hleft.notified n hn⟩⟩
  cases hstep with
  | worker hworks =>
    obtain ⟨hy,hnosleeper,_⟩ := hx.works hlib hsound hkeeps hworks
    exact ⟨hy,hnosleeper⟩
  | errand hstep | another hstep => exact hothers _ (sleepUntouched_errand hstep)
  | other _ hleft => exact hothers _ hleft

inductive InterruptProgress (h : WorkerId) (rest : List Order) (x : WorkerState U N) : Errand → Prop
  | reading {e : Errand} (horders : e.orders = .interrupt h :: rest) : InterruptProgress h rest x e
  | waking {e : Errand} {m : NotifierId} (horders : e.orders = .fire m :: rest)
      (hnews : ∀ n, x.AwaitsNotifier n → n = m ∨ x.world.isNotified n = true) :
      InterruptProgress h rest x e
  | ended {e : Errand} (hnews : x.SleepNotified) : InterruptProgress h rest x e

variable {h : WorkerId} {rest : List Order}

theorem InterruptProgress.noNewSleeper (hon : InterruptProgress h rest x e)
    (hnosleeper : NoNewSleeper x y) : InterruptProgress h rest y e := by
  cases hon with
  | reading horders => exact .reading horders
  | waking horders hnews =>
    refine .waking horders fun n hn => ?_
    obtain ⟨hn',hnotified⟩ := hnosleeper n hn
    exact (hnews n hn').imp id hnotified
  | ended hnews => exact .ended (hnosleeper.sleepNotified hnews)

/-- What the controller reads is what the sleeper waits for, if there is one. -/
theorem InterruptProgress.errand (hon : InterruptProgress x.worker.handle rest x e)
    (hx : Interruptible x) (hnosleeper : NoNewSleeper x y)
    (hstep : e.step x.world = .ran e' y.world) : InterruptProgress x.worker.handle rest y e' := by
  cases hon with
  | reading horders =>
    simp only [Errand.step, horders] at hstep
    split at hstep
    · rename_i m htarget
      obtain ⟨rfl,_⟩ := Progress.ran.inj hstep
      refine .waking rfl fun n hn => .inl ?_
      have hregistered := (hx.registered (hnosleeper n hn).1).2
      exact Option.some.inj (hregistered.symm.trans htarget)
    · rename_i htarget
      refine .ended fun n hn => ?_
      have hregistered := (hx.registered (hnosleeper n hn).1).2
      rw [htarget] at hregistered
      cases hregistered
  | @waking m horders hnews =>
    simp only [Errand.step, horders] at hstep
    obtain ⟨_,hw⟩ := Progress.ran.inj hstep
    refine .ended fun n hn => ?_
    obtain ⟨hn',hnotified⟩ := hnosleeper n hn
    rcases hnews n hn' with rfl | hbefore
    · rw [← hw]
      exact World.isNotified_notify (hx.registered hn').1
    · exact hnotified hbefore
  | ended hnews => exact .ended (hnosleeper.sleepNotified hnews)

theorem InterruptProgress.controlledStep (hon : InterruptProgress x.worker.handle rest x e)
    (hx : Interruptible x) (hnosleeper : NoNewSleeper x y) (hstep : ControlledStep lib x e y e') :
    InterruptProgress x.worker.handle rest y e' := by
  rcases hstep.errand_or with herrand | rfl
  · exact hon.errand hx hnosleeper herrand
  · exact hon.noNewSleeper hnosleeper

structure ControlledExecution (lib : Library U N) where
  state : ℕ → WorkerState U N
  errand : ℕ → Errand
  launched : Launched (state 0)
  step (n : ℕ) : ControlledStep lib (state n) (errand n) (state (n + 1)) (errand (n + 1))

namespace ControlledExecution

variable (r : ControlledExecution lib) {i j k : ℕ} {rest : List Order}

def execution : Execution lib where
  state := r.state
  launched := r.launched
  step n := (r.step n).step

theorem sound (n : ℕ) : Sound (r.state n) := r.execution.sound n

def handle : WorkerId := (r.state 0).worker.handle

theorem handle_eq (n : ℕ) : (r.state n).worker.handle = r.handle := by
  induction n with
  | zero => rfl
  | succ n ih => exact (r.step n).handle_eq.trans ih

/-- From one time on the controller cancels the worker, and by the other it has woken what was
registered. -/
structure Cancels (r : ControlledExecution lib) (i j : ℕ) (rest : List Order) : Prop where
  before : (r.errand i).orders = .put r.handle .cancel :: .interrupt r.handle :: rest
  put : (r.errand (i + 1)).orders = .interrupt r.handle :: rest
  later : i < j
  after : (r.errand j).orders = rest

theorem interruptible (hlib : lib.Plain) (hkeeps : ∀ m < k, (r.state m).destroys = false) :
    Interruptible (r.state k) := by
  induction k with
  | zero => exact r.launched.interruptible
  | succ k ih =>
    have hx := ih fun m hm => hkeeps m (Nat.lt_succ_of_lt hm)
    exact ((r.step k).interruptible hx hlib (r.sound k) (hkeeps k (Nat.lt_succ_self k))).1

theorem noNewSleeper (hlib : lib.Plain) (hkeeps : ∀ m < k + 1, (r.state m).destroys = false)
    (hcancel : (r.state k).control.command = .cancel) : NoNewSleeper (r.state k) (r.state (k + 1)) := by
  have hx := r.interruptible hlib fun m (hm : m < k) => hkeeps m (Nat.lt_succ_of_lt hm)
  exact ((r.step k).interruptible hx hlib (r.sound k) (hkeeps k (Nat.lt_succ_self k))).2 hcancel

/-- An interruption under way goes on, as long as the cancellation is the latest command. -/
theorem interruptProgress (hlib : lib.Plain)
    (hon : InterruptProgress r.handle rest (r.state i) (r.errand i)) (hik : i ≤ k)
    (hlatest : ∀ m, i ≤ m → m < k → (r.state m).control.command = .cancel)
    (hkeeps : ∀ m < k, (r.state m).destroys = false) :
    InterruptProgress r.handle rest (r.state k) (r.errand k) := by
  induction k, hik using Nat.le_induction with
  | base => exact hon
  | succ k hik ih =>
    have hbefore : ∀ m < k, (r.state m).destroys = false := fun m hm => hkeeps m (Nat.lt_succ_of_lt hm)
    have hk := ih (fun m him hmk => hlatest m him (Nat.lt_succ_of_lt hmk)) hbefore
    have hnosleeper := r.noNewSleeper hlib hkeeps (hlatest k hik (Nat.lt_succ_self k))
    rw [← r.handle_eq k] at hk ⊢
    exact hk.controlledStep (r.interruptible hlib hbefore) hnosleeper (r.step k)

theorem sleepNotified (hlib : lib.Plain) (hjk : j ≤ k)
    (hlatest : ∀ m, j ≤ m → m < k → (r.state m).control.command = .cancel)
    (hkeeps : ∀ m < k, (r.state m).destroys = false) (hj : (r.state j).SleepNotified) :
    (r.state k).SleepNotified := by
  induction k, hjk using Nat.le_induction with
  | base => exact hj
  | succ k hjk ih =>
    have hk := ih (fun m hjm hmk => hlatest m hjm (Nat.lt_succ_of_lt hmk)) fun m hm =>
      hkeeps m (Nat.lt_succ_of_lt hm)
    exact (r.noNewSleeper hlib hkeeps (hlatest k hjk (Nat.lt_succ_self k))).sleepNotified hk

/-- When a controller has cancelled the worker and this is still the latest command, whatever the
worker sleeps with has been notified.  Code that destroys its context is left out, since the hook
goes with it and nothing is registered from then on. -/
theorem cancel_wakes (hlib : lib.Plain) (hcancels : r.Cancels i j rest) (hjk : j ≤ k)
    (hlatest : ∀ m, i < m → m ≤ k → (r.state m).control.command = .cancel)
    (hkeeps : ∀ m < k, (r.state m).destroys = false) : (r.state k).SleepNotified := by
  have hon := r.interruptProgress hlib (.reading hcancels.put) hcancels.later
    (fun m him hmj => hlatest m him (hmj.le.trans hjk)) fun m hm => hkeeps m (hm.trans_le hjk)
  have hover : (r.state j).SleepNotified := by
    -- the orders that are left are too few for an interruption that is not over
    cases hon with
    | reading horders | waking horders =>
      rw [hcancels.after] at horders
      exact absurd horders.symm (List.cons_ne_self _ _)
    | ended hnews => exact hnews
  exact r.sleepNotified hlib hjk (fun m hjm hmk => hlatest m (hcancels.later.trans_le hjm) hmk.le)
    hkeeps hover

end ControlledExecution

def sleepingCode : Library Unit Unit where
  load _ _ := .ok (.own ())
  step _ := (Act.sleepFor (.ofMillis 1000)).bind fun _ => .done ((),.finish [])
  receive _ outcome := .done ((),refuse outcome)
  describe _ := ""
  body _ := .done ((),.finish [])

theorem plain_sleepingCode : sleepingCode.Plain where
  step _ := (Act.plain_sleepFor _).bind fun _ => .done _
  receive _ _ := .done _
  body _ := .done _

theorem SleepUntouched.refl (x : WorkerState U N) : x.SleepUntouched x.world :=
  ⟨rfl,fun _ hc => hc,fun _ _ => rfl,le_rfl,fun _ _ hn => hn⟩

def sleepOrOrder (p : WorkerState Unit Unit × Errand) : WorkerState Unit Unit × Errand :=
  match p.1.worker.step sleepingCode p.1.world with
  | .ran worker w => (⟨w,worker⟩,p.2)
  | .blocked _ =>
    match p.2.step p.1.world with
    | .ran e w => (⟨w,p.1.worker⟩,e)
    | .blocked _ => p

theorem controlledStep_sleepOrOrder (p : WorkerState Unit Unit × Errand) :
    ControlledStep sleepingCode p.1 p.2 (sleepOrOrder p).1 (sleepOrOrder p).2 := by
  unfold sleepOrOrder
  split
  · rename_i hworks
    exact .worker hworks
  · split
    · rename_i hstep
      exact .errand hstep
    · exact .other (.refl _ _) (.refl _)

def canceledSleep : ControlledExecution sleepingCode where
  state n := (sleepOrOrder^[n] (fresh,.cancel 0 none)).1
  errand n := (sleepOrOrder^[n] (fresh,.cancel 0 none)).2
  launched := launched_fresh
  step n := by
    rw [Function.iterate_succ_apply']
    exact controlledStep_sleepOrOrder _

theorem cancels_canceledSleep : canceledSleep.Cancels 10 13 [.await (.status 0) none] :=
  ⟨rfl,rfl,by decide,rfl⟩

theorem awaitsNotifier_canceledSleep : (canceledSleep.state 13).AwaitsNotifier 0 := ⟨0,_,rfl,rfl⟩

theorem cancel_wakes_canceledSleep :
    canceledSleep.Cancels 10 13 [.await (.status 0) none] ∧
    (canceledSleep.state 13).AwaitsNotifier 0 ∧
    (canceledSleep.state 13).SleepNotified := by
  have hlatest : ∀ m < 14, 10 < m → (canceledSleep.state m).control.command = .cancel := by decide
  have hkeeps : ∀ m < 13, (canceledSleep.state m).destroys = false := by decide
  exact ⟨cancels_canceledSleep,awaitsNotifier_canceledSleep,
    canceledSleep.cancel_wakes plain_sleepingCode cancels_canceledSleep le_rfl
    (fun m hm hmk => hlatest m (Nat.lt_succ_of_le hmk) hm) hkeeps⟩

end WorkerState

end Workers
