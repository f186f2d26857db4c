import Workers.Proofs.Control.Strand
import Workers.Proofs.Lists
import Workers.System
/-! # How final a terminal status is

One worker runs while controllers put commands and other threads do whatever does not take the lock
of its control.  A terminal status stays, with one exception: a pause that was put between the
worker's look at a cancellation and its stop is still pending after the stop, and code that ignores
the stop and ticks again acknowledges it.
-/
namespace Workers

namespace Check

def Harmless : Check → Prop
  | tickShutdown | tickCommand | pointShutdown | pointCommand | stop => True
  | acknowledge | awaitCommand | reconsider | resume => False

theorem harmless_start (kind : CheckKind) : (start kind).Harmless := by
  cases kind <;> trivial

variable {at_ next : Check} {shutdown stopped : Bool} {c c' : Control}

/-- Only the acknowledgement of a pause writes on the way. -/
theorem control_goto (h : at_.step shutdown c = .goto next c') :
    at_ ≠ .acknowledge ∧ c' = c ∨ at_ = .acknowledge ∧ c' = c.acknowledgePause := by
  cases at_ with
  | acknowledge => cases h; exact .inr ⟨rfl,rfl⟩
  | tickShutdown | pointShutdown => cases h; exact .inl ⟨nofun,rfl⟩
  | tickCommand | reconsider =>
    simp only [step] at h
    split at h <;> cases h <;> exact .inl ⟨nofun,rfl⟩
  | pointCommand =>
    simp only [step] at h
    split at h <;> cases h
    exact .inl ⟨nofun,rfl⟩
  | awaitCommand =>
    simp only [step] at h
    split at h <;> cases h
    exact .inl ⟨nofun,rfl⟩
  | resume | stop => cases h

/-- A check only leaves the harmless points for a pause that it has just read. -/
theorem harmless_goto (hat : at_.Harmless) (h : at_.step shutdown c = .goto next c') :
    next.Harmless ∨ next = .acknowledge ∧ c.command = .pause := by
  cases at_ with
  | tickShutdown | pointShutdown =>
    cases h
    cases shutdown <;> exact .inl trivial
  | tickCommand =>
    simp only [step] at h
    split at h
    · cases h
    · cases h
      exact .inl trivial
    · rename_i hpause
      cases h
      exact .inr ⟨rfl,hpause⟩
  | pointCommand =>
    simp only [step] at h
    split at h <;> cases h
    exact .inl trivial
  | stop => cases h
  | acknowledge | awaitCommand | reconsider | resume => exact hat.elim

/-- A check ends without a word, by resuming, or by stopping. -/
theorem control_finish (h : at_.step shutdown c = .finish stopped c') :
    stopped = false ∧ c' = c ∨ at_ = .resume ∧ c' = c.changeStatus .running ∨
      stopped = true ∧ c' = c.changeStatus .canceled := by
  cases at_ with
  | tickCommand =>
    simp only [step] at h
    split at h <;> cases h
    exact .inl ⟨rfl,rfl⟩
  | pointCommand =>
    simp only [step] at h
    split at h <;> cases h <;> exact .inl ⟨rfl,rfl⟩
  | resume => cases h; exact .inr (.inl ⟨rfl,rfl⟩)
  | stop => cases h; exact .inr (.inr ⟨rfl,rfl⟩)
  | awaitCommand | reconsider =>
    simp only [step] at h
    split at h <;> cases h
  | tickShutdown | acknowledge | pointShutdown => cases h

end Check

theorem Control.status_putCommand (c : Control) (command : Command) :
    (c.putCommand command).status = c.status := by
  unfold putCommand
  split <;> rfl

/-- A worker and the world around it. -/
structure WorkerState (U N : Type) where
  world : World
  worker : Worker (Frame U N)

namespace WorkerState

variable {U N : Type} {lib : Library U N}

def control (x : WorkerState U N) : Control := (x.world.handle x.worker.handle).control

def status (x : WorkerState U N) : Status := x.control.status

/-- One step of the worker, of an errand of a controller, or of anybody else who does not take the
lock of the control. -/
inductive Step (lib : Library U N) : WorkerState U N → WorkerState U N → Prop
  | worker {x : WorkerState U N} {worker : Worker (Frame U N)} {w : World}
      (hstep : x.worker.step lib x.world = .ran worker w) : Step lib x ⟨w,worker⟩
  | errand {x : WorkerState U N} {e e' : Errand} {w : World} (hstep : e.step x.world = .ran e' w) :
      Step lib x ⟨w,x.worker⟩
  | other {x : WorkerState U N} {w : World} (hkeeps : x.world.KeepsControl x.worker.handle w) :
      Step lib x ⟨w,x.worker⟩

abbrev Steps (lib : Library U N) : WorkerState U N → WorkerState U N → Prop :=
  Relation.ReflTransGen (Step lib)

/-- A worker that has just been started, in any world. -/
def Launched (x : WorkerState U N) : Prop :=
  ∃ (w w' : World) (p : PoolId) (config : Config) (routine : Routine)
    (arguments adopted : List Stored) (h : WorkerId),
    w.prepare p config arguments = (.ok (h,adopted),w') ∧
    x = ⟨w',{ handle := h, stage := .starting routine adopted }⟩

def Reachable (lib : Library U N) (x : WorkerState U N) : Prop := ∃ y, Launched y ∧ Steps lib y x

/-- How far the worker is fits its control and its context. -/
def Fits (w : World) (h : WorkerId) : Stage (Frame U N) → Prop
  | .starting _ _ => ¬ (w.handle h).control.status.isTerminal = true ∧
      ∀ c, (w.handle h).context = some c → c < w.contexts.size
  | .running c s => c < w.contexts.size ∧ Called s ∧ ((w.handle h).control.status.isTerminal = true →
      (w.handle h).control.status = .canceled ∧ (w.context c).stopping = true ∧
      ¬ s.phase.EndsWithValues ∧
      ∀ at_, s.checkOf h = some at_ →
        at_.Harmless ∨ at_ = .acknowledge ∧ (w.handle h).control.command = .pause)
  | .collecting _ _ => ¬ (w.handle h).control.status.isTerminal = true
  | .destroying _ e | .judging e => (w.handle h).control.status.isTerminal = true →
      (w.handle h).control.status = .canceled ∧ ∀ results, e ≠ .completed results
  | .publishing _ status | .announcing status => ¬ (w.handle h).control.status.isTerminal = true ∧
      status.isTerminal = true
  | .leaving | .gone => True

structure Sound (x : WorkerState U N) : Prop where
  range : x.worker.handle < x.world.handles.size
  latched : x.status.isTerminal = true → x.control.completed.latched = true
  fits : Fits x.world x.worker.handle x.worker.stage

variable {w w' : World} {h : WorkerId} {x y : WorkerState U N}

/-- What leaves the control alone keeps the fit. -/
theorem Fits.keepsControl {stage : Stage (Frame U N)} (hf : Fits w h stage)
    (hs : w.KeepsControl h w') : Fits w' h stage := by
  cases stage with
  | starting routine arguments =>
    obtain ⟨hrun,hcontext⟩ := hf
    exact ⟨by rwa [hs.control],fun c hc => (hcontext c (hs.context c hc)).trans_le hs.contexts⟩
  | running c s =>
    obtain ⟨hc,hcalled,hterm⟩ := hf
    refine ⟨hc.trans_le hs.contexts,hcalled,fun ht => ?_⟩
    rw [hs.control] at ht ⊢
    obtain ⟨hcanceled,hstop,hwins,hat⟩ := hterm ht
    exact ⟨hcanceled,hs.stopping c hc hstop,hwins,hat⟩
  | collecting c values => exact fun ht => hf (by rwa [hs.control] at ht)
  | destroying c e | judging e =>
    intro ht
    rw [hs.control] at ht ⊢
    exact hf ht
  | publishing results status | announcing status => exact ⟨by rw [hs.control]; exact hf.1,hf.2⟩
  | leaving | gone => trivial

theorem Sound.keepsControl (hx : Sound x) (hs : x.world.KeepsControl x.worker.handle w) :
    Sound ⟨w,x.worker⟩ where
  range := hx.range.trans_le hs.handles
  latched := by
    have hcontrol : (⟨w,x.worker⟩ : WorkerState U N).control = x.control := hs.control
    simp only [status, hcontrol]
    exact hx.latched
  fits := hx.fits.keepsControl hs

theorem handle_withControl (hh : h < w.handles.size) (control : Control) :
    (Strand.withControl w h control).handle h = { w.handle h with control } :=
  World.handle_setHandle_self hh _

/-- A worker that is not done yet takes any command. -/
theorem Fits.command {stage : Stage (Frame U N)} (hf : Fits w h stage) {control : Control}
    (hstatus : control.status = (w.handle h).control.status)
    (hrun : ¬ (w.handle h).control.status.isTerminal = true) (hh : h < w.handles.size) :
    Fits (Strand.withControl w h control) h stage := by
  have hself := handle_withControl hh control
  have hrun' : ¬ ((Strand.withControl w h control).handle h).control.status.isTerminal = true := by
    rw [hself]
    simpa only [hstatus] using hrun
  cases stage with
  | starting routine arguments => exact ⟨hrun',fun c hc => hf.2 c (by rwa [hself] at hc)⟩
  | running c s => exact ⟨hf.1,hf.2.1,fun ht => absurd ht hrun'⟩
  | collecting c values => exact hrun'
  | destroying c e | judging e => exact fun ht => absurd ht hrun'
  | publishing results status | announcing status => exact ⟨hrun',hf.2⟩
  | leaving | gone => trivial

/-- An errand puts a command to the worker, or has nothing to do with its control. -/
theorem errand_control {e e' : Errand} (h : WorkerId) (hstep : e.step w = .ran e' w') :
    w.KeepsControl h w' ∨ ∃ command, w' = w.putCommand h command := by
  rcases Errand.step_cases hstep with ⟨i,command,rfl⟩ | ⟨n,rfl⟩ | ⟨p,rfl⟩ | rfl
  · by_cases hi : i = h
    · subst hi
      exact .inr ⟨command,rfl⟩
    · exact .inl (World.keepsControl_setHandle w i _ (fun hi' => absurd hi' hi) fun hi' => absurd hi' hi)
  · exact .inl (.of_eq rfl rfl)
  · exact .inl (.of_eq rfl rfl)
  · exact .inl (.refl h _)

theorem putCommand_of_terminal (hterm : (w.handle h).control.status.isTerminal = true)
    (command : Command) :
    w.KeepsControl h (w.putCommand h command) := by
  refine World.keepsControl_setHandle w h _ (fun _ => ?_) fun _ _ hc => hc
  exact if_pos hterm

theorem Sound.put (hx : Sound x) (command : Command) :
    Sound ⟨x.world.putCommand x.worker.handle command,x.worker⟩ := by
  by_cases hterm : x.status.isTerminal = true
  · exact hx.keepsControl (putCommand_of_terminal hterm command)
  · have hput := Control.status_putCommand (x.world.handle x.worker.handle).control command
    have hself : (x.world.putCommand x.worker.handle command).handle x.worker.handle = _ :=
      World.handle_setHandle_self hx.range _
    refine ⟨by simpa [World.putCommand] using hx.range,fun ht => ?_,hx.fits.command hput hterm hx.range⟩
    simp only [status, control, hself, hput] at ht
    exact absurd ht hterm

/-- A step of running code under which the control stays as it is. -/
theorem Sound.same {c : ContextId} {s s' : Strand (Frame U N)}
    (hx : Sound (⟨w,{ handle := h, stage := .running c s }⟩ : WorkerState U N))
    (hkeeps : w.KeepsControl h w') (hstep : s.step lib c w = .ran s' w')
    (hat : (w.handle h).control.status.isTerminal = true → ∀ at_, s'.checkOf h = some at_ →
      at_.Harmless ∨ at_ = .acknowledge ∧ (w.handle h).control.command = .pause) :
    Sound (⟨w',{ handle := h, stage := .running c s' }⟩ : WorkerState U N) := by
  obtain ⟨hc,hcalled,hterm⟩ := hx.fits
  obtain ⟨hrange,hlatched,hc',_,hterm'⟩ := hx.keepsControl hkeeps
  refine ⟨hrange,hlatched,hc',Strand.called_step hcalled hstep,fun ht => ?_⟩
  have hcontrol : (w'.handle h).control = (w.handle h).control := hkeeps.control
  have ht' : (w.handle h).control.status.isTerminal = true := by rwa [← hcontrol]
  obtain ⟨hcanceled,hstop,_,_⟩ := hterm' ht
  obtain ⟨_,hstop',hwins,_⟩ := hterm ht'
  refine ⟨hcanceled,hstop,Strand.not_endsWithValues_step hcalled hstop' hwins hstep,?_⟩
  rw [hcontrol]
  exact hat ht'

theorem Sound.open {c : ContextId} {s' : Strand (Frame U N)} (hh : h < w'.handles.size)
    (hc : c < w'.contexts.size) (hcalled : Called s')
    (hopen : ¬ (w'.handle h).control.status.isTerminal = true) :
    Sound (⟨w',{ handle := h, stage := .running c s' }⟩ : WorkerState U N) :=
  ⟨hh,fun ht => absurd ht hopen,hc,hcalled,fun ht => absurd ht hopen⟩

theorem size_withControl (w : World) (h : WorkerId) (control : Control) :
    w.handles.size ≤ (Strand.withControl w h control).handles.size ∧
      w.contexts.size ≤ (Strand.withControl w h control).contexts.size :=
  ⟨(World.size_setHandle w h _).ge,le_rfl⟩

theorem keepsControl_withControl (w : World) (h : WorkerId) :
    w.KeepsControl h (Strand.withControl w h (w.handle h).control) :=
  World.keepsControl_setHandle w h _ (fun _ => rfl) fun _ _ hc => hc

theorem control_withControl (hh : h < w.handles.size) (control : Control) :
    ((Strand.withControl w h control).handle h).control = control :=
  congrArg WorkerHandle.control (handle_withControl hh control)

section Running

variable {c : ContextId} {s s' : Strand (Frame U N)} {at_ next : Check} {control : Control}
    {stopped : Bool}

/-- A check that goes on writes only to acknowledge a pause, and then the status is open again. -/
theorem sound_goto (hx : Sound (⟨w,{ handle := h, stage := .running c s }⟩ : WorkerState U N))
    (hstep : s.step lib c w = .ran s' w') (hat : s.checkOf h = some at_)
    (hmove : at_.step (w.pool (w.handle h).pool).requested (w.handle h).control = .goto next control)
    (hnext : s'.checkOf h = some next) (hw : w' = Strand.withControl w h control) :
    Sound (⟨w',{ handle := h, stage := .running c s' }⟩ : WorkerState U N) := by
  obtain ⟨hc,hcalled,hterm⟩ := hx.fits
  have hh : h < w.handles.size := hx.range
  rcases Check.control_goto hmove with ⟨hne,rfl⟩ | ⟨rfl,rfl⟩
  · rw [hw] at hstep ⊢
    refine hx.same (keepsControl_withControl w h) hstep fun ht at' hat' => ?_
    obtain rfl : next = at' := Option.some.inj (hnext.symm.trans hat')
    obtain ⟨_,_,_,hprior⟩ := hterm ht
    rcases hprior at_ hat with hharmless | ⟨hack,_⟩
    · exact Check.harmless_goto hharmless hmove
    · exact absurd hack hne
  · rw [hw]
    have hcalled' := Strand.called_step hcalled hstep
    apply Sound.open (hh.trans_le (size_withControl w h _).1) hc hcalled'
    rw [control_withControl hh]
    by_cases hpause : (w.handle h).control.command = .pause
    · simp [Control.acknowledgePause, hpause, Status.isTerminal]
    · -- in a terminal status a check only gets here on a pending pause
      simp only [Control.acknowledgePause, if_neg hpause]
      intro ht
      obtain ⟨_,_,_,hprior⟩ := hterm ht
      rcases hprior _ hat with hharmless | ⟨_,hpause'⟩
      · exact hharmless
      · exact hpause hpause'

/-- A check that ends leaves the control alone, resumes, or stops in front of the context. -/
theorem sound_finish (hx : Sound (⟨w,{ handle := h, stage := .running c s }⟩ : WorkerState U N))
    (hstep : s.step lib c w = .ran s' w') (hat : s.checkOf h = some at_)
    (hmove : at_.step (w.pool (w.handle h).pool).requested (w.handle h).control =
      .finish stopped control)
    (hnext : s'.checkOf h = none)
    (hw : w' = Strand.observe (Strand.withControl w h control) c stopped) :
    Sound (⟨w',{ handle := h, stage := .running c s' }⟩ : WorkerState U N) := by
  obtain ⟨hc,hcalled,_⟩ := hx.fits
  have hcalled' := Strand.called_step hcalled hstep
  have hpast : ∀ at', s'.checkOf h = some at' → False := fun at' hat' => by
    rw [hnext] at hat'
    cases hat'
  have hkeeps : (Strand.withControl w h control).KeepsControl h w' := by
    rw [hw]
    exact Strand.keepsControl_observe _ c stopped
  have hself : (w'.handle h).control = control :=
    hkeeps.control.trans (control_withControl hx.range control)
  have hsize : h < w'.handles.size :=
    (hx.range.trans_le (size_withControl w h control).1).trans_le hkeeps.handles
  have hc' : c < w'.contexts.size := hc.trans_le ((size_withControl w h control).2.trans hkeeps.contexts)
  rcases Check.control_finish hmove with ⟨rfl,rfl⟩ | ⟨_,rfl⟩ | ⟨rfl,rfl⟩
  · exact hx.same ((keepsControl_withControl w h).trans hkeeps) hstep fun _ at' hat' =>
      (hpast at' hat').elim
  · apply Sound.open hsize hc' hcalled'
    rw [hself]
    intro ht
    cases ht
  · refine ⟨hsize,fun _ => ?_,hc',hcalled',fun _ => ⟨?_,?_,?_,fun at' hat' => (hpast at' hat').elim⟩⟩
    · simp only [WorkerState.control, hself]
      rfl
    · rw [hself]
      rfl
    · rw [hw]
      exact Strand.stopping_observe hc
    · exact Strand.not_endsWithValues_of_check hcalled hat hstep

/-- While code runs, only a stop makes the status terminal, and then the context knows. -/
theorem sound_running (hx : Sound (⟨w,{ handle := h, stage := .running c s }⟩ : WorkerState U N))
    (hstep : s.step lib c w = .ran s' w') :
    Sound (⟨w',{ handle := h, stage := .running c s' }⟩ : WorkerState U N) := by
  rcases Strand.step_control (h := h) hstep with hchecks | ⟨_,hpass⟩
  · cases hchecks with
    | goto at_ next control hat hmove hnext hw => exact sound_goto hx hstep hat hmove hnext hw
    | finish at_ stopped control hat hmove hnext hw => exact sound_finish hx hstep hat hmove hnext hw
  · refine hx.same hpass.1 hstep fun _ at_ hat => ?_
    obtain ⟨kind,rfl⟩ := hpass.2 at_ hat
    exact .inl (Check.harmless_start kind)

end Running

/-- A call that has ended with values has not been stopped. -/
theorem fits_afterExit {c : ContextId} {s : Strand (Frame U N)} {e : Exit (Frame U N)}
    (hf : Fits w h (.running c s)) (he : s.exit? = some e) : Fits w h (Worker.afterExit c e) := by
  obtain ⟨hc,hcalled,hterm⟩ := hf
  have hphase : s.phase = .exit e := by
    unfold Strand.exit? at he
    split at he
    · rename_i e' heq
      rw [heq, Option.some.inj he]
    · cases he
  cases e with
  | ended outcome left =>
    cases outcome with
    | ok values =>
      intro ht
      obtain ⟨_,_,hwins,_⟩ := hterm ht
      exact hwins (hphase ▸ .exit values left)
    | error unwind =>
      cases unwind with
      | stop => exact fun ht => ⟨(hterm ht).1,nofun⟩
      | fault fault => exact fun ht => ⟨(hterm ht).1,nofun⟩
  | stepped frame move => exact fun ht => ⟨(hterm ht).1,nofun⟩
  | received frame accepted => exact fun ht => ⟨(hterm ht).1,nofun⟩
  | panicked text => exact fun ht => ⟨(hterm ht).1,nofun⟩

def KeepsFit (w : World) (h : WorkerId) (stage : Stage (Frame U N)) (worker' : Worker (Frame U N))
    (w' : World) : Prop :=
  ∃ stage', worker' = { handle := h, stage := stage' } ∧ w.KeepsControl h w' ∧
  (Fits w h stage → Fits w' h stage')

variable {worker' : Worker (Frame U N)}

theorem KeepsFit.of_open {stage stage' : Stage (Frame U N)} (hkeeps : w.KeepsControl h w')
    (hopen : Fits w h stage → ¬ (w.handle h).control.status.isTerminal = true)
    (hfits : Fits w h stage → ¬ (w'.handle h).control.status.isTerminal = true → Fits w' h stage') :
    KeepsFit w h stage { handle := h, stage := stage' } w' :=
  ⟨_,rfl,hkeeps,fun hf => hfits hf (by rw [hkeeps.control]; exact hopen hf)⟩

/-- A step of the worker leaves its control alone, or is one of running code, or announces the end. -/
theorem worker_step {stage : Stage (Frame U N)}
    (hstep : ({ handle := h, stage } : Worker (Frame U N)).step lib w = .ran worker' w') :
    KeepsFit w h stage worker' w' ∨
      (∃ c s s', stage = .running c s ∧ worker' = { handle := h, stage := .running c s' } ∧
        s.step lib c w = .ran s' w') ∨
      ∃ status, stage = .announcing status ∧ worker' = { handle := h, stage := .leaving } ∧
        w' = w.changeStatus h status := by
  obtain ⟨stage',rfl,ht⟩ := Worker.transition_of_step hstep
  cases ht with
  | @runs c s s' _ hs => exact .inr (.inl ⟨c,s,s',rfl,rfl,hs⟩)
  | announces status => exact .inr (.inr ⟨status,rfl,rfl,rfl⟩)
  | deserted => exact .inl ⟨_,rfl,.refl h w,fun _ => trivial⟩
  | @begins c values routine arguments hcontext =>
    have hbegin := World.keepsControl_begin (h := h) w h c arguments
    exact .inl (.of_open hbegin (fun hf => hf.1) fun hf hopen =>
      ⟨(hf.2 c hcontext).trans_le hbegin.contexts,.start _ _,fun ht => absurd ht hopen⟩)
  | @unloaded c fault routine arguments hcontext =>
    exact .inl (.of_open (World.keepsControl_begin w h c arguments)
      (fun hf => hf.1) fun _ hopen ht => absurd ht hopen)
  | exits hexit => exact .inl ⟨_,rfl,.refl h w,fun hf => fits_afterExit hf hexit⟩
  | @collects c values results _ hcollect | @uncollected c values fault _ hcollect =>
    have hkeeps := World.keepsControl_collect (h := h) w h
      { registry := (w.context c).registry } [] values
    rw [hcollect] at hkeeps
    exact .inl (.of_open hkeeps id fun _ hopen ht => absurd ht hopen)
  | destroys c e =>
    have hdrop := World.keepsControl_dropContext (h := h) w c
    refine .inl ⟨_,rfl,hdrop,fun hf ht => ?_⟩
    rw [hdrop.control] at ht ⊢
    exact hf ht
  | completes results => exact .inl ⟨_,rfl,.refl h w,fun hf => ⟨fun ht => (hf ht).2 results rfl,rfl⟩⟩
  | canceled => exact .inl ⟨_,rfl,.refl h w,fun _ => trivial⟩
  | stops hstatus | fails description hstatus =>
    -- a status that is terminal already is that of a stop, so it is not announced again
    exact .inl ⟨_,rfl,.refl h w,fun hf => ⟨fun ht => hstatus (hf ht).1,rfl⟩⟩
  | publishes results status =>
    have hset := World.keepsControl_setResult (h := h) w h results
    refine .inl ⟨_,rfl,hset,fun hf => ⟨?_,hf.2⟩⟩
    rw [hset.control]
    exact hf.1
  | leaves => exact .inl ⟨_,rfl,World.keepsControl_leave w h _,fun _ => trivial⟩

theorem sound_worker {worker : Worker (Frame U N)} (hx : Sound (⟨w,worker⟩ : WorkerState U N))
    (hstep : worker.step lib w = .ran worker' w') : Sound (⟨w',worker'⟩ : WorkerState U N) := by
  obtain ⟨h,stage⟩ := worker
  have hh : h < w.handles.size := hx.range
  rcases worker_step hstep with ⟨stage',rfl,hkeeps,hfits⟩ | ⟨c,s,s',rfl,rfl,hs⟩ | ⟨status,rfl,rfl,rfl⟩
  · exact ⟨(hx.keepsControl hkeeps).range,(hx.keepsControl hkeeps).latched,hfits hx.fits⟩
  · exact sound_running hx hs
  · have hself : (w.changeStatus h status).handle h = _ := World.handle_setHandle_self hh _
    refine ⟨by simpa [World.changeStatus] using hh,fun _ => ?_,trivial⟩
    simp only [WorkerState.control, hself, Control.changeStatus, hx.fits.2, if_true]
    rfl

theorem Step.sound (hstep : Step lib x y) (hx : Sound x) : Sound y := by
  cases hstep with
  | worker hstep => exact sound_worker hx hstep
  | errand hstep =>
    rcases errand_control x.worker.handle hstep with hkeeps | ⟨command,rfl⟩
    · exact hx.keepsControl hkeeps
    · exact hx.put command
  | other hkeeps => exact hx.keepsControl hkeeps

theorem Steps.sound (hsteps : Steps lib x y) (hx : Sound x) : Sound y := by
  induction hsteps with
  | refl => exact hx
  | tail _ hstep ih => exact hstep.sound ih

theorem sound_addHandle (w : World) (p : PoolId) (routine : Routine) (arguments : List Stored) :
    Sound (⟨(w.addHandle p).2,{ handle := (w.addHandle p).1, stage := .starting routine arguments }⟩ :
      WorkerState U N) := by
  have hself := World.handle_addHandle_self w p
  have ⟨_,hsize,hcontexts⟩ := World.size_addHandle w p
  refine ⟨?_,fun ht => ?_,?_,fun c hc => ?_⟩
  · rw [hsize]
    exact Nat.lt_succ_self _
  · simp only [status, control, hself] at ht
    cases ht
  · rw [hself]
    intro hnone
    cases hnone
  · rw [hself] at hc
    rw [hcontexts, ← Option.some.inj hc]
    exact Nat.lt_succ_self _

/-- A worker starts with a status that is not terminal and a context of its own. -/
theorem Launched.sound (hx : Launched x) : Sound x := by
  obtain ⟨w,w',p,config,routine,arguments,adopted,h,hprepare,rfl⟩ := hx
  unfold World.prepare at hprepare
  simp only at hprepare
  split at hprepare
  · cases hprepare
  · have hfresh : Sound (⟨_,{ handle := _, stage := .starting routine adopted }⟩ : WorkerState U N) :=
      sound_addHandle (w.enter p) p routine adopted
    generalize (w.enter p).addHandle p = started at hfresh hprepare
    obtain ⟨i,u⟩ := started
    have hadopt := World.keepsControl_adoptAll (h := i) u i 1 arguments
    split at hprepare
    · cases hprepare
    · rename_i adopted' v heq
      rw [heq] at hadopt
      cases hprepare
      exact hfresh.keepsControl (hadopt.trans (World.keepsControl_register v _ config p))

theorem Reachable.sound (hx : Reachable lib x) : Sound x := by
  obtain ⟨y,hy,hsteps⟩ := hx
  exact hsteps.sound hy.sound

def Acknowledges (x : WorkerState U N) : Prop :=
  ∃ c s, x.worker.stage = .running c s ∧ s.checkOf x.worker.handle = some .acknowledge

def Same (x y : WorkerState U N) : Prop := y.status = x.status ∧ y.control.command = x.control.command

/-- A step from a terminal status keeps the status and the command, unless it is the
acknowledgement of a pause. -/
theorem Step.same_or_acknowledges (hstep : Step lib x y) (hx : Sound x)
    (hterm : x.status.isTerminal = true) :
    Same x y ∨ x.Acknowledges ∧ x.control.command = .pause := by
  obtain ⟨w,⟨h,stage⟩⟩ := x
  have hsame : ∀ (u : World) (stage' : Stage (Frame U N)) (control : Control),
    (u.handle h).control = control →
      control.status = (w.handle h).control.status → control.command = (w.handle h).control.command →
      Same ⟨w,{ handle := h, stage }⟩ ⟨u,{ handle := h, stage := stage' }⟩ := by
    intro u stage' control hu hstatus hcommand
    subst hu
    exact ⟨hstatus,hcommand⟩
  have hstarts : ∀ (u : World) (stage' : Stage (Frame U N)), w.KeepsControl h u →
      Same ⟨w,{ handle := h, stage }⟩ ⟨u,{ handle := h, stage := stage' }⟩ :=
    fun u stage' hu => hsame u stage' _ hu.control rfl rfl
  cases hstep with
  | errand hstep =>
    rcases errand_control h hstep with hkeeps | ⟨command,rfl⟩
    · exact .inl (hstarts _ _ hkeeps)
    · exact .inl (hstarts _ _ (putCommand_of_terminal hterm command))
  | other hkeeps => exact .inl (hstarts _ _ hkeeps)
  | worker hstep =>
    rename_i w'
    rcases worker_step hstep with ⟨stage',rfl,hkeeps,_⟩ | ⟨c,s,s',rfl,rfl,hs⟩ | ⟨status,rfl,rfl,rfl⟩
    · exact .inl (hstarts _ _ hkeeps)
    · obtain ⟨_,_,hprior⟩ := hx.fits
      obtain ⟨hcanceled,_,_,hpoint⟩ := hprior hterm
      rcases Strand.step_control (h := h) hs with hchecks | ⟨_,hpass⟩
      · cases hchecks with
        | goto at_ next control hat hmove hnext hw =>
          have hself : (w'.handle h).control = control := by
            rw [hw]
            exact control_withControl hx.range control
          rcases hpoint at_ hat with hharmless | ⟨rfl,hpause⟩
          · rcases Check.control_goto hmove with ⟨_,rfl⟩ | ⟨rfl,_⟩
            · exact .inl (hsame _ _ _ hself rfl rfl)
            · exact hharmless.elim
          · exact .inr ⟨⟨c,s,rfl,hat⟩,hpause⟩
        | finish at_ stopped control hat hmove hnext hw =>
          have hself : (w'.handle h).control = control := by
            rw [hw]
            exact control_withControl hx.range control
          rcases Check.control_finish hmove with ⟨_,rfl⟩ | ⟨rfl,_⟩ | ⟨_,rfl⟩
          · exact .inl (hsame _ _ _ hself rfl rfl)
          · rcases hpoint _ hat with hharmless | ⟨hack,_⟩
            · exact hharmless.elim
            · cases hack
          · exact .inl (hsame _ _ _ hself hcanceled.symm rfl)
      · exact .inl (hstarts _ _ hpass.1)
    · exact absurd hterm hx.fits.1

/-- A pending pause that is acknowledged replaces whatever the status is. -/
theorem Acknowledges.lapse (lib : Library U N) (hack : x.Acknowledges) (hx : Sound x)
    (hpause : x.control.command = .pause) : ∃ y, Step lib x y ∧ y.status = .paused := by
  obtain ⟨w,⟨h,stage⟩⟩ := x
  obtain ⟨c,s,rfl,hat⟩ := hack
  have hexit := Strand.exit_of_checkOf hat
  obtain ⟨s',hstep,_⟩ := Strand.step_of_goto lib c w hat rfl
  have hworker : ({ handle := h, stage := .running c s } : Worker (Frame U N)).step lib w =
      .ran { handle := h, stage := .running c s' }
        (Strand.withControl w h (w.handle h).control.acknowledgePause) := by
    simp only [Worker.step, hexit, hstep]
    rfl
  refine ⟨_,.worker hworker,?_⟩
  have hcommand : (w.handle h).control.command = .pause := hpause
  simp only [status, control, handle_withControl hx.range, Control.acknowledgePause, hcommand, if_true]

theorem Same.trans {z : WorkerState U N} (h : Same x y) (h' : Same y z) : Same x z :=
  ⟨h'.1.trans h.1,h'.2.trans h.2⟩

/-- Exactly when a terminal status is final: unless a pause was still pending when it was written, and
the code goes on to a tick and comes to the acknowledgement of it. -/
theorem terminal_final_iff (hx : Reachable lib x) (hterm : x.status.isTerminal = true) :
    (∀ y, Steps lib x y → y.status = x.status ∧ y.control.completed.latched = true) ↔
      ¬ (x.control.command = .pause ∧ ∃ y, Steps lib x y ∧ y.Acknowledges) := by
  have hsound := hx.sound
  constructor
  · rintro hfinal ⟨_,y,hsteps,hack⟩
    have hy : Sound y := hsteps.sound hsound
    have hytterm : y.status.isTerminal = true := by rwa [(hfinal y hsteps).1]
    obtain ⟨c,s,hstage,hat⟩ := hack
    have hfits := hy.fits
    rw [hstage] at hfits
    obtain ⟨_,_,hprior⟩ := hfits
    obtain ⟨_,_,_,hpoint⟩ := hprior hytterm
    have hpause : y.control.command = .pause := by
      rcases hpoint _ hat with hharmless | ⟨_,hpause⟩
      · exact hharmless.elim
      · exact hpause
    obtain ⟨z,hstep,hz⟩ := Acknowledges.lapse lib ⟨c,s,hstage,hat⟩ hy hpause
    have hlast := (hfinal z (hsteps.tail hstep)).1
    rw [hz] at hlast
    rw [← hlast] at hterm
    cases hterm
  · intro hnot y hsteps
    have hsame : Same x y := by
      induction hsteps with
      | refl => exact ⟨rfl,rfl⟩
      | @tail y z hsteps hstep ih =>
        have hyterm : y.status.isTerminal = true := by rwa [ih.1]
        rcases hstep.same_or_acknowledges (Steps.sound hsteps hsound) hyterm with hsame | ⟨hack,hpause⟩
        · exact ih.trans hsame
        · exact absurd ⟨ih.2 ▸ hpause,y,hsteps,hack⟩ hnot
    refine ⟨hsame.1,(hsteps.sound hsound).latched ?_⟩
    rwa [hsame.1]

def tickingTwice : Library Unit Unit where
  load _ _ := .ok (.own ())
  step _ := .check .tick fun _ => .check .tick fun _ => .done ((),.finish [])
  receive _ outcome := .done ((),refuse outcome)
  describe _ := ""
  body _ := .done ((),.finish [])

def fresh : WorkerState Unit Unit :=
  ⟨(World.prepare ({} : World).addPool.2 0 .standard []).2,{ handle := 0, stage := .starting ⟨"",0⟩ [] }⟩

theorem launched_fresh : Launched fresh :=
  ⟨({} : World).addPool.2,_,0,.standard,⟨"",0⟩,[],[],0,rfl,rfl⟩

def go : Nat → WorkerState Unit Unit → WorkerState Unit Unit
  | 0, x => x
  | n + 1, x =>
    match x.worker.step tickingTwice x.world with
    | .ran worker w => go n ⟨w,worker⟩
    | .blocked _ => x

def put (command : Command) (x : WorkerState Unit Unit) : WorkerState Unit Unit :=
  ⟨x.world.putCommand x.worker.handle command,x.worker⟩

theorem steps_go (n : Nat) (x : WorkerState Unit Unit) : Steps tickingTwice x (go n x) := by
  induction n generalizing x with
  | zero => exact .refl
  | succ n ih =>
    rw [go]
    split
    · rename_i hstep
      exact .head (.worker hstep) (ih _)
    · exact .refl

theorem steps_put (command : Command) (x : WorkerState Unit Unit) :
    Steps tickingTwice x (put command x) := by
  have hstep : Errand.step x.world { orders := [.put x.worker.handle command] } =
      .ran { orders := [] } (x.world.putCommand x.worker.handle command) := rfl
  exact .single (.errand hstep)

/-- The pause comes after the worker has read the cancellation and before it stops. -/
def stopped : WorkerState Unit Unit := go 1 (put .pause (go 2 (put .cancel (go 5 fresh))))

theorem stopped_reachable : Reachable tickingTwice stopped := by
  refine ⟨fresh,launched_fresh,?_⟩
  have hcancel := (steps_go 5 fresh).trans (steps_put .cancel _)
  have hpause := (hcancel.trans (steps_go 2 _)).trans (steps_put .pause _)
  exact hpause.trans (steps_go 1 _)

theorem terminal_final_iff_stopped :
    (Reachable tickingTwice stopped ∧ stopped.status.isTerminal = true) ∧
    ((∀ y, Steps tickingTwice stopped y → y.status = stopped.status ∧
      y.control.completed.latched = true) ↔
      ¬ (stopped.control.command = .pause ∧ ∃ y, Steps tickingTwice stopped y ∧
        y.Acknowledges)) := by
  have hterm : stopped.status.isTerminal = true := by decide
  exact ⟨⟨stopped_reachable,hterm⟩,terminal_final_iff stopped_reachable hterm⟩

/-- A canceled worker turns paused. -/
theorem terminal_not_final :
    ¬ ∀ x y : WorkerState Unit Unit, Reachable tickingTwice x → x.status.isTerminal = true →
    Steps tickingTwice x y → y.status = x.status := by
  intro hfinal
  have hterm : stopped.status.isTerminal = true := by decide
  have hlast : (go 4 stopped).status = .paused := by decide
  have hcanceled : stopped.status = .canceled := by decide
  have hsame := hfinal stopped _ stopped_reachable hterm (steps_go 4 stopped)
  rw [hlast, hcanceled] at hsame
  cases hsame

end WorkerState

end Workers
