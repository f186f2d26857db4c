import Workers.Proofs.Call.Handling
import Workers.Proofs.Control.Cancel
/-! # How a failure is described

What goes wrong in the body of a worker is that its code panics, or that there is a runtime error:
an argument cannot be loaded, the routine cannot be called or its call fails, or a result cannot be
stored.  The body of a worker fails once at most, and a worker that fails describes how its body
did.  If it has been asked for tracebacks, it has one for the error of the call; the errors before
the call and after it are described by their messages alone.
-/
namespace Workers

variable {U N : Type}

/-- What goes wrong in the body of a worker: a panic, or a runtime error. -/
inductive BodyFailure where
  | panic (text : String)
  | loading (fault : Fault)
  | calling (fault : Fault) (frames : List String)
  | storing (fault : Fault)

namespace BodyFailure

def description : BodyFailure → String
  | panic text => panicDescription text
  | loading fault | storing fault => fault.message
  | calling fault frames => traceback fault frames

def fault? : BodyFailure → Option Fault
  | panic _ => none
  | loading fault | calling fault _ | storing fault => some fault

end BodyFailure

def Fault.Traced (fault : Fault) (description : String) : Prop :=
  ∃ rest, description = fault.message ++ "\nstack traceback:" ++ rest

theorem traced_traceback (fault : Fault) (frames : List String) :
    fault.Traced (traceback fault frames) := by
  refine ⟨String.join (frames.map ("\n\t" ++ ·)),?_⟩
  simp [traceback, String.join_cons, String.append_assoc]

theorem not_traced_message (fault : Fault) : ¬ fault.Traced fault.message := by
  rintro ⟨rest,hrest⟩
  have hlength := congrArg String.length hrest
  simp only [String.length_append] at hlength
  have htitle : "\nstack traceback:".length = 17 := rfl
  omega

/-- Of the runtime errors those of the call have a traceback. -/
theorem BodyFailure.traced_iff {cause : BodyFailure} {fault : Fault}
    (hfault : cause.fault? = some fault) :
    fault.Traced cause.description ↔ ∃ frames, cause = .calling fault frames := by
  cases cause with
  | panic => cases hfault
  | calling fault' frames =>
    cases hfault
    exact ⟨fun _ => ⟨frames,rfl⟩,fun _ => traced_traceback fault frames⟩
  | loading | storing =>
    cases hfault
    exact ⟨fun htraced => absurd htraced (not_traced_message fault),fun ⟨_,h⟩ => by cases h⟩

theorem Context.handler_countInstruction (c : Context) : c.countInstruction.2.handler = c.handler := by
  unfold countInstruction
  split
  · rfl
  · split
    · rfl
    · dsimp only
      split <;> rfl

namespace World

variable {c : ContextId} {h : WorkerId} {w : World}

theorem handler_setContext (w : World) (i : ContextId) {context : Context}
    (hsame : context.handler = (w.context i).handler) :
    ((w.setContext i context).context c).handler = (w.context c).handler := by
  rw [context_setContext]
  split
  · rename_i hi
    rw [hsame, hi.1]
  · rfl

theorem handler_of_record {a b : Context} (h : b = { a with references := b.references }) :
    b.handler = a.handler := by
  rw [h]

theorem handler_share (w : World) (i : ContextId) (v : Value) :
    ((w.share i v).2.context c).handler = (w.context c).handler := by
  unfold share
  dsimp only
  split
  · rfl
  · split
    · rename_i hload
      exact handler_setContext (w.setStore _) i (handler_of_record (load_record hload))
    · rfl

/-- Only the destruction of a context takes its error handler away. -/
theorem handler_answer (w : World) (i : ContextId) {q : Query} (hq : q ≠ .destroy) :
    ((w.answer i q).2.context c).handler = (w.context c).handler := by
  cases q with
  | newTable | set | length | paths | hookStep | isNotified | notify | newNotifier => rfl
  | newShared => exact handler_setContext (w.setStore _) i rfl
  | get table key =>
    exact handler_setContext (w.setStore _) i (handler_of_record (get_record _ w.memory table key))
  | share value => exact handler_share w i value
  | count => exact handler_setContext w i (Context.handler_countInstruction (w.context i))
  | destroy => exact absurd rfl hq
  | retarget target =>
    have hcontexts : ∀ hook, (w.retarget hook target).2.contexts = w.contexts := by
      rintro (_ | ⟨h⟩ | ⟨g⟩) <;> rfl
    exact congrArg Context.handler (congrArg (fun contexts => contexts[c]?.getD default) (hcontexts _))

theorem handler_loadAll (w : World) (i : ContextId) (objects : List Stored) :
    ((w.loadAll i objects).2.context c).handler = (w.context c).handler := by
  induction objects generalizing w with
  | nil => rfl
  | cons object rest ih =>
    unfold loadAll
    split
    · rfl
    · rename_i hload
      exact (ih _).trans (handler_setContext (w.setStore _) i (handler_of_record (load_record hload)))

/-- A worker handle that is given up keeps its results, or loses them with everything else. -/
theorem result_disown (hh : h < w.handles.size) :
    ((w.disown h).handle h).result = (w.handle h).result ∨ ((w.disown h).handle h).result = [] := by
  unfold disown
  dsimp only
  split
  · have hlast : ∀ u : World, u.handles.size = w.handles.size → ((u.setHandle h
        { w.handle h with owners := 0, references := [], context := none, result := [] }).handle
          h).result = [] :=
      fun u hu => by rw [handle_setHandle_self (hu.symm ▸ hh)]
    cases (w.handle h).context <;> exact .inr (hlast _ rfl)
  · rw [handle_setHandle_self hh]
    exact .inl rfl

theorem handler_writes {w' : World} (hwrites : Probe.Writes w w') :
    (w'.context c).handler = (w.context c).handler := by
  cases hwrites <;> rfl

end World

namespace Strand

variable {lib : Library U N} {c d : ContextId} {w w' : World} {s s' : Strand (Frame U N)}

theorem handler_step (hkeeps : s.phase.destroys = false) (hstep : s.step lib d w = .ran s' w') :
    (w'.context c).handler = (w.context c).handler := by
  cases effect_step hstep with
  | none => rfl
  | query q hq => exact World.handler_answer w d fun hdestroy => by simp [hq hdestroy] at hkeeps
  | check hwrites => exact World.handler_writes hwrites
  | outcome stopped hwrites =>
    refine (World.handler_setContext _ d ?_).trans (World.handler_writes hwrites)
    unfold Context.observe
    split <;> rfl

end Strand

namespace WorkerState

variable {lib : Library U N} {x y : WorkerState U N}

inductive FailsNext (lib : Library U N) (x : WorkerState U N) : BodyFailure → Prop
  | panic {c : ContextId} {role : Role (Frame U N)} {text : String}
      {callers : List (Caller (Frame U N))}
      (hstage : x.worker.stage = .running c ⟨.acting role (.panic text),callers⟩) :
      FailsNext lib x (.panic text)
  | loading {routine : Routine} {arguments : List Stored} {c : ContextId} {fault : Fault}
      (hstage : x.worker.stage = .starting routine arguments)
      (hcontext : (x.world.handle x.worker.handle).context = some c)
      (hload : ((x.world.setHandle x.worker.handle
        { x.world.handle x.worker.handle with context := none }).loadAll c arguments).1 =
        .error fault) :
      FailsNext lib x (.loading fault)
  | calling {c : ContextId} {s : Strand (Frame U N)} {fault : Fault} {frames : List String}
      (hstage : x.worker.stage = .running c s) (hraises : s.Raises lib c x.world fault frames) :
      FailsNext lib x (.calling fault frames)
  | storing {c : ContextId} {values : List Value} {fault : Fault}
      (hstage : x.worker.stage = .collecting c values)
      (hstore : (x.world.collect x.worker.handle { registry := (x.world.context c).registry } []
        values).1 = .error fault) :
      FailsNext lib x (.storing fault)

theorem FailsNext.unique {first second : BodyFailure} (h : x.FailsNext lib first)
    (h' : x.FailsNext lib second) : first = second := by
  cases h with
  | panic hstage =>
    cases h' with
    | panic hstage' => cases hstage.symm.trans hstage'; rfl
    | calling hstage' hraises =>
      cases hstage.symm.trans hstage'
      cases hraises
    | loading hstage' | storing hstage' => cases hstage.symm.trans hstage'
  | loading hstage hcontext hload =>
    cases h' with
    | loading hstage' hcontext' hload' =>
      cases hstage.symm.trans hstage'
      cases hcontext.symm.trans hcontext'
      cases hload.symm.trans hload'
      rfl
    | panic hstage' | calling hstage' | storing hstage' => cases hstage.symm.trans hstage'
  | calling hstage hraises =>
    cases h' with
    | calling hstage' hraises' =>
      cases hstage.symm.trans hstage'
      cases hraises with
      | escape => cases hraises'; rfl
      | unloaded hgo hload =>
        cases hraises' with
        | unloaded hgo' hload' =>
          cases hload.symm.trans hload'
          rfl
    | panic hstage' =>
      cases hstage.symm.trans hstage'
      cases hraises
    | loading hstage' | storing hstage' => cases hstage.symm.trans hstage'
  | storing hstage hstore =>
    cases h' with
    | storing hstage' hstore' =>
      cases hstage.symm.trans hstage'
      cases hstore.symm.trans hstore'
      rfl
    | panic hstage' | loading hstage' | calling hstage' => cases hstage.symm.trans hstage'

def Failed (x : WorkerState U N) (description : String) : Prop :=
  x.status = .failed ∧ (x.world.handle x.worker.handle).result = failureResult description

end WorkerState

inductive Strand.Describes : Strand (Frame U N) → Option String → Prop
  | unsettled {s : Strand (Frame U N)} (hopen : ∀ described, ¬ s.HasOutcome (.error (.fault described)))
      (hcalm : ∀ text, s.exit? ≠ some (.panicked text)) : Describes s none
  | settled {s : Strand (Frame U N)} {described : Fault} (h : s.HasOutcome (.error (.fault described))) :
      Describes s (some described.message)
  | panicked (text : String) (callers : List (Caller (Frame U N))) :
      Describes ⟨.exit (.panicked text),callers⟩ (some (panicDescription text))

def Ending.description? : Ending → Option String
  | .failed description => some description
  | .completed _ | .stopped => none

def Stage.Describes (reached : Option String) (handle : WorkerHandle) : Stage (Frame U N) → Prop
  | .starting .. | .collecting .. => reached = none
  | .running _ s => s.Describes reached
  | .destroying _ e | .judging e => reached = e.description?
  | .publishing results status => status = .failed → ∃ d, reached = some d ∧ results = failureResult d
  | .announcing status => status = .failed → ∃ d, reached = some d ∧ handle.result = failureResult d
  | .leaving | .gone => handle.control.status = .failed →
      ∃ d, reached = some d ∧ (handle.result = failureResult d ∨ handle.result = [])

namespace Strand

variable {lib : Library U N} {c : ContextId} {w w' : World} {s s' : Strand (Frame U N)}
    {reached : Option String}
  {fault : Fault} {frames : List String}

theorem Raises.unsettled (h : s.Raises lib c w fault frames) (hdescribes : s.Describes reached) :
    reached = none := by
  cases h with
  | escape | unloaded =>
    cases hdescribes with
    | unsettled => rfl
    | settled h => cases h

/-- Code that is about to panic, and not in the middle of anything else. -/
theorem panicked_of_step {text : String} (hstep : s.step lib c w = .ran s' w')
    (hexit : s'.exit? = some (.panicked text)) :
    ∃ role callers, s = ⟨.acting role (.panic text),callers⟩ ∧ s' = ⟨.exit (.panicked text),[]⟩ := by
  cases transition_of_step hstep with
  | panics role text' callers =>
    cases hexit
    exact ⟨role,callers,rfl,rfl⟩
  | reports role report callers =>
    cases role with
    | loneStep =>
      obtain ⟨frame,move⟩ := report
      cases move <;> cases hexit
    | step | receive | loneReceive | outside => cases hexit
  | countedOut | due | counted | plainStep | offers | escapes | returns | ends | asks => cases hexit
  | unhooked | checks | waits | uncalled | unloaded | calls => cases hexit
  | ticking | ticked | checking | checked | notified | expired => cases hexit

end Strand

namespace WorkerState

variable {lib : Library U N} {x y : WorkerState U N} {reached : Option String}

def Describes (x : WorkerState U N) (reached : Option String) : Prop :=
  x.worker.stage.Describes reached (x.world.handle x.worker.handle)

/-- Code that may be described: the context of the worker has tracebacks, and its schedulers have
something to run. -/
structure Traced (x : WorkerState U N) : Prop where
  handler : ∀ c, x.RunsIn c → (x.world.context c).handler = some traceback
  hasRunnable : ∀ c s, x.worker.stage = .running c s → s.phase.HasRunnable

variable {c : ContextId} {s s' : Strand (Frame U N)} {h : WorkerId} {w w' : World}

theorem Traced.outerCall (hx : Traced x) (hsound : Sound x) (hstage : x.worker.stage = .running c s) :
    (x.world.context c).handler = some traceback ∧ s.OuterCall c traceback x.world := by
  have hhandler := hx.handler c (.inr ⟨s,hstage⟩)
  have hfits := hsound.fits
  rw [hstage] at hfits
  exact ⟨hhandler,hfits.2.1,hx.hasRunnable c s hstage,.inl hhandler⟩

/-- A failure of the body decides what will be said. -/
theorem FailsNext.describes {cause : BodyFailure} (hmeets : x.FailsNext lib cause) (hx : Traced x)
    (hsound : Sound x) (hdescribes : x.Describes reached) (hworks : Works lib x y) :
    reached = none ∧ y.Describes (some cause.description) := by
  obtain ⟨w,h,stage⟩ := x
  obtain ⟨w',h',stage'⟩ := y
  cases hmeets with
  | panic hstage =>
    cases hstage
    cases hworks
    refine ⟨?_,.panicked _ _⟩
    cases hdescribes with
    | unsettled => rfl
    | settled hsettles => cases hsettles
  | loading hstage hcontext hload =>
    cases hstage
    simp only [Works, Worker.step, hcontext, hload] at hworks
    cases hworks
    exact ⟨hdescribes,rfl⟩
  | @calling c s fault frames hstage hraises =>
    cases hstage
    have hhandler := (hx.outerCall hsound rfl).1
    cases hs : s.step lib c w with
    | blocked deadline => cases hraises <;> cases hs
    | ran s' u =>
      have hexit : s.exit? = none := by cases hraises <;> rfl
      simp only [Works, Worker.step, hexit, hs, Progress.map] at hworks
      cases hworks
      have hsettled := (hraises.step hs).1
      rw [Context.handleFault, hhandler] at hsettled
      exact ⟨hraises.unsettled hdescribes,.settled hsettled⟩
  | storing hstage hstore =>
    cases hstage
    simp only [Works, Worker.step] at hworks
    split at hworks
    · rename_i hresults
      rw [hresults] at hstore
      cases hstore
    · rename_i hfault
      rw [hfault] at hstore
      cases hstore
      cases hworks
      exact ⟨hdescribes,rfl⟩

/-- Code that does not fail leaves what will be said. -/
theorem describes_running (hs : s.OuterCall c traceback w) (hdescribes : s.Describes reached)
    (hstep : s.step lib c w = .ran s' w')
    (hpanic : ∀ role text callers, s ≠ ⟨.acting role (.panic text),callers⟩)
    (hraises : ∀ fault frames, ¬ s.Raises lib c w fault frames) : s'.Describes reached := by
  cases hdescribes with
  | settled hsettled => exact .settled (hsettled.step hs.called hstep).1
  | panicked => cases hstep
  | unsettled hopen =>
    refine .unsettled (fun described hsettled => ?_) fun text hexit => ?_
    · rcases Strand.raises_of_hasOutcome hs hstep hsettled with hbefore | ⟨fault,frames,hraised,_⟩
      · exact hopen described hbefore
      · exact hraises fault frames hraised
    · obtain ⟨role,callers,hs,_⟩ := Strand.panicked_of_step hstep hexit
      exact hpanic role text callers hs

/-- The worker that has come out of its code says what it had to say. -/
theorem describes_afterExit {e : Exit (Frame U N)} (hexit : s.exit? = some e)
    (hdescribes : s.Describes reached) (handle : WorkerHandle) :
    (Worker.afterExit c e).Describes reached handle := by
  obtain ⟨phase,callers⟩ := s
  cases phase with
  | exit e' =>
    cases hexit
    cases hdescribes with
    | panicked => rfl
    | settled hsettled =>
      cases hsettled
      rfl
    | unsettled hopen hcalm =>
      cases e with
      | panicked text => exact absurd rfl (hcalm text)
      | stepped | received => rfl
      | ended outcome left =>
        cases outcome with
        | ok values => rfl
        | error unwind =>
          cases unwind with
          | stop => rfl
          | fault fault => exact absurd (.exit left callers) (hopen fault)
  | turn | acting | counting | checking | waiting => cases hexit

theorem describes_publishing {results : List Stored} {status : Status} (hh : h < w.handles.size)
    (hdescribes : (Stage.publishing results status : Stage (Frame U N)).Describes reached (w.handle h)) :
    (Stage.announcing status : Stage (Frame U N)).Describes reached
      ((w.setResult h results).handle h) := by
  have hself : (w.setResult h results).handle h = { w.handle h with result := results } :=
    World.handle_setHandle_self hh _
  rw [hself]
  exact hdescribes

theorem describes_announcing {status : Status} (hh : h < w.handles.size)
    (hdescribes : (Stage.announcing status : Stage (Frame U N)).Describes reached (w.handle h)) :
    (Stage.leaving : Stage (Frame U N)).Describes reached ((w.changeStatus h status).handle h) := by
  have hself : (w.changeStatus h status).handle h =
      { w.handle h with control := (w.handle h).control.changeStatus status } :=
      World.handle_setHandle_self hh _
  rw [hself]
  intro hfailed
  obtain ⟨d,houtcome,hresult⟩ := hdescribes hfailed
  exact ⟨d,houtcome,.inl hresult⟩

theorem describes_leaving (hh : h < w.handles.size)
    (hdescribes : (Stage.leaving : Stage (Frame U N)).Describes reached (w.handle h)) :
    (Stage.gone : Stage (Frame U N)).Describes reached
      (((w.leave (w.handle h).pool).disown h).handle h) := by
  have hcontrol := (World.keepsControl_disown (h := h) (w.leave (w.handle h).pool) h).control
  intro hfailed
  rw [hcontrol] at hfailed
  obtain ⟨d,houtcome,hshown⟩ := hdescribes hfailed
  refine ⟨d,houtcome,?_⟩
  rcases World.result_disown (w := w.leave (w.handle h).pool) hh with hsame | hgone
  · rwa [hsame]
  · exact .inr hgone

/-- A worker whose body does not fail leaves what will be said. -/
theorem Describes.works (hdescribes : x.Describes reached) (hx : Traced x) (hsound : Sound x)
    (hworks : Works lib x y) (hnone : ∀ cause, ¬ x.FailsNext lib cause) : y.Describes reached := by
  obtain ⟨w,h,stage⟩ := x
  obtain ⟨w',worker'⟩ := y
  obtain ⟨stage',rfl,ht⟩ := hworks.transition
  cases ht with
  | deserted =>
    have hfits : ¬ (w.handle h).control.status.isTerminal = true := hsound.fits.1
    intro hfailed
    exact absurd (by rw [hfailed]; rfl) hfits
  | begins =>
    cases hdescribes
    exact .unsettled nofun nofun
  | unloaded routine arguments hcontext hload =>
    exact absurd (.loading rfl hcontext hload) (hnone (.loading _))
  | runs hs =>
    refine describes_running (hx.outerCall hsound rfl).2 hdescribes hs
      (fun role text callers heq => ?_) fun fault frames hr => ?_
    · cases heq
      exact hnone _ (.panic rfl)
    · exact hnone _ (.calling rfl hr)
  | exits hexit => exact describes_afterExit hexit hdescribes _
  | collects | destroys => exact hdescribes
  | uncollected hcollect => exact absurd (.storing rfl (by rw [hcollect])) (hnone (.storing _))
  | completes | stops => rintro ⟨⟩
  | canceled hended hcanceled =>
    intro hfailed
    cases hcanceled.symm.trans hfailed
  | fails description => exact fun _ => ⟨description,hdescribes,rfl⟩
  | publishes => exact describes_publishing hsound.range hdescribes
  | announces => exact describes_announcing hsound.range hdescribes
  | leaves => exact describes_leaving hsound.range hdescribes

end WorkerState

end Workers
