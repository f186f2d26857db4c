import Workers.Worker.Life
/-! # What a step in the life of a worker can be

The steps of a worker from one stage to the next, each with what holds where it is taken and the world
that it leaves.  What the worker keeps, and what it leaves to others, is told transition by transition.
-/
namespace Workers

variable {U N : Type}

def World.begun (w : World) (h : WorkerId) (c : ContextId) (arguments : List Stored) : World :=
  ((w.setHandle h { w.handle h with context := none }).loadAll c arguments).2.setStore
    (((w.setHandle h { w.handle h with context := none }).loadAll c arguments).2.store.drop arguments)

def World.loaded (w : World) (h : WorkerId) (c : ContextId) (arguments : List Stored) :
    Except Fault (List Value) :=
  ((w.setHandle h { w.handle h with context := none }).loadAll c arguments).1

namespace Worker

theorem afterExit_cases (c : ContextId) (e : Exit (Frame U N)) :
    (∃ values, afterExit c e = .collecting c values) ∨ ∃ ending, afterExit c e =
    .destroying c ending := by
  cases e with
  | ended outcome left =>
    cases outcome with
    | ok values => exact .inl ⟨values,rfl⟩
    | error unwind => cases unwind <;> exact .inr ⟨_,rfl⟩
  | stepped | received | panicked => exact .inr ⟨_,rfl⟩

/-- A step in the given world, from one stage to the next and the world that it leaves. -/
inductive Transition (lib : Library U N) (h : WorkerId) (w : World) :
    Stage (Frame U N) → Stage (Frame U N) → World → Prop
  | deserted (routine : Routine) (arguments : List Stored) (hnone : (w.handle h).context = none) :
      Transition lib h w (.starting routine arguments) .leaving w
  | begins {c : ContextId} {values : List Value} (routine : Routine) (arguments : List Stored)
      (hcontext : (w.handle h).context = some c) (hload : w.loaded h c arguments = .ok values) :
      Transition lib h w (.starting routine arguments) (.running c (.ofCall routine values))
        (w.begun h c arguments)
  | unloaded {c : ContextId} {fault : Fault} (routine : Routine) (arguments : List Stored)
      (hcontext : (w.handle h).context = some c) (hload : w.loaded h c arguments = .error fault) :
      Transition lib h w (.starting routine arguments) (.destroying c (.failed fault.message))
        (w.begun h c arguments)
  | runs {c : ContextId} {s s' : Strand (Frame U N)} {w' : World} (hs : s.step lib c w = .ran s' w') :
      Transition lib h w (.running c s) (.running c s') w'
  | exits {c : ContextId} {s : Strand (Frame U N)} {e : Exit (Frame U N)} (hexit : s.exit? = some e) :
      Transition lib h w (.running c s) (afterExit c e) w
  | collects {c : ContextId} {values : List Value} {results : List Stored} {w' : World}
      (hcollect : w.collect h { registry := (w.context c).registry } [] values = (.ok results,w')) :
      Transition lib h w (.collecting c values) (.destroying c (.completed results)) w'
  | uncollected {c : ContextId} {values : List Value} {fault : Fault} {w' : World}
      (hcollect : w.collect h { registry := (w.context c).registry } [] values = (.error fault,w')) :
      Transition lib h w (.collecting c values) (.destroying c (.failed fault.message)) w'
  | destroys (c : ContextId) (e : Ending) :
      Transition lib h w (.destroying c e) (.judging e) (w.dropContext c)
  | completes (results : List Stored) :
      Transition lib h w (.judging (.completed results)) (.publishing results .completed) w
  | canceled {e : Ending} (hended : ∀ results, e ≠ .completed results)
      (hstatus : w.status h = .canceled) :
      Transition lib h w (.judging e) .leaving w
  | stops (hstatus : w.status h ≠ .canceled) :
      Transition lib h w (.judging .stopped) (.announcing .canceled) w
  | fails (description : String) (hstatus : w.status h ≠ .canceled) :
      Transition lib h w (.judging (.failed description))
        (.publishing (failureResult description) .failed) w
  | publishes (results : List Stored) (status : Status) :
      Transition lib h w (.publishing results status) (.announcing status) (w.setResult h results)
  | announces (status : Status) :
      Transition lib h w (.announcing status) .leaving (w.changeStatus h status)
  | leaves : Transition lib h w .leaving .gone ((w.leave (w.handle h).pool).disown h)

variable {lib : Library U N} {h : WorkerId} {w w' : World} {stage : Stage (Frame U N)}
    {worker' : Worker (Frame U N)}

/-- There are no other steps. -/
theorem transition_of_step (hstep : step lib w ⟨h,stage⟩ = .ran worker' w') :
    ∃ stage', worker' = ⟨h,stage'⟩ ∧ Transition lib h w stage stage' w' := by
  cases stage with
  | starting routine arguments =>
    simp only [step] at hstep
    split at hstep
    · cases hstep
      exact ⟨_,rfl,.deserted routine arguments ‹_›⟩
    · split at hstep <;> cases hstep
      · exact ⟨_,rfl,.begins routine arguments ‹_› ‹_›⟩
      · exact ⟨_,rfl,.unloaded routine arguments ‹_› ‹_›⟩
  | running c s =>
    simp only [step] at hstep
    split at hstep
    · cases hstep
      exact ⟨_,rfl,.exits ‹_›⟩
    · cases hs : s.step lib c w with
      | ran s' u =>
        rw [hs] at hstep
        cases hstep
        exact ⟨_,rfl,.runs hs⟩
      | blocked deadline =>
        rw [hs] at hstep
        cases hstep
  | collecting c values =>
    simp only [step] at hstep
    split at hstep <;> cases hstep
    · exact ⟨_,rfl,.collects ‹_›⟩
    · exact ⟨_,rfl,.uncollected ‹_›⟩
  | destroying c e =>
    cases hstep
    exact ⟨_,rfl,.destroys c e⟩
  | judging e =>
    cases e with
    | completed results =>
      cases hstep
      exact ⟨_,rfl,.completes results⟩
    | stopped =>
      cases hstep
      split
      · exact ⟨_,rfl,.canceled nofun ‹_›⟩
      · exact ⟨_,rfl,.stops ‹_›⟩
    | failed description =>
      cases hstep
      split
      · exact ⟨_,rfl,.canceled nofun ‹_›⟩
      · exact ⟨_,rfl,.fails description ‹_›⟩
  | publishing results status =>
    cases hstep
    exact ⟨_,rfl,.publishes results status⟩
  | announcing status =>
    cases hstep
    exact ⟨_,rfl,.announces status⟩
  | leaving =>
    cases hstep
    exact ⟨_,rfl,.leaves⟩
  | gone => cases hstep

end Worker

end Workers
