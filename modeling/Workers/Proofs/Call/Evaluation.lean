import Workers.Call.Strand
/-! # Evaluating a runnable

What a runnable amounts to, by recursion on the children it launches: no stack, no turns, no
unwinding.  Whatever takes the world as it finds it is a moment, with the world before and after;
nothing is assumed about what others do in between.  An evaluation may be cut off anywhere, so that
one without end is there too, in its beginnings.
-/
namespace Workers

inductive Event (U N : Type) where
  | moment (before after : World)
  | step (r : Frame U N)
  | receive (r : Frame U N) (outcome : Except Fault (List Value))
  | describe (r : Frame U N)
  | handle (fault : Fault) (frames : List String)

/-- How a runnable ends.  A failure lists the frames that it went through, the innermost first. -/
inductive RunnableOutcome where
  | ok (values : List Value)
  | failure (fault : Fault) (frames : List String)
  | stop
  | panic (text : String)

/-- Which part of a runnable is running: a step, or the reception of what became of a child that
failed through the given frames. -/
inductive Part where
  | step
  | receive (frames : List String)

abbrev Part.Report (F : Type) : Part → Type
  | step => F × Move F
  | receive _ => Reception F

inductive Job (U N : Type) where
  | run (r : Frame U N)
  | act (p : Part) (act : Act (p.Report (Frame U N)))

variable {U N : Type}

inductive Probes (U N : Type) (c : ContextId) : Probe → List (Event U N) → Option Bool → Prop
  | cut (probe : Probe) : Probes U N c probe [] none
  | goto {probe next : Probe} {w w' : World} {tr : List (Event U N)} {b : Option Bool}
      (h : probe.step w = .goto next w') (rest : Probes U N c next tr b) :
      Probes U N c probe (.moment w w' :: tr) b
  | finish {probe : Probe} {w w' : World} {stopped : Bool} (h : probe.step w = .finish stopped w') :
      Probes U N c probe [.moment w (Strand.observe w' c stopped)] (some stopped)

inductive Counts (U N : Type) (c : ContextId) : List (Event U N) → Option Bool → Prop
  | cut : Counts U N c [] none
  | stop {w : World} {context : Context} (h : (w.context c).countInstruction = (.stop,context)) :
      Counts U N c [.moment w (w.setContext c context)] (some true)
  | quiet {w : World} {count : Count} {context : Context}
      (h : (w.context c).countInstruction = (count,context)) (hgo : count ≠ .stop)
      (hquiet : count = .tick → context.hook = none) :
      Counts U N c [.moment w (w.setContext c context)] (some false)
  | tick {w : World} {context : Context} {hook : Hook} {tr : List (Event U N)} {b : Option Bool}
      (h : (w.context c).countInstruction = (.tick,context)) (hhook : context.hook = some hook)
      (rest : Probes U N c (Probe.start hook .tick) tr b) :
      Counts U N c (.moment w (w.setContext c context) :: tr) b

inductive Waits (U N : Type) (n : NotifierId) (deadline : Nat) : List (Event U N) → Option Bool → Prop
  | cut : Waits U N n deadline [] none
  | notified {w : World} (h : w.isNotified n = true) : Waits U N n deadline [.moment w w] (some true)
  | expired {w : World} (h : ¬ w.isNotified n = true) (hlate : deadline ≤ w.clock) :
      Waits U N n deadline [.moment w w] (some false)

/-- What the one who ran a runnable gets: a failure goes through the error handler, once. -/
inductive Concludes (c : ContextId) : RunnableOutcome → List (Event U N) → Outcome → Prop
  | ok (values : List Value) : Concludes c (.ok values) [] (.ok values)
  | stop : Concludes c .stop [] (.error .stop)
  | failure (w : World) (fault : Fault) (frames : List String) :
      Concludes c (.failure fault frames) [.moment w w,.handle fault frames]
        (.error (.fault ((w.context c).handleFault fault frames)))

/-- The recursive evaluator.  An evaluation gives its events and how it ends, if it was not cut off. -/
inductive Evaluates (lib : Library U N) (c : ContextId) :
    Job U N → List (Event U N) → Option RunnableOutcome → Prop
  | cut (j : Job U N) : Evaluates lib c j [] none
  -- before each step an instruction is counted
  | counting {r : Frame U N} {tr : List (Event U N)} (h : Counts U N c tr none) :
      Evaluates lib c (.run r) tr none
  | counted {r : Frame U N} {tr : List (Event U N)} (h : Counts U N c tr (some true)) :
      Evaluates lib c (.run r) tr (some .stop)
  | step {r : Frame U N} {tr tr' : List (Event U N)} {e : Option RunnableOutcome}
      (h : Counts U N c tr (some false))
      (rest : Evaluates lib c (.act .step (lib.advance r)) tr' e) :
      Evaluates lib c (.run r) (tr ++ .step r :: tr') e
  -- what the code of a part does
  | query {p : Part} {q : Query} {k : q.Answer → Act (p.Report (Frame U N))} {w : World}
      {tr : List (Event U N)} {e : Option RunnableOutcome}
      (rest : Evaluates lib c (.act p (k (w.answer c q).1)) tr e) :
      Evaluates lib c (.act p (.query q k)) (.moment w (w.answer c q).2 :: tr) e
  | unhooked {p : Part} {kind : CheckKind} {k : Bool → Act (p.Report (Frame U N))} {w : World}
      {tr : List (Event U N)} {e : Option RunnableOutcome} (h : (w.context c).hook = none)
      (rest : Evaluates lib c (.act p (k false)) tr e) :
      Evaluates lib c (.act p (.check kind k)) (.moment w w :: tr) e
  | checking {p : Part} {kind : CheckKind} {k : Bool → Act (p.Report (Frame U N))} {w : World}
      {hook : Hook} {tr : List (Event U N)} (h : (w.context c).hook = some hook)
      (hprobe : Probes U N c (Probe.start hook kind) tr none) :
      Evaluates lib c (.act p (.check kind k)) (.moment w w :: tr) none
  | checked {p : Part} {kind : CheckKind} {k : Bool → Act (p.Report (Frame U N))} {w : World}
      {hook : Hook} {stopped : Bool} {tr tr' : List (Event U N)} {e : Option RunnableOutcome}
      (h : (w.context c).hook = some hook)
      (hprobe : Probes U N c (Probe.start hook kind) tr (some stopped))
      (rest : Evaluates lib c (.act p (k stopped)) tr' e) :
      Evaluates lib c (.act p (.check kind k)) (.moment w w :: (tr ++ tr')) e
  | waiting {p : Part} {n : NotifierId} {d : Duration} {k : Bool → Act (p.Report (Frame U N))}
      {w : World} {tr : List (Event U N)} (h : Waits U N n (w.after d.millis) tr none) :
      Evaluates lib c (.act p (.wait n d k)) (.moment w w :: tr) none
  | waited {p : Part} {n : NotifierId} {d : Duration} {k : Bool → Act (p.Report (Frame U N))} {w : World}
      {notified : Bool} {tr tr' : List (Event U N)} {e : Option RunnableOutcome}
      (h : Waits U N n (w.after d.millis) tr (some notified))
      (rest : Evaluates lib c (.act p (k notified)) tr' e) :
      Evaluates lib c (.act p (.wait n d k)) (.moment w w :: (tr ++ tr')) e
  | panic (p : Part) (text : String) (w : World) :
      Evaluates lib c (.act p (.panic text)) [.moment w w] (some (.panic text))
  -- a call from the code of a part
  | uncalled {p : Part} {f : Routine} {arguments : List Value}
      {k : Outcome → Act (p.Report (Frame U N))} {w : World} {tr : List (Event U N)}
      {e : Option RunnableOutcome} (h : (w.context c).stopping = true)
      (rest : Evaluates lib c (.act p (k (.error .stop))) tr e) :
      Evaluates lib c (.act p (.call f arguments k)) (.moment w w :: tr) e
  | unloaded {p : Part} {f : Routine} {arguments : List Value} {k : Outcome → Act (p.Report (Frame U N))}
      {w : World} {fault : Fault} {tr : List (Event U N)} {e : Option RunnableOutcome}
      (h : ¬ (w.context c).stopping = true) (hload : lib.load f arguments = .error fault)
      (rest : Evaluates lib c (.act p (k (.error (.fault ((w.context c).handleFault fault []))))) tr e) :
      Evaluates lib c (.act p (.call f arguments k)) (.moment w w :: .handle fault [] :: tr) e
  | calling {p : Part} {f : Routine} {arguments : List Value} {k : Outcome → Act (p.Report (Frame U N))}
      {w : World} {r : Frame U N} {tr : List (Event U N)} {e : Option RunnableOutcome}
      (h : ¬ (w.context c).stopping = true) (hload : lib.load f arguments = .ok r)
      (callee : Evaluates lib c (.run r) tr e) :
      Evaluates lib c (.act p (.call f arguments k)) (.moment w w :: tr) none
  | calledPanic {p : Part} {f : Routine} {arguments : List Value}
      {k : Outcome → Act (p.Report (Frame U N))} {w : World} {r : Frame U N}
      {tr : List (Event U N)} {text : String} (h : ¬ (w.context c).stopping = true)
      (hload : lib.load f arguments = .ok r)
      (callee : Evaluates lib c (.run r) tr (some (.panic text))) :
      Evaluates lib c (.act p (.call f arguments k)) (.moment w w :: tr) (some (.panic text))
  | called {p : Part} {f : Routine} {arguments : List Value}
      {k : Outcome → Act (p.Report (Frame U N))} {w : World} {r : Frame U N}
      {ending : RunnableOutcome} {outcome : Outcome} {tr tr' tr'' : List (Event U N)}
      {e : Option RunnableOutcome} (h : ¬ (w.context c).stopping = true)
      (hload : lib.load f arguments = .ok r) (callee : Evaluates lib c (.run r) tr (some ending))
      (hend : Concludes c ending tr' outcome) (rest : Evaluates lib c (.act p (k outcome)) tr'' e) :
      Evaluates lib c (.act p (.call f arguments k)) (.moment w w :: (tr ++ (tr' ++ tr''))) e
  -- what a step amounts to
  | again {r : Frame U N} {w : World} {tr : List (Event U N)} {e : Option RunnableOutcome}
      (rest : Evaluates lib c (.act .step (lib.advance r)) tr e) :
      Evaluates lib c (.act .step (.done (r,.again))) (.moment w w :: tr) e
  | stopping {r : Frame U N} {move : Move (Frame U N)} {w : World} (hmove : move ≠ .again)
      (h : (w.context c).stopping = true) :
      Evaluates lib c (.act .step (.done (r,move))) [.moment w w] (some .stop)
  | proceed {r : Frame U N} {w : World} {tr : List (Event U N)} {e : Option RunnableOutcome}
      (h : ¬ (w.context c).stopping = true) (rest : Evaluates lib c (.run r) tr e) :
      Evaluates lib c (.act .step (.done (r,.proceed))) (.moment w w :: tr) e
  | finish {r : Frame U N} {values : List Value} {w : World} (h : ¬ (w.context c).stopping = true) :
      Evaluates lib c (.act .step (.done (r,.finish values))) [.moment w w] (some (.ok values))
  | stop {r : Frame U N} {w : World} (h : ¬ (w.context c).stopping = true) :
      Evaluates lib c (.act .step (.done (r,.stop))) [.moment w w] (some .stop)
  | fault {r : Frame U N} {fault : Fault} {w : World} (h : ¬ (w.context c).stopping = true) :
      Evaluates lib c (.act .step (.done (r,.fault fault))) [.moment w w,.describe r]
        (some (.failure fault [lib.describeFrame r]))
  -- a child stands between the step that launches it and the next one
  | launching {r child : Frame U N} {w : World} {tr : List (Event U N)} {e : Option RunnableOutcome}
      (h : ¬ (w.context c).stopping = true) (hchild : Evaluates lib c (.run child) tr e) :
      Evaluates lib c (.act .step (.done (r,.launch child))) (.moment w w :: tr) none
  | childStop {r child : Frame U N} {w : World} {tr : List (Event U N)}
      (h : ¬ (w.context c).stopping = true)
      (hchild : Evaluates lib c (.run child) tr (some .stop)) :
      Evaluates lib c (.act .step (.done (r,.launch child))) (.moment w w :: tr) (some .stop)
  | childPanic {r child : Frame U N} {w : World} {tr : List (Event U N)} {text : String}
      (h : ¬ (w.context c).stopping = true)
      (hchild : Evaluates lib c (.run child) tr (some (.panic text))) :
      Evaluates lib c (.act .step (.done (r,.launch child))) (.moment w w :: tr)
        (some (.panic text))
  | childOk {r child : Frame U N} {values : List Value} {w : World} {tr tr' : List (Event U N)}
      {e : Option RunnableOutcome} (h : ¬ (w.context c).stopping = true)
      (hchild : Evaluates lib c (.run child) tr (some (.ok values)))
      (rest : Evaluates lib c (.act (.receive []) (lib.accept (.ok values) r)) tr' e) :
      Evaluates lib c (.act .step (.done (r,.launch child)))
        (.moment w w :: (tr ++ .receive r (.ok values) :: tr')) e
  | childFailure {r child : Frame U N} {fault : Fault} {frames : List String} {w : World}
      {tr tr' : List (Event U N)} {e : Option RunnableOutcome}
      (h : ¬ (w.context c).stopping = true)
      (hchild : Evaluates lib c (.run child) tr (some (.failure fault frames)))
      (rest : Evaluates lib c (.act (.receive frames) (lib.accept (.error fault) r)) tr' e) :
      Evaluates lib c (.act .step (.done (r,.launch child)))
        (.moment w w :: (tr ++ .receive r (.error fault) :: tr')) e
  -- what a reception amounts to
  | accepted {r : Frame U N} {frames : List String} {w : World} {tr : List (Event U N)}
      {e : Option RunnableOutcome} (rest : Evaluates lib c (.run r) tr e) :
      Evaluates lib c (.act (.receive frames) (.done (r,.ok ()))) (.moment w w :: tr) e
  | refused {r : Frame U N} {frames : List String} {fault : Fault} {w : World} :
      Evaluates lib c (.act (.receive frames) (.done (r,.error fault))) [.moment w w,.describe r]
        (some (.failure fault (frames ++ [lib.describeFrame r])))

end Workers
