import Workers.Proofs.Call.Logged
/-! # How a scheduler ends

Every step that brings a scheduler to its end, with the outcome and with the stack that is left
then.  A stop that comes up where an instruction is counted leaves the stack as it is; at every
other end the stack is empty, and there is nothing that a later run could step.
-/
namespace Workers

variable {U N : Type}

inductive Phase.CountsOut (c : ContextId) (w : World) : Phase (Frame U N) → List (Frame U N) → Prop
  | stopping (stack : List (Frame U N)) (hstop : (w.context c).stopping = true) :
      CountsOut c w (.turn (.count stack)) stack
  | signalled {probe : Probe} {w' : World} (stack : List (Frame U N))
      (hprobe : probe.step w = .finish true w') :
      CountsOut c w (.counting probe stack) stack

/-- The phases from which the next step ends a scheduler, with what it ends with. -/
inductive Phase.Ending (c : ContextId) (w : World) :
    Phase (Frame U N) → Outcome → List (Frame U N) → Prop
  | countedOut {phase : Phase (Frame U N)} {left : List (Frame U N)} (h : phase.CountsOut c w left) :
      Ending c w phase (.error .stop) left
  | empty (hgo : ¬ (w.context c).stopping = true) :
      Ending c w (.turn (.count [])) (.error (.fault .noRunnable)) []
  | passed {probe : Probe} {w' : World} (hprobe : probe.step w = .finish false w') :
      Ending c w (.counting probe []) (.error (.fault .noRunnable)) []
  | stopping (r : Frame U N) (below : List (Frame U N)) {move : Move (Frame U N)}
      (hmove : move ≠ .again) (hstop : (w.context c).stopping = true) :
      Ending c w (.acting (.step below) (.done (r,move))) (.error .stop) []
  | finish (r : Frame U N) (values : List Value) (hgo : ¬ (w.context c).stopping = true) :
      Ending c w (.acting (.step []) (.done (r,.finish values))) (.ok values) []
  | stop (r : Frame U N) (below : List (Frame U N)) (hgo : ¬ (w.context c).stopping = true) :
      Ending c w (.acting (.step below) (.done (r,.stop))) (.error .stop) []
  | escape (fault : Fault) (frames : List String) :
      Ending c w (.turn (.escape fault frames))
        (.error (.fault ((w.context c).handleFault fault frames))) []

namespace Strand

variable {lib : Library U N} {c d : ContextId} {w w' u : World} {s s' t : Strand (Frame U N)}
  {callers : List (Caller (Frame U N))} {outcome : Outcome} {stack left rest : List (Frame U N)}
  {log : List (LogEntry U N)} {x y : World × Strand (Frame U N)}

theorem ending_afterAct {role : Role (Frame U N)} {report : role.Report}
    (h : afterAct lib (w.context c).stopping role report = .turn (.ended outcome left)) :
    (Phase.acting role (.done report)).Ending c w outcome left := by
  cases role with
  | step below =>
    obtain ⟨r,move⟩ := report
    by_cases hstop : (w.context c).stopping = true
    · simp only [afterAct, Turn.afterStep, hstop, if_true] at h
      have hmove : move ≠ .again := by
        rintro rfl
        cases h
      cases move <;> cases h <;> exact .stopping r below hmove hstop
    · simp only [afterAct, Turn.afterStep, if_neg hstop] at h
      cases move with
      | again | proceed | launch => cases h
      | finish values =>
        cases below with
        | nil =>
          cases h
          exact .finish r values hstop
        | cons => cases h
      | fault fault => cases below <;> cases h
      | stop =>
        cases h
        exact .stop r below hstop
  | receive below unwound =>
    obtain ⟨r,accepted⟩ := report
    cases accepted with
    | ok _ => cases h
    | error fault => cases below <;> cases h
  | loneStep =>
    obtain ⟨r,move⟩ := report
    cases move <;> cases h
  | loneReceive | outside => cases h

theorem afterCount_ended {stopped : Bool} {stack : List (Frame U N)}
    (h : Turn.afterCount stopped stack = .ended outcome left) :
    stopped = true ∧ outcome = .error .stop ∧ left = stack ∨
      stopped = false ∧ stack = [] ∧ outcome = .error (.fault .noRunnable) ∧ left = [] := by
  cases stopped with
  | true =>
    cases h
    exact .inl ⟨rfl,rfl,rfl⟩
  | false =>
    cases stack with
    | nil =>
      cases h
      exact .inr ⟨rfl,rfl,rfl,rfl⟩
    | cons => cases h

/-- There is no other way to the end. -/
theorem ending_of_step (hstep : s.step lib c w = .ran ⟨.turn (.ended outcome left),callers⟩ w') :
    s.callers = callers ∧ s.phase.Ending c w outcome left := by
  generalize hs' : (⟨.turn (.ended outcome left),callers⟩ : Strand (Frame U N)) = s' at hstep
  cases transition_of_step hstep with
  | countedOut stack callers hstop =>
    cases hs'
    exact ⟨rfl,.countedOut (.stopping left hstop)⟩
  | counted stack callers hgo =>
    injection hs' with hphase hcallers
    injection hphase with hturn
    rcases afterCount_ended hturn.symm with ⟨hstopped,_⟩ | ⟨_,rfl,rfl,rfl⟩
    · cases hstopped
    · exact ⟨hcallers.symm,.empty hgo⟩
  | ticked stack callers hprobe =>
    injection hs' with hphase hcallers
    injection hphase with hturn
    rcases afterCount_ended hturn.symm with ⟨rfl,rfl,rfl⟩ | ⟨rfl,rfl,rfl,rfl⟩
    · exact ⟨hcallers.symm,.countedOut (.signalled left hprobe)⟩
    · exact ⟨hcallers.symm,.passed hprobe⟩
  | escapes fault unwound callers =>
    cases hs'
    exact ⟨rfl,.escape fault unwound⟩
  | reports role report callers =>
    injection hs' with hphase hcallers
    exact ⟨hcallers.symm,ending_afterAct hphase.symm⟩
  | due | plainStep | offers | returns | ends | asks | unhooked | checks | waits => cases hs'
  | uncalled | unloaded | calls | panics | ticking | checking | checked | notified | expired => cases hs'

/-- What is counted out, ends with its stack. -/
theorem step_countsOut (h : s.phase.CountsOut c w stack) (hstep : s.step lib c w = .ran s' w') :
    s' = ⟨.turn (.ended (.error .stop) stack),s.callers⟩ := by
  obtain ⟨phase,callers⟩ := s
  cases h with
  | stopping stack hstop =>
    simp only [step, stepTurn, Context.countInstruction, hstop, if_true] at hstep
    cases hstep
    rfl
  | signalled stack hprobe =>
    simp only [step, hprobe] at hstep
    cases hstep
    rfl

theorem escape_afterAct {stopping : Bool} {role : Role (Frame U N)} {report : role.Report}
    {fault : Fault} {frames : List String}
    (h : afterAct lib stopping role report = .turn (.escape fault frames)) :
    (∃ r, Phase.acting role (.done report) = .acting (.step []) (.done (r,.fault fault)) ∧
      stopping = false) ∨
      ∃ r unwound, Phase.acting role (.done report) = .acting (.receive [] unwound)
        (.done (r,.error fault)) := by
  cases role with
  | step below =>
    obtain ⟨r,move⟩ := report
    cases stopping with
    | true => cases move <;> cases h
    | false =>
      cases move with
      | fault fault =>
        cases below with
        | nil =>
          cases h
          exact .inl ⟨r,rfl,rfl⟩
        | cons => cases h
      | finish values => cases below <;> cases h
      | again | proceed | launch | stop => cases h
  | receive below unwound =>
    obtain ⟨r,accepted⟩ := report
    cases accepted with
    | ok _ => cases h
    | error fault =>
      cases below with
      | nil =>
        cases h
        exact .inr ⟨r,unwound,rfl⟩
      | cons => cases h
  | loneStep =>
    obtain ⟨r,move⟩ := report
    cases move <;> cases h
  | loneReceive | outside => cases h

/-- A fault escapes from a step, unless its context has seen a stop, or from a reception. -/
theorem escape_of_step {fault : Fault} {frames : List String}
    (hstep : s.step lib c w = .ran ⟨.turn (.escape fault frames),callers⟩ w') :
    s.callers = callers ∧ w' = w ∧
      ((∃ r, s.phase = .acting (.step []) (.done (r,.fault fault)) ∧
        (w.context c).stopping = false) ∨
        ∃ r unwound, s.phase = .acting (.receive [] unwound) (.done (r,.error fault))) := by
  generalize hs' : (⟨.turn (.escape fault frames),callers⟩ : Strand (Frame U N)) = s' at hstep
  cases transition_of_step hstep with
  | reports role report callers =>
    injection hs' with hphase hcallers
    exact ⟨hcallers.symm,rfl,escape_afterAct hphase.symm⟩
  | counted stack => cases stack <;> cases hs'
  | @ticked _ stopped _ stack => cases stopped <;> cases stack <;> cases hs'
  | countedOut | due | plainStep | offers | escapes | returns | ends | asks | unhooked | checks
  | waits => cases hs'
  | uncalled | unloaded | calls | panics | ticking | checking | checked | notified | expired => cases hs'

/-- What a step gives to the error handler of the context, if there is one: a fault, and the frames
that it unwound. -/
def handlerCall? (lib : Library U N) (c : ContextId) (w : World) (s : Strand (Frame U N)) :
    Option (Fault × List String) :=
  if (w.context c).handler.isNone then none
  else
    match s.phase with
    | .turn (.escape fault frames) => some (fault,frames)
    | .acting _ (.call f arguments _) =>
      if (w.context c).stopping then none
      else
        match lib.load f arguments with
        | .error fault => some (fault,[])
        | .ok _ => none
    | _ => none

theorem handle_not_mem_opening (phase : Phase (Frame U N)) (fault : Fault) (frames : List String) :
    (.handle fault frames : Event U N) ∉ phase.opening := by
  unfold Phase.opening
  split <;> simp

theorem handle_mem_actEvents {stopping : Bool} {role : Role (Frame U N)} {act : Act role.Report}
    {fault : Fault} {frames : List String} :
    (.handle fault frames : Event U N) ∈ actEvents lib stopping role act ↔
      ∃ f arguments k, act = .call f arguments k ∧ stopping = false ∧
        lib.load f arguments = .error fault ∧ frames = [] := by
  cases act with
  | done report =>
    have hdescribed : (.handle fault frames : Event U N) ∉ role.described stopping report := by
      unfold Role.described
      split
      · split <;> simp
      · simp
      · simp
    simpa [actEvents] using hdescribed
  | query | check | wait | panic => simp [actEvents]
  | call f arguments k =>
    cases stopping with
    | true => simp [actEvents]
    | false => cases hload : lib.load f arguments <;> simp +contextual [actEvents, hload, eq_comm]

/-- That is when the handler is seen to be called. -/
theorem handlerCall?_eq_some {fault : Fault} {frames : List String} :
    s.handlerCall? lib c w = some (fault,frames) ↔
    (w.context c).handler ≠ none ∧ .handle fault frames ∈ s.events lib c w s' w' := by
  obtain ⟨phase,callers⟩ := s
  cases hhandler : (w.context c).handler with
  | none => simp [handlerCall?, hhandler]
  | some handler =>
    cases phase with
    | turn t => cases t <;> simp [handlerCall?, events, hhandler, handle_not_mem_opening, eq_comm]
    | acting role act =>
      simp only [events, List.mem_cons, reduceCtorEq, false_or, handle_mem_actEvents]
      cases act with
      | call f arguments k =>
        cases hstop : (w.context c).stopping with
        | true => simp [handlerCall?, hhandler, hstop]
        | false =>
          cases hload : lib.load f arguments <;> simp [handlerCall?, hhandler, hstop,
            hload, eq_comm]
      | done | query | check | wait | panic => simp [handlerCall?, hhandler]
    | counting | checking | waiting | exit =>
      simp [handlerCall?, events, hhandler, handle_not_mem_opening]

/-- A run of a scheduler up to its first return, with the outcome and with the stack that is left. -/
structure SchedulerRun (lib : Library U N) (c : ContextId) (stack : List (Frame U N))
    (callers : List (Caller (Frame U N))) (w : World) (log : List (LogEntry U N))
    (outcome : Outcome) (left : List (Frame U N)) (w' : World) : Prop where
  loggedRun : LoggedRun lib c (w,⟨.turn (.count stack),callers⟩) log
      (w',⟨.turn (.ended outcome left),callers⟩)
  running : ∀ u s, .own u s ∈ log → ¬ s.Returned callers

/-- Nothing of a stack is ever stepped in a run that begins with it. -/
def NeverStepped (lib : Library U N) (stack : List (Frame U N)) : Prop :=
  ∀ c w log y, LoggedRun lib c (w,ofStack stack) log y →
    ∀ u callers r below, .own u ⟨.turn (.step r below),callers⟩ ∉ log

namespace SchedulerRun

theorem last (h : SchedulerRun lib c stack callers w log outcome left w') :
    ∃ u s, .own u s ∈ log ∧ s.callers = callers ∧
    s.phase.Ending c u outcome left ∧ ∃ u', s.step lib c u = .ran
      ⟨.turn (.ended outcome left),callers⟩ u' ∧
      w'.context c = u'.context c := by
  rcases h.loggedRun.last with ⟨hs,_⟩ | ⟨u,s,u',hmem,hstep,hcontext⟩
  · cases hs
  · obtain ⟨hcallers,hending⟩ := ending_of_step hstep
    exact ⟨u,s,hmem,hcallers,hending,u',hstep,hcontext⟩

theorem eq_of_returned (h : SchedulerRun lib c stack callers w log outcome left w')
    (hmem : .own u s ∈ log) {outcome' : Outcome}
    (hstep : ∀ s' u', s.step lib c u = .ran s' u' → s' = ⟨.turn (.ended outcome' rest),callers⟩) :
    outcome' = outcome ∧ rest = left := by
  obtain ⟨log₁,log₂,s',u',rfl,_,hown,hrest⟩ := h.loggedRun.split hmem
  obtain rfl := hstep s' u' hown
  rcases hrest.first with ⟨hs,_⟩ | ⟨v,hv,_⟩
  · cases hs
    exact ⟨rfl,rfl⟩
  · exact absurd ⟨outcome',rest,rfl⟩
      (h.running v _ (List.mem_append_right _ (List.mem_cons_of_mem _ hv)))

/-- What holds of a scheduler that stands alone, step by step, holds of it above those who wait for
it. -/
theorem keeps {P : World → Strand (Frame U N) → Prop}
    (h : SchedulerRun lib c stack callers w log outcome left w') (hstart : P w (ofStack stack))
    (hown : ∀ u t u' t', .own u (t.under callers) ∈ log → t.Inner → P u t →
      t.step lib c u = .ran t' u' → P u' t')
    (hothers : ∀ u t u', P u t → u.KeepsContext c u' → P u' t) (hmem : .own u s ∈ log) :
    ∃ t, t.Inner ∧ s = t.under callers ∧ P u t := by
  have hinside : (∃ t, t.Inner ∧ s = t.under callers ∧ P u t) ∨
      ∃ text, s = ⟨.exit (.panicked text),[]⟩ := by
    refine h.loggedRun.keeps_own (P := fun u s => (∃ t, t.Inner ∧ s = t.under callers ∧ P u t) ∨
      ∃ text, s = ⟨.exit (.panicked text),[]⟩)
        (.inl ⟨ofStack stack,⟨trivial,nofun⟩,rfl,hstart⟩) ?_ ?_ hmem
    · rintro u s u' s' hmem (⟨t,hinner,rfl,ht⟩ | ⟨text,rfl⟩) hstep
      · have hopen : ¬ t.Returned [] := by
          rintro ⟨outcome,left,rfl⟩
          exact h.running u _ hmem ⟨outcome,left,rfl⟩
        obtain ⟨hnext,hunder⟩ := inner_step lib c u callers hinner hopen
        rw [hunder] at hstep
        cases hown' : t.step lib c u with
        | blocked deadline =>
          rw [hown'] at hstep
          cases hstep
        | ran t' v =>
          rw [hown'] at hstep
          cases hstep
          have ht' := hown u t _ t' hmem hinner ht hown'
          rcases hnext t' _ hown' with hinner' | ⟨text,rfl⟩
          · exact .inl ⟨t',hinner',rfl,ht'⟩
          · exact .inr ⟨text,rfl⟩
      · cases hstep
    · rintro u s u' (⟨t,hinner,rfl,ht⟩ | hpanic) hbeside
      · exact .inl ⟨t,hinner,rfl,hothers u t u' ht hbeside⟩
      · exact .inr hpanic
  rcases hinside with hinner | ⟨text,rfl⟩
  · exact hinner
  · obtain ⟨_,_,_,_,_,_,hstep,_⟩ := h.loggedRun.split hmem
    cases hstep

end SchedulerRun

inductive WithoutRunnables : Strand (Frame U N) → Prop
  | count : WithoutRunnables (ofStack [])
  | counting (probe : Probe) : WithoutRunnables ⟨.counting probe [],[]⟩
  | ended (outcome : Outcome) (left : List (Frame U N)) :
      WithoutRunnables ⟨.turn (.ended outcome left),[]⟩
  | exit (e : Exit (Frame U N)) : WithoutRunnables ⟨.exit e,[]⟩

theorem WithoutRunnables.afterCount (stopped : Bool) :
    WithoutRunnables (⟨.turn (Turn.afterCount stopped []),[]⟩ : Strand (Frame U N)) := by
  cases stopped <;> exact .ended _ _

theorem WithoutRunnables.step (hs : WithoutRunnables s) (hstep : s.step lib c w = .ran s' w') :
    WithoutRunnables s' := by
  cases hs with
  | count =>
    simp only [ofStack, Strand.step, stepTurn] at hstep
    split at hstep <;> cases hstep
    · exact .afterCount true
    · exact .counting _
    · exact .afterCount false
  | counting probe =>
    simp only [Strand.step] at hstep
    split at hstep <;> cases hstep
    · exact .counting _
    · exact .afterCount _
  | ended outcome left =>
    cases hstep
    exact .exit _
  | exit e => cases hstep

/-- A stack is spent when nothing is left on it. -/
theorem neverStepped_iff : NeverStepped lib stack ↔ stack = [] := by
  constructor
  · intro hspent
    cases stack with
    | nil => rfl
    | cons r below =>
      have hrun := loggedRun_alone lib 0 2 ({},ofStack (r :: below))
      exact absurd (List.mem_cons_of_mem _ List.mem_cons_self)
        (hspent 0 _ _ _ hrun ({} : World) [] r below)
  · rintro rfl c w log y h u callers r below hmem
    have hvacant := h.keeps_own (P := fun _ s => WithoutRunnables s) .count (fun _ _ _ _ _ hs => hs.step)
      (fun _ _ _ hs _ => hs) hmem
    cases hvacant

/-- Whatever a scheduler comes to, its stack is empty when it returns and no runnable of it can be
stepped any more, unless a stop came up where an instruction was counted for it: then all that was
on the stack is left. -/
theorem SchedulerRun.empties_stack (h : SchedulerRun lib c stack callers w log outcome left w') :
    ((∀ u s rest, .own u s ∈ log → s.callers = callers → ¬ s.phase.CountsOut c u rest) → left = []) ∧
      (∀ u s rest, .own u s ∈ log → s.callers = callers → s.phase.CountsOut c u rest →
        left = rest ∧ outcome = .error .stop) ∧ (NeverStepped lib left ↔ left = []) := by
  refine ⟨fun hnever => ?_,fun u s rest hmem hcallers hout => ?_,neverStepped_iff⟩
  · obtain ⟨u,⟨phase,_⟩,hmem,rfl,hending,_⟩ := h.last
    cases hending with
    | countedOut hout => exact absurd hout (hnever u _ left hmem rfl)
    | empty | passed | stopping | finish | stop | escape => rfl
  · obtain ⟨houtcome,hleft⟩ : .error .stop = outcome ∧ rest = left :=
        h.eq_of_returned hmem fun s' u' hstep => by
      rw [step_countsOut hout hstep, hcallers]
    exact ⟨hleft.symm,houtcome.symm⟩

end Strand

def LogEntry.isReturn : LogEntry U N → Bool
  | .own _ ⟨.turn (.ended ..),_⟩ => true
  | _ => false

namespace Strand

variable {lib : Library U N} {c : ContextId} {w w' : World} {callers : List (Caller (Frame U N))}
    {outcome : Outcome}
  {stack left : List (Frame U N)}

/-- A scheduler that comes to its end by itself. -/
theorem schedulerRun_alone {n : ℕ} {log : List (LogEntry U N)}
    (hrun : alone lib c n (w,⟨.turn (.count stack),callers⟩) =
      (log,w',⟨.turn (.ended outcome left),callers⟩))
    (hgoing : log.any LogEntry.isReturn = false) :
    SchedulerRun lib c stack callers w log outcome left w' where
  loggedRun := by
    have hlogged := loggedRun_alone lib c n (w,⟨.turn (.count stack),callers⟩)
    rwa [hrun] at hlogged
  running u s hmem := by
    rintro ⟨outcome,left,rfl⟩
    have hany : log.any LogEntry.isReturn = true := List.any_eq_true.mpr ⟨_,hmem,rfl⟩
    rw [hgoing] at hany
    cases hany

def endsOnlyStopped : Library Unit Unit where
  load _ _ := .ok (.own ())
  step _ := .done ((),.proceed)
  receive _ outcome := .done ((),refuse outcome)
  describe _ := ""
  body _ := .done ((),.again)

def stoppingAtSecondTick : World where
  gauges := #[{ limit := some 2 }]
  contexts := #[{ number := 0, registry := 0, hook := some (.gauge 0), hookStep := 1 }]

theorem empties_stack_tickingTwice : ∃ log w',
    SchedulerRun WorkerState.tickingTwice 0 [.own ()] [] stoppingAtSecondTick log (.error .stop) [] w' ∧
    NeverStepped WorkerState.tickingTwice ([] : List (Frame Unit Unit)) := by
  have hrun : SchedulerRun WorkerState.tickingTwice 0 [.own ()] [] stoppingAtSecondTick
      _ (.error .stop) [] _ :=
    schedulerRun_alone (n := 8) rfl rfl
  exact ⟨_,_,hrun,hrun.empties_stack.2.2.mpr rfl⟩

theorem keeps_stack :
    ¬ ∀ (stack left : List (Frame Unit Unit)) (w w' : World) (log : List (LogEntry Unit Unit))
      (outcome : Outcome), SchedulerRun endsOnlyStopped 0 stack [] w log outcome left w' →
    left = [] := by
  intro hempty
  have hrun : SchedulerRun endsOnlyStopped 0 [.own ()] [] stoppingAtSecondTick _ (.error .stop)
      [.own ()] _ :=
    schedulerRun_alone (n := 6) rfl rfl
  cases hempty _ _ _ _ _ _ hrun

end Strand

end Workers
