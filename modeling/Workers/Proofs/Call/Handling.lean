import Workers.Proofs.Call.Endings
/-! # What an error handler sees

The error handler of a context is given the faults that escape from calls and those of routines that
cannot be loaded, wherever in the code of the outermost call that is.  It sees an error once, when
it escapes the outermost call, exactly if the code inside is never given the fault of a call of its
own.
-/
namespace Workers

variable {U N : Type}

/-- What an error handler is given: a fault with the frames that it unwound, and the number of calls
around the one that fails. -/
structure HandlerCall where
  depth : ℕ
  fault : Fault
  frames : List String

theorem Rooted.ne_nil {F : Type} {callers : List (Caller F)} (hr : Rooted callers) : callers ≠ [] := by
  cases hr <;> exact List.cons_ne_nil _ _

def Phase.HasRunnable {F : Type} : Phase F → Prop
  | .turn (.count stack) | .counting _ stack => stack ≠ []
  | _ => True

namespace Strand

def depth {F : Type} (s : Strand F) : ℕ :=
  match s.phase with
  | .turn _ => s.callers.length - 1
  | _ => s.callers.length

/-- The code of a runnable is about to be given the fault of a call that it has made. -/
inductive ReceivesFault (lib : Library U N) (c : ContextId) (w : World) : Strand (Frame U N) → Prop
  | returned {caller : Caller (Frame U N)} (fault : Fault) (left : List (Frame U N))
      (callers : List (Caller (Frame U N))) (hi : caller.role.IsInner) :
      ReceivesFault lib c w ⟨.turn (.ended (.error (.fault fault)) left),caller :: callers⟩
  | unloaded {role : Role (Frame U N)} {f : Routine} {arguments : List Value} {fault : Fault}
      (k : Outcome → Act role.Report) (callers : List (Caller (Frame U N))) (hi : role.IsInner)
      (hgo : ¬ (w.context c).stopping = true) (hload : lib.load f arguments = .error fault) :
      ReceivesFault lib c w ⟨.acting role (.call f arguments k),callers⟩

inductive HasOutcome (outcome : Outcome) : Strand (Frame U N) → Prop
  | ended (left : List (Frame U N)) (caller : Caller (Frame U N)) :
      HasOutcome outcome ⟨.turn (.ended outcome left),[caller]⟩
  | finished : HasOutcome outcome ⟨.acting .outside (.done outcome),[]⟩
  | exit (left : List (Frame U N)) (callers : List (Caller (Frame U N))) :
      HasOutcome outcome ⟨.exit (.ended outcome left),callers⟩

inductive Raises (lib : Library U N) (c : ContextId) (w : World) (fault : Fault) :
    List String → Strand (Frame U N) → Prop
  | escape (frames : List String) (caller : Caller (Frame U N)) :
      Raises lib c w fault frames ⟨.turn (.escape fault frames),[caller]⟩
  | unloaded {f : Routine} {arguments : List Value} (hgo : ¬ (w.context c).stopping = true)
      (hload : lib.load f arguments = .error fault) : Raises lib c w fault [] (ofCall f arguments)

end Strand

def LogEntry.handlerCall? (lib : Library U N) (c : ContextId) : LogEntry U N → Option HandlerCall
  | .own w s => (s.handlerCall? lib c w).map fun (fault,frames) => ⟨s.depth,fault,frames⟩
  | .others .. => none

def handlerCalls (lib : Library U N) (c : ContextId) (log : List (LogEntry U N)) : List HandlerCall :=
  log.filterMap (LogEntry.handlerCall? lib c)

/-- The handler was given the fault that a call has come to, with nothing done to it, and no other;
it has described it. -/
def SeenOnce (handler : ErrorHandler) (seen : List HandlerCall) : Outcome → Prop
  | .error (.fault described) =>
    ∃ fault frames, seen = [⟨0,fault,frames⟩] ∧ described = .handled (handler fault frames)
  | _ => seen = []

theorem SeenOnce.depth {handler : ErrorHandler} {seen : List HandlerCall} {outcome : Outcome}
    (h : SeenOnce handler seen outcome) : ∀ a ∈ seen, a.depth = 0 := by
  unfold SeenOnce at h
  split at h
  · obtain ⟨fault,frames,rfl,_⟩ := h
    exact fun a ha => by rw [List.mem_singleton.mp ha]
  · rw [h]
    exact nofun

theorem seenOnce_of_eq_nil {handler : ErrorHandler} {seen : List HandlerCall} {outcome : Outcome}
    (houtcome : ¬ ∃ described, outcome = .error (.fault described)) (h : seen = []) :
    SeenOnce handler seen outcome := by
  unfold SeenOnce
  split
  · rename_i described
    exact absurd ⟨described,rfl⟩ houtcome
  · exact h

namespace Strand

variable {lib : Library U N} {c : ContextId} {w w' u : World} {s s' : Strand (Frame U N)}
  {callers : List (Caller (Frame U N))} {outcome outcome' : Outcome} {stack left : List (Frame U N)}
  {log : List (LogEntry U N)} {x y : World × Strand (Frame U N)} {f : Routine} {arguments : List Value}

theorem hasRunnable_afterAct {stopping : Bool} (role : Role (Frame U N)) (report : role.Report) :
    (afterAct lib stopping role report).HasRunnable := by
  cases role with
  | step below =>
    obtain ⟨r,move⟩ := report
    simp only [afterAct, Turn.afterStep]
    cases move <;> cases stopping <;> cases below <;> first | trivial | exact List.cons_ne_nil _ _
  | receive below unwound =>
    obtain ⟨r,accepted⟩ := report
    cases accepted with
    | ok _ => exact List.cons_ne_nil _ _
    | error fault => cases below <;> trivial
  | loneStep =>
    obtain ⟨r,move⟩ := report
    cases move <;> trivial
  | loneReceive | outside => trivial

theorem hasRunnable_afterCount (stopped : Bool) (stack : List (Frame U N)) :
    (Phase.turn (Turn.afterCount stopped stack)).HasRunnable := by
  cases stopped <;> cases stack <;> trivial

theorem hasRunnable_step (hs : s.phase.HasRunnable) (hstep : s.step lib c w = .ran s' w') :
    s'.phase.HasRunnable := by
  cases transition_of_step hstep with
  | due | ticking => exact hs
  | counted stack => exact hasRunnable_afterCount false stack
  | ticked stack => exact hasRunnable_afterCount _ stack
  | reports role report => exact hasRunnable_afterAct role report
  | calls => exact List.cons_ne_nil _ _
  | countedOut | plainStep | offers | escapes | returns | ends | asks | unhooked | checks | waits =>
    trivial
  | uncalled | unloaded | panics | checking | checked | notified | expired => trivial

theorem escape_of_ending {fault : Fault} (hs : s.phase.HasRunnable)
    (hending : s.phase.Ending c w (.error (.fault fault)) left) :
    ∃ raised frames, s.phase = .turn (.escape raised frames) ∧
    fault = (w.context c).handleFault raised frames := by
  obtain ⟨phase,callers⟩ := s
  cases hending with
  | empty | passed => exact absurd rfl hs
  | escape raised frames => exact ⟨raised,frames,rfl,rfl⟩

structure OuterCall (c : ContextId) (handler : ErrorHandler) (w : World) (s : Strand (Frame U N)) :
    Prop where
  called : Called s
  hasRunnable : s.phase.HasRunnable
  handler : (w.context c).handler = some handler ∨ (w.context c).handler = none

variable {handler : ErrorHandler}

theorem OuterCall.step (hs : OuterCall c handler w s) (hstep : s.step lib c w = .ran s' w') :
    OuterCall c handler w' s' where
  called := called_step hs.called hstep
  hasRunnable := hasRunnable_step hs.hasRunnable hstep
  handler := by
    rcases addsNothing_step hstep with hadds | ⟨_,hcontext⟩
    · rcases hadds.handler with hsame | hnone
      · rw [hsame]
        exact hs.handler
      · exact .inr hnone
    · rw [hcontext]
      exact hs.handler

theorem OuterCall.others (hs : OuterCall c handler w s) (hbeside : w.KeepsContext c w') :
    OuterCall c handler w' s where
  called := hs.called
  hasRunnable := hs.hasRunnable
  handler := by
    rw [hbeside.context]
    exact hs.handler

theorem handlerCall?_escape (fault : Fault) (frames : List String)
    (callers : List (Caller (Frame U N))) (hhandler : (w.context c).handler ≠ none) :
    (⟨.turn (.escape fault frames),callers⟩ : Strand (Frame U N)).handlerCall? lib c w =
    some (fault,frames) := by
  simp [handlerCall?, hhandler]

/-- A strand that gives something to the handler lets a fault escape, or cannot load a routine. -/
theorem handlerCall?_cases {fault : Fault} {frames : List String}
    (h : s.handlerCall? lib c w = some (fault,frames)) :
    (w.context c).handler ≠ none ∧ (s.phase = .turn (.escape fault frames) ∨ frames = [] ∧
      ∃ role f arguments k, s.phase = .acting role (.call f arguments k) ∧
      ¬ (w.context c).stopping = true ∧
        lib.load f arguments = .error fault) := by
  have hevent : (w.context c).handler ≠ none ∧ .handle fault frames ∈ s.events lib c w s w :=
    handlerCall?_eq_some.mp h
  obtain ⟨hhandler,hmem⟩ := hevent
  refine ⟨hhandler,?_⟩
  obtain ⟨phase,callers⟩ := s
  cases phase with
  | turn t =>
    cases t with
    | escape raised unwound =>
      simp only [events, List.mem_cons, reduceCtorEq, Event.handle.injEq, List.not_mem_nil,
        or_false, false_or] at hmem
      obtain ⟨rfl,rfl⟩ := hmem
      exact .inl rfl
    | count | step | offer | ended => simp [events, handle_not_mem_opening] at hmem
  | acting role act =>
    simp only [events, List.mem_cons, reduceCtorEq, false_or, handle_mem_actEvents] at hmem
    obtain ⟨f,arguments,k,rfl,hgo,hload,hframes⟩ := hmem
    exact .inr ⟨hframes,role,f,arguments,k,rfl,by simp [hgo],hload⟩
  | counting | checking | waiting | exit => simp [events, handle_not_mem_opening] at hmem

theorem LoggedRun.outerCall (h : LoggedRun lib c (w,ofCall f arguments) log y)
    (hhandler : (w.context c).handler = some handler) :
    OuterCall c handler y.1 y.2 ∧ ∀ u s, .own u s ∈ log → OuterCall c handler u s := by
  have hstart : OuterCall (U := U) (N := N) c handler w (ofCall f arguments) :=
    ⟨.start f arguments,trivial,.inl hhandler⟩
  have hown : ∀ (w : World) (s : Strand (Frame U N)) w' s', .own w s ∈ log → OuterCall c handler w s →
      s.step lib c w = .ran s' w' → OuterCall c handler w' s' := fun w s w' s' _ hs => hs.step
  exact ⟨h.keeps hstart hown fun w s w' => .others,
    fun u s => h.keeps_own hstart hown fun w s w' => .others⟩

theorem mem_handlerCalls {a : HandlerCall} :
    a ∈ handlerCalls lib c log ↔ ∃ u s, .own u s ∈ log ∧ ∃ fault frames,
    s.handlerCall? lib c u = some (fault,frames) ∧ a = ⟨s.depth,fault,frames⟩ := by
  unfold handlerCalls
  rw [List.mem_filterMap]
  constructor
  · rintro ⟨entry,hmem,ha⟩
    cases entry with
    | own u s =>
      obtain ⟨⟨fault,frames⟩,hcall,rfl⟩ := Option.map_eq_some_iff.mp ha
      exact ⟨u,s,hmem,fault,frames,hcall,rfl⟩
    | others => cases ha
  · rintro ⟨u,s,hmem,fault,frames,hcall,rfl⟩
    exact ⟨.own u s,hmem,by simp [LogEntry.handlerCall?, hcall]⟩

/-- The handler is given the fault of a call that is not the outermost one exactly if the code that
made the call is given it after that. -/
theorem exists_receivesFault_iff
    (h : LoggedRun lib c (w,ofCall f arguments) log (w',⟨.exit (.ended outcome left),callers⟩))
    (hhandler : (w.context c).handler = some handler) :
    (∃ a ∈ handlerCalls lib c log, a.depth ≠ 0) ↔
      ∃ u s, .own u s ∈ log ∧ (u.context c).handler ≠ none ∧ s.ReceivesFault lib c u := by
  obtain ⟨_,hunderway⟩ := h.outerCall hhandler
  constructor
  · rintro ⟨a,ha,hdepth⟩
    obtain ⟨u,⟨phase,rest⟩,hmem,fault,frames,hcall,rfl⟩ := mem_handlerCalls.mp ha
    have hcalled := (hunderway u _ hmem).called
    obtain ⟨hsome,rfl | ⟨rfl,role,f',arguments',k,rfl,hgo,hload⟩⟩ := handlerCall?_cases hcall
    · -- the scheduler ends with the fault, and goes back to the code
      obtain ⟨log₁,log₂,s',u',rfl,_,hstep,hrest⟩ := h.split hmem
      cases hstep
      rcases hrest.first with ⟨hsame,_⟩ | ⟨v,hv,hcontext⟩
      · cases hsame
      · refine ⟨v,_,List.mem_append_right _ (List.mem_cons_of_mem _ hv),by rwa [hcontext],?_⟩
        cases hcalled with
        | turn _ hr =>
          cases hr with
          | root => exact absurd rfl hdepth
          | inner hi _ => exact .returned _ _ _ hi
    · refine ⟨u,_,hmem,hsome,?_⟩
      cases hcalled with
      | start => exact absurd rfl hdepth
      | acting _ hi _ => exact .unloaded k rest hi hgo hload
  · rintro ⟨u,s,hmem,hsome,hreceives⟩
    have hcalled := (hunderway u s hmem).called
    cases hreceives with
    | @returned caller fault left rest hi =>
      obtain ⟨log₁,log₂,_,_,rfl,hfirst,_,_⟩ := h.split hmem
      rcases hfirst.last with ⟨hsame,_⟩ | ⟨v,⟨phase,_⟩,v',hv,hstep,hcontext⟩
      · cases hsame
      · obtain ⟨rfl,hending⟩ := ending_of_step hstep
        have hrunnable := (hunderway v _ (List.mem_append_left _ hv)).hasRunnable
        obtain ⟨raised,frames,rfl,_⟩ := escape_of_ending hrunnable hending
        cases hstep
        have hcall : (⟨.turn (.escape raised frames),caller :: rest⟩ : Strand
          (Frame U N)).handlerCall? lib c v =
            some (raised,frames) := handlerCall?_escape raised frames _ (by rwa [← hcontext])
        refine ⟨_,mem_handlerCalls.mpr ⟨v,_,List.mem_append_left _ hv,raised,frames,hcall,rfl⟩,?_⟩
        cases hcalled with
        | turn _ hr =>
          cases hr with
          | root => exact hi.elim
          | inner _ hr => exact fun hzero => hr.ne_nil (List.eq_nil_of_length_eq_zero hzero)
    | @unloaded role f' arguments' fault k rest hi hgo hload =>
      have hcall : (⟨.acting role (.call f' arguments' k),rest⟩ : Strand
        (Frame U N)).handlerCall? lib c u =
        some (fault,[]) := by
        simp [handlerCall?, hsome, hgo, hload]
      refine ⟨_,mem_handlerCalls.mpr ⟨u,_,hmem,fault,[],hcall,rfl⟩,?_⟩
      cases hcalled with
      | start => exact hi.elim
      | acting _ _ hr => exact fun hzero => hr.ne_nil (List.eq_nil_of_length_eq_zero hzero)

theorem HasOutcome.unique (h : s.HasOutcome outcome) (h' : s.HasOutcome outcome') :
    outcome = outcome' := by
  cases h <;> cases h' <;> rfl

theorem HasOutcome.step (hs : s.HasOutcome outcome) (hcalled : Called s)
    (hstep : s.step lib c w = .ran s' w') :
    s'.HasOutcome outcome ∧ w' = w ∧ s.handlerCall? lib c w = none := by
  cases hs with
  | ended left caller =>
    cases hcalled with
    | turn _ hr =>
      cases hr with
      | root =>
        cases hstep
        exact ⟨.finished,rfl,by simp [handlerCall?]⟩
      | inner _ hr => exact absurd rfl hr.ne_nil
  | finished =>
    cases hstep
    exact ⟨.exit _ _,rfl,by simp [handlerCall?]⟩
  | exit => cases hstep

/-- A fault that escapes the outermost call is what the call ends with. -/
theorem Raises.step {fault : Fault} {frames : List String} (hs : s.Raises lib c w fault frames)
    (hstep : s.step lib c w = .ran s' w') :
    s'.HasOutcome (.error (.fault ((w.context c).handleFault fault frames))) ∧ w' = w := by
  cases hs with
  | escape frames caller =>
    cases hstep
    exact ⟨.ended _ _,rfl⟩
  | unloaded hgo hload =>
    simp only [ofCall, Strand.step, stepAct, hgo, hload] at hstep
    cases hstep
    exact ⟨.finished,rfl⟩

theorem Rooted.split {callers : List (Caller (Frame U N))} (hr : Rooted callers) :
    ∃ upper, callers = upper ++ [⟨.outside,.done⟩] ∧ ∀ caller ∈ upper, caller.role.IsInner := by
  induction hr with
  | root => exact ⟨[],rfl,nofun⟩
  | @inner caller _ hi _ ih =>
    obtain ⟨upper,rfl,hupper⟩ := ih
    exact ⟨caller :: upper,rfl,List.forall_mem_cons.mpr ⟨hi,hupper⟩⟩

/-- A call from outside begins, runs a scheduler above the caller, or is over. -/
theorem called_cases (hs : Called s) : (∃ f arguments, s = ofCall f arguments) ∨
    (∃ t : Strand (Frame U N), t.Inner ∧ s = t.under [⟨.outside,.done⟩]) ∨
      (∃ outcome, s = ⟨.acting .outside (.done outcome),[]⟩) ∨ ∃ e callers, s = ⟨.exit e,callers⟩ := by
  have hinner : ∀ {phase : Phase (Frame U N)} {callers}, phase.IsInner → Rooted callers →
      ∃ t : Strand (Frame U N), t.Inner ∧ (⟨phase,callers⟩ : Strand (Frame U N)) =
      t.under [⟨.outside,.done⟩] := by
    intro phase callers hphase hr
    obtain ⟨upper,rfl,hupper⟩ := Rooted.split hr
    exact ⟨⟨phase,upper⟩,⟨hphase,hupper⟩,(under_eq (t := ⟨phase,upper⟩) hphase).symm⟩
  cases hs with
  | start f arguments => exact .inl ⟨f,arguments,rfl⟩
  | finished outcome => exact .inr (.inr (.inl ⟨outcome,rfl⟩))
  | exit e callers => exact .inr (.inr (.inr ⟨e,callers,rfl⟩))
  | turn | counting => exact .inr (.inl (hinner (by trivial) ‹_›))
  | acting | checking | waiting => exact .inr (.inl (hinner (by assumption) ‹_›))

/-- A scheduler above the outermost caller ends, or goes on there. -/
theorem hasOutcome_of_inner {t : Strand (Frame U N)} (ht : t.Inner)
    (hstep : (t.under [⟨.outside,.done⟩]).step lib c w = .ran s' w') (hs' : s'.HasOutcome outcome) :
    (t.under [⟨.outside,.done⟩]).HasOutcome outcome ∨
    ∃ left, s' = ⟨.turn (.ended outcome left),[⟨.outside,.done⟩]⟩ := by
  by_cases hopen : t.Returned []
  · obtain ⟨outcome,left,rfl⟩ := hopen
    cases hstep
    cases hs'
    exact .inl (.ended _ _)
  · obtain ⟨hnext,hunder⟩ := inner_step lib c w [⟨.outside,.done⟩] ht hopen
    rw [hunder] at hstep
    cases hown : t.step lib c w with
    | blocked deadline =>
      rw [hown] at hstep
      cases hstep
    | ran t' u =>
      rw [hown] at hstep
      cases hstep
      rcases hnext t' _ hown with hinner | ⟨text,rfl⟩
      · rw [under_eq hinner.phase] at hs' ⊢
        obtain ⟨phase,callers⟩ := t'
        obtain ⟨hphase,_⟩ := hinner
        generalize hbelow : callers ++ [⟨.outside,.done⟩] = below at hs' ⊢
        cases hs' with
        | ended left caller =>
          cases callers with
          | nil =>
            cases hbelow
            exact .inr ⟨left,rfl⟩
          | cons => simp at hbelow
        | finished => simp at hbelow
        | exit => exact hphase.elim
      · cases hs'

/-- There is no other way for the outermost call to end with a fault. -/
theorem raises_of_hasOutcome {fault : Fault} (hs : OuterCall c handler w s)
    (hstep : s.step lib c w = .ran s' w') (hs' : s'.HasOutcome (.error (.fault fault))) :
    s.HasOutcome (.error (.fault fault)) ∨
      ∃ raised frames, s.Raises lib c w raised frames ∧
      fault = (w.context c).handleFault raised frames := by
  rcases called_cases hs.called with ⟨f,arguments,rfl⟩ | ⟨t,ht,rfl⟩ | ⟨outcome,rfl⟩ | ⟨e,callers,rfl⟩
  · by_cases hgo : (w.context c).stopping = true
    · simp only [ofCall, Strand.step, stepAct, hgo, if_true] at hstep
      cases hstep
      cases hs'
    · cases hload : lib.load f arguments with
      | ok frame =>
        simp only [ofCall, Strand.step, stepAct, hgo, hload] at hstep
        cases hstep
        cases hs'
      | error raised =>
        simp only [ofCall, Strand.step, stepAct, hgo, hload] at hstep
        cases hstep
        cases hs'
        exact .inr ⟨raised,[],.unloaded hgo hload,rfl⟩
  · rcases hasOutcome_of_inner ht hstep hs' with hsettled | ⟨left,rfl⟩
    · exact .inl hsettled
    · obtain ⟨hcallers,hending⟩ := ending_of_step hstep
      obtain ⟨raised,frames,hphase,rfl⟩ := escape_of_ending hs.hasRunnable hending
      generalize t.under [⟨.outside,.done⟩] = s at hcallers hphase
      obtain ⟨phase,callers⟩ := s
      obtain rfl : callers = [⟨.outside,.done⟩] := hcallers
      obtain rfl : phase = .turn (.escape raised frames) := hphase
      exact .inr ⟨raised,frames,.escape frames _,rfl⟩
  · cases hstep
    cases hs'
    exact .inl .finished
  · cases hstep

/-- The handler is given a fault in the outermost call when it escapes that. -/
theorem raises_iff {fault : Fault} {frames : List String} (hcalled : Called s) :
    s.handlerCall? lib c w = some (fault,frames) ∧ s.depth = 0 ↔
      (w.context c).handler ≠ none ∧ s.Raises lib c w fault frames := by
  constructor
  · rintro ⟨hcall,hdepth⟩
    obtain ⟨phase,callers⟩ := s
    obtain ⟨hsome,rfl | ⟨rfl,role,f,arguments,k,rfl,hgo,hload⟩⟩ := handlerCall?_cases hcall
    · refine ⟨hsome,?_⟩
      cases hcalled with
      | turn _ hr =>
        cases hr with
        | root => exact .escape frames _
        | inner _ hr => exact absurd (List.eq_nil_of_length_eq_zero hdepth) hr.ne_nil
    · refine ⟨hsome,?_⟩
      cases hcalled with
      | start => exact .unloaded hgo hload
      | acting _ _ hr => exact absurd (List.eq_nil_of_length_eq_zero hdepth) hr.ne_nil
  · rintro ⟨hsome,hraises⟩
    cases hraises with
    | escape frames caller => exact ⟨handlerCall?_escape _ _ _ hsome,rfl⟩
    | unloaded hgo hload => exact ⟨by simp [handlerCall?, ofCall, hsome, hgo, hload],rfl⟩

structure HandlerAgrees (c : ContextId) (handler : ErrorHandler) (w : World) (s : Strand (Frame U N))
    (outer : List HandlerCall) : Prop where
  settled : ∀ described, s.HasOutcome (.error (.fault described)) →
    SeenOnce handler outer (.error (.fault described)) ∧ (w.context c).handler ≠ none ∨
      outer = [] ∧ (w.context c).handler = none
  pending : (∀ described, ¬ s.HasOutcome (.error (.fault described))) → outer = []

def outermost (seen : List HandlerCall) : List HandlerCall := seen.filter (·.depth = 0)

theorem outermost_eq {seen : List HandlerCall} (h : ∀ a ∈ seen, a.depth = 0) : outermost seen = seen :=
  List.filter_eq_self.mpr fun a ha => decide_eq_true (h a ha)

theorem outermost_append (log log' : List (LogEntry U N)) :
    outermost (handlerCalls lib c (log ++ log')) =
    outermost (handlerCalls lib c log) ++ outermost (handlerCalls lib c log') := by
  simp [outermost, handlerCalls]

theorem outermost_eq_nil
    (h : ∀ fault frames, ¬ s.Raises lib c w fault frames ∨ (w.context c).handler = none)
    (hcalled : Called s) : outermost (handlerCalls lib c [.own w s]) = [] := by
  rw [outermost, List.filter_eq_nil_iff]
  intro a ha hdepth
  obtain ⟨u,t,hmem,fault,frames,hcall,rfl⟩ := mem_handlerCalls.mp ha
  cases List.mem_singleton.mp hmem
  obtain ⟨hsome,hraises⟩ := (raises_iff hcalled).mp ⟨hcall,of_decide_eq_true hdepth⟩
  rcases h fault frames with hnot | hnone
  · exact hnot hraises
  · exact hsome hnone

theorem outermost_of_raises {fault : Fault} {frames : List String} (h : s.Raises lib c w fault frames)
    (hcalled : Called s) (hsome : (w.context c).handler ≠ none) :
    outermost (handlerCalls lib c [.own w s]) = [⟨0,fault,frames⟩] := by
  obtain ⟨hcall,hdepth⟩ := (raises_iff hcalled).mpr ⟨hsome,h⟩
  simp [outermost, handlerCalls, LogEntry.handlerCall?, hcall, hdepth]

theorem HandlerAgrees.step {outer : List HandlerCall}
    (hagrees : HandlerAgrees c handler w s outer) (hs : OuterCall c handler w s)
    (hstep : s.step lib c w = .ran s' w') :
    HandlerAgrees c handler w' s' (outer ++ outermost (handlerCalls lib c [.own w s])) := by
  by_cases hsettled : ∃ described, s.HasOutcome (.error (.fault described))
  · obtain ⟨described,hsettled⟩ := hsettled
    obtain ⟨hsettled',rfl,hnone⟩ := hsettled.step hs.called hstep
    have hno : outermost (handlerCalls lib c [.own w' s]) = [] := by
      simp [outermost, handlerCalls, LogEntry.handlerCall?, hnone]
    rw [hno, List.append_nil]
    refine ⟨fun other hother => ?_,fun hpending => absurd hsettled' (hpending described)⟩
    cases hother.unique hsettled'
    exact hagrees.settled described hsettled
  · rw [hagrees.pending (not_exists.mp hsettled), List.nil_append]
    by_cases hraises : ∃ fault frames, s.Raises lib c w fault frames
    · obtain ⟨fault,frames,hraises⟩ := hraises
      obtain ⟨hsettled',rfl⟩ := hraises.step hstep
      refine ⟨fun other hother => ?_,fun hpending => absurd hsettled' (hpending _)⟩
      cases hother.unique hsettled'
      rcases hs.handler with hsome | hnone
      · have hthere : (w'.context c).handler ≠ none := by rw [hsome]; nofun
        refine .inl ⟨⟨fault,frames,outermost_of_raises hraises hs.called hthere,?_⟩,hthere⟩
        rw [Context.handleFault, hsome]
      · exact .inr ⟨outermost_eq_nil (fun _ _ => .inr hnone) hs.called,hnone⟩
    · have hnot : ∀ fault frames, ¬ s.Raises lib c w fault frames :=
        fun fault frames h => hraises ⟨fault,frames,h⟩
      have hnil := outermost_eq_nil (fun fault frames => .inl (hnot fault frames)) hs.called
      refine ⟨fun described hdescribed => ?_,fun _ => hnil⟩
      rcases raises_of_hasOutcome hs hstep hdescribed with hbefore | ⟨fault,frames,h,_⟩
      · exact absurd ⟨described,hbefore⟩ hsettled
      · exact absurd h (hnot fault frames)

theorem HandlerAgrees.of_loggedRun (h : LoggedRun lib c (w,ofCall f arguments) log y)
    (hhandler : (w.context c).handler = some handler) :
    HandlerAgrees c handler y.1 y.2 (outermost (handlerCalls lib c log)) := by
  induction h with
  | refl => exact ⟨fun described hsettled => (by cases hsettled),fun _ => rfl⟩
  | @own log w' w'' s s' h hstep ih =>
    rw [outermost_append]
    exact ih.step (h.outerCall hhandler).1 hstep
  | @others log w' w'' s h hbeside ih =>
    rw [outermost_append, show outermost (handlerCalls lib c [.others w' w'']) = [] from rfl,
      List.append_nil]
    refine ⟨fun described hsettled => ?_,ih.pending⟩
    rw [hbeside.context]
    exact ih.settled described hsettled

/-- The error handler of a context sees the error that escapes the outermost call once, as it was
raised, and it sees no other, exactly if no code inside is given the fault of a call of its own as
long as there is the handler, and it is still there at the end. -/
theorem handler_sees_once
    (h : LoggedRun lib c (w,ofCall f arguments) log (w',⟨.exit (.ended outcome left),callers⟩))
    (hhandler : (w.context c).handler = some handler) :
    SeenOnce handler (handlerCalls lib c log) outcome ↔
      (∀ u s, .own u s ∈ log → (u.context c).handler ≠ none → ¬ s.ReceivesFault lib c u) ∧
        ((∃ described, outcome = .error (.fault described)) → (w'.context c).handler ≠ none) := by
  have hagrees := HandlerAgrees.of_loggedRun h hhandler
  have hinner := exists_receivesFault_iff h hhandler
  have hexit : HasOutcome outcome (⟨.exit (.ended outcome left),callers⟩ : Strand (Frame U N)) :=
    .exit left callers
  constructor
  · intro hseen
    have houter : ∀ a ∈ handlerCalls lib c log, a.depth = 0 := hseen.depth
    refine ⟨fun u s hmem hsome hreceives => ?_,?_⟩
    · obtain ⟨a,ha,hdepth⟩ := hinner.mpr ⟨u,s,hmem,hsome,hreceives⟩
      exact hdepth (houter a ha)
    · rintro ⟨described,rfl⟩
      rcases hagrees.settled described hexit with ⟨_,hthere⟩ | ⟨hnil,_⟩
      · exact hthere
      · obtain ⟨fault,frames,hall,_⟩ := hseen
        rw [outermost_eq houter, hall] at hnil
        cases hnil
  · rintro ⟨hnone,hthere⟩
    have houter : ∀ a ∈ handlerCalls lib c log, a.depth = 0 := by
      intro a ha
      by_contra hdepth
      obtain ⟨u,s,hmem,hsome,hreceives⟩ := hinner.mp ⟨a,ha,hdepth⟩
      exact hnone u s hmem hsome hreceives
    rw [outermost_eq houter] at hagrees
    by_cases hfault : ∃ described, outcome = .error (.fault described)
    · obtain ⟨described,rfl⟩ := hfault
      rcases hagrees.settled described hexit with ⟨hseen,_⟩ | ⟨_,hgone⟩
      · exact hseen
      · exact absurd hgone (hthere ⟨described,rfl⟩)
    · refine seenOnce_of_eq_nil hfault
        (hagrees.pending fun described hsettled => hfault ⟨described,hexit.unique hsettled⟩)

def passing : Library Unit Bool where
  load
    | ⟨_,0⟩, _ => .ok (.native "fails" (some false))
    | ⟨_,1⟩, _ => .ok (.native "passes" (some true))
    | _, _ => .ok (.guarded ⟨"passes",1⟩ (.launch []))
  step _ := .done ((),.finish [])
  receive _ outcome := .done ((),refuse outcome)
  describe _ := ""
  body
    | false => .done (false,.fault (.detailed "boom"))
    | true => .call ⟨"fails",0⟩ [] fun
      | .ok values => .done (true,.finish values)
      | .error (.fault fault) => .done (true,.fault fault)
      | .error .stop => .done (true,.stop)

def describing : World where
  contexts := #[{ number := 0, registry := 0, handler := some traceback }]

theorem handler_sees_once_fails : (describing.context 0).handler = some traceback ∧
    ∃ log w' described, LoggedRun passing 0 (describing,ofCall ⟨"fails",0⟩ []) log
      (w',⟨.exit (.ended (.error (.fault described)) []),[]⟩) ∧
      SeenOnce traceback (handlerCalls passing 0 log) (.error (.fault described)) ∧
        ∀ u s, .own u s ∈ log → (u.context 0).handler ≠ none → ¬ s.ReceivesFault passing 0 u := by
  have hrun := loggedRun_alone passing 0 7 (describing,ofCall ⟨"fails",0⟩ [])
  have hseen : SeenOnce traceback
    (handlerCalls passing 0 (alone passing 0 7 (describing,ofCall ⟨"fails",0⟩ [])).1)
      (.error
        (.fault
        (.handled (traceback (.detailed "boom") ["-> Executing Native Function: fails"])))) :=
    ⟨_,_,rfl,rfl⟩
  exact ⟨rfl,_,_,_,hrun,hseen,((handler_sees_once hrun rfl).mp hseen).1⟩

/-- The message that a protected call returns may be what the handler made of it. -/
theorem handler_sees_caught :
    ¬ ∀ (w w' : World) (f : Routine) (log : List (LogEntry Unit Bool)) (outcome : Outcome)
      (left : List (Frame Unit Bool)), (w.context 0).handler = some traceback →
      LoggedRun passing 0 (w,ofCall f []) log (w',⟨.exit (.ended outcome left),[]⟩) →
        SeenOnce traceback (handlerCalls passing 0 log) outcome := by
  intro hsees
  have hrun := loggedRun_alone passing 0 20 (describing,ofCall ⟨"tries",2⟩ [])
  have hseen := hsees describing _ _ _ (.ok (Protection.failure
    (.handled (traceback (.detailed "boom") ["-> Executing Native Function: fails"])))) _ rfl hrun
  cases hseen

end Strand

end Workers
