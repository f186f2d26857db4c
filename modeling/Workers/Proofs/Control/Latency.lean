import Workers.Proofs.Control.Cancel
import Workers.Proofs.Control.Stop
import Workers.Proofs.Control.Wakeup
/-! # How long a cancellation may go unseen

A context that reports to its worker lets the steps of runnables pass until a tick is due, and the
tick looks at the command.  The room up to the next tick is therefore a bound on the steps that still
begin after a cancellation, wherever the worker is when the command is put: only a check that is about
to resume has let its look go by already.
-/
namespace Workers

/-- Code that leaves its context in place, and that ticks when it has counted an instruction for which
a tick is due. -/
def Act.TicksWhenDue {α : Type} : Act α → Prop
  | .done _ | .panic _ => True
  | .query .destroy _ => False
  | .query .count k => (∀ count, (k count).TicksWhenDue) ∧ ∃ g, k .tick = .check .tick g
  | .query _ k => ∀ answer, (k answer).TicksWhenDue
  | .check _ k => ∀ stopped, (k stopped).TicksWhenDue
  | .wait _ _ k => ∀ notified, (k notified).TicksWhenDue
  | .call _ _ k => ∀ outcome, (k outcome).TicksWhenDue

theorem Act.TicksWhenDue.bind {α β : Type} {a : Act α} {f : α → Act β} (ha : a.TicksWhenDue)
    (hf : ∀ x, (f x).TicksWhenDue) :
    (a.bind f).TicksWhenDue := by
  induction a with
  | done x => exact hf x
  | query q k ih =>
    cases q with
    | destroy => exact ha
    | count =>
      obtain ⟨hk,g,hg⟩ := ha
      exact ⟨fun count => ih count (hk count),fun stopped => (g stopped).bind f,
        by simp only [hg, Act.bind]⟩
    | newTable | newShared | get | set | length | share | paths | hookStep | notify | isNotified
    | newNotifier | retarget => exact fun answer => ih answer (ha answer)
  | check kind k ih => exact fun stopped => ih stopped (ha stopped)
  | wait n d k ih => exact fun notified => ih notified (ha notified)
  | call routine arguments k ih => exact fun outcome => ih outcome (ha outcome)
  | panic text => trivial

theorem Act.TicksWhenDue.answer {α : Type} {q : Query} {k : q.Answer → Act α}
    (h : (Act.query q k).TicksWhenDue) (answer : q.Answer) :
    q ≠ .destroy ∧ (k answer).TicksWhenDue := by
  cases q with
  | destroy => exact h.elim
  | count => exact ⟨nofun,h.1 answer⟩
  | newTable | newShared | get | set | length | share | paths | hookStep | notify | isNotified
  | newNotifier | retarget => exact ⟨nofun,h answer⟩

theorem Act.ticksWhenDue_countInstruction : countInstruction.TicksWhenDue := by
  refine ⟨fun count => ?_,.done,rfl⟩
  cases count with
  | stop | pass => trivial
  | tick => exact fun _ => trivial

theorem Act.ticksWhenDue_sleepFor (d : Duration) : (sleepFor d).TicksWhenDue := by
  intro n previous stopped
  cases stopped with
  | true => exact fun _ => trivial
  | false => exact fun _ _ _ => trivial

variable {U N : Type}

structure Library.TicksWhenDue (lib : Library U N) : Prop where
  step : ∀ u, (lib.step u).TicksWhenDue
  receive : ∀ u outcome, (lib.receive u outcome).TicksWhenDue
  body : ∀ n, (lib.body n).TicksWhenDue

namespace Library.TicksWhenDue

variable {lib : Library U N}

theorem advance (hlib : lib.TicksWhenDue) (frame : Frame U N) : (lib.advance frame).TicksWhenDue := by
  cases frame with
  | own u => exact (hlib.step u).bind fun _ => trivial
  | native name body =>
    cases body with
    | none => trivial
    | some n =>
      refine (hlib.body n).bind fun report => ?_
      obtain ⟨n',stretch⟩ := report
      cases stretch <;> trivial
  | guarded f phase =>
    cases phase with
    | launch arguments =>
      simp only [Library.advance]
      split <;> trivial
    | waiting | finished => trivial

theorem accept (hlib : lib.TicksWhenDue) (outcome : Except Fault (List Value)) (frame : Frame U N) :
    (lib.accept outcome frame).TicksWhenDue := by
  cases frame with
  | own u => exact (hlib.receive u outcome).bind fun _ => trivial
  | native | guarded => trivial

end Library.TicksWhenDue

def Phase.TicksWhenDue (h : WorkerId) {F : Type} : Phase F → Prop
  | .acting _ act => act.TicksWhenDue
  | .counting probe _ => ∃ at_, probe = .worker h at_
  | .checking probe _ k => (∃ at_, probe = .worker h at_) ∧ ∀ stopped, (k stopped).TicksWhenDue
  | .waiting _ _ _ k => ∀ notified, (k notified).TicksWhenDue
  | .turn _ | .exit _ => True

structure Strand.TicksWhenDue (h : WorkerId) {F : Type} (s : Strand F) : Prop where
  phase : s.phase.TicksWhenDue h
  callers : ∀ caller ∈ s.callers, ∀ outcome, (caller.resume outcome).TicksWhenDue

structure Context.ReportsEvery (h : WorkerId) (step : UInt32) (context : Context) : Prop where
  hook : context.hook = some (.worker h)
  hookStep : context.hookStep = step
  executed : context.executed < step

def Context.room (context : Context) : ℕ :=
  if context.stopping then 0 else context.hookStep.toNat - 1 - context.executed.toNat

/-- How many steps can still begin before a check of the worker has seen a cancellation. -/
def Phase.allowance (context : Context) {F : Type} : Phase F → ℕ
  | .counting (.worker _ .resume) _ => context.room + 1
  | .counting .. => 0
  | .checking (.worker _ .resume) .. => context.room
  | .checking .. => 0
  | .acting _ (.check .tick _) => 0
  | _ => context.room

namespace Context.ReportsEvery

variable {h : WorkerId} {step : UInt32} {context : Context}

theorem room_lt (hreports : context.ReportsEvery h step) : context.room + 1 ≤ step.toNat := by
  obtain ⟨_,rfl,hlt⟩ := hreports
  have hlt' := UInt32.lt_iff_toNat_lt.mp hlt
  unfold room
  split <;> omega

/-- An instruction passes and takes up room, or a tick is due. -/
theorem count (hreports : context.ReportsEvery h step) :
    context.countInstruction.2.ReportsEvery h step ∧
      (context.countInstruction.1 = .stop ∧ context.countInstruction.2.room = context.room ∨
        context.countInstruction.1 = .pass ∧ context.countInstruction.2.room + 1 = context.room ∨
        context.countInstruction.1 = .tick) := by
  obtain ⟨hhook,rfl,hlt⟩ := hreports
  have hlt' := UInt32.lt_iff_toNat_lt.mp hlt
  have hpos : ¬ context.hookStep = 0 := by
    rintro hzero
    rw [hzero] at hlt'
    exact Nat.not_lt_zero _ hlt'
  have hbound := context.hookStep.toNat_lt
  have hnext : (context.executed + 1).toNat = context.executed.toNat + 1 := by
    rw [UInt32.toNat_add]
    have hone : (1 : UInt32).toNat = 1 := rfl
    omega
  unfold countInstruction
  by_cases hstop : context.stopping
  · simp only [if_pos hstop]
    exact ⟨⟨hhook,rfl,hlt⟩,.inl ⟨trivial,trivial⟩⟩
  · simp only [if_neg hstop, if_neg hpos]
    by_cases hpass : context.executed + 1 < context.hookStep
    · simp only [if_pos hpass]
      have hpass' := UInt32.lt_iff_toNat_lt.mp hpass
      refine ⟨⟨hhook,rfl,hpass⟩,.inr (.inl ⟨trivial,?_⟩)⟩
      simp only [room, if_neg hstop, hnext]
      omega
    · simp only [if_neg hpass]
      refine ⟨⟨hhook,rfl,?_⟩,.inr (.inr trivial)⟩
      exact UInt32.lt_iff_toNat_lt.mpr (Nat.zero_lt_of_lt hlt')

theorem observe (hreports : context.ReportsEvery h step) (stopped : Bool) :
    (context.observe stopped).ReportsEvery h step := by
  unfold Context.observe
  split
  · exact ⟨hreports.hook,hreports.hookStep,hreports.executed⟩
  · exact hreports

end Context.ReportsEvery

theorem Phase.allowance_le (context : Context) {F : Type} {phase : Phase F}
    (h : ∀ probe stack, phase ≠ .counting probe stack) :
    phase.allowance context ≤ context.room := by
  unfold allowance
  split <;> first | exact absurd rfl (h _ _) | exact Nat.zero_le _ | exact le_rfl

/-- Whatever code asks, but for the count and the end of its context, only checks entries out. -/
theorem World.context_answer (w : World) (c : ContextId) {q : Query} (hdestroy : q ≠ .destroy)
    (hcount : q ≠ .count) :
    ∃ references, (w.answer c q).2.context c = { w.context c with references } := by
  have hset : ∀ (s : Store) (context : Context), context =
    { w.context c with references := context.references } →
      ∃ references, ((w.setStore s).setContext c context).context c =
      { w.context c with references } := by
    intro s context hcontext
    rw [context_setContext]
    split
    · exact ⟨_,hcontext⟩
    · exact ⟨_,rfl⟩
  cases q with
  | destroy => exact absurd rfl hdestroy
  | count => exact absurd rfl hcount
  | newTable | set | length | paths | hookStep | notify | isNotified | newNotifier => exact ⟨_,rfl⟩
  | newShared => exact hset _ _ rfl
  | get table key => exact hset _ _ (get_record (w.context c) w.memory table key)
  | share value =>
    simp only [answer, share]
    split
    · exact ⟨_,rfl⟩
    · split
      · rename_i hload
        exact hset _ _ (load_record hload)
      · exact ⟨_,rfl⟩
  | retarget target =>
    simp only [answer, retarget]
    split <;> exact ⟨_,rfl⟩

def Event.isStep : Event U N → Bool
  | .step _ => true
  | _ => false

namespace Strand

variable {lib : Library U N} {c : ContextId} {h : WorkerId} {step : UInt32} {w w' : World}
    {s s' : Strand (Frame U N)}

def begun (lib : Library U N) (c : ContextId) (w : World) (s s' : Strand (Frame U N)) (w' : World) : ℕ :=
  (s.events lib c w s' w').countP Event.isStep

/-- What a step of code that ticks when it is due comes to, in a context that reports every so many
instructions.  When a cancellation is the latest command,
each step that begins is taken off what is allowed. -/
structure TickingStep (lib : Library U N) (c : ContextId) (h : WorkerId) (step : UInt32) (w : World)
    (s s' : Strand (Frame U N)) (w' : World) : Prop where
  reportsEvery : (w'.context c).ReportsEvery h step
  ticksWhenDue : s'.TicksWhenDue h
  spends : (w.handle h).control.command = .cancel →
    s.begun lib c w s' w' + s'.phase.allowance (w'.context c) ≤ s.phase.allowance (w.context c)

theorem tickingStep_of_room (hreports : (w'.context c).ReportsEvery h step)
    (hs : s'.TicksWhenDue h) (hbegun : s.begun lib c w s' w' = 0)
    (hphase : ∀ probe stack, s'.phase ≠ .counting probe stack)
    (hroom : (w'.context c).room ≤ s.phase.allowance (w.context c)) :
    TickingStep lib c h step w s s' w' := by
  refine ⟨hreports,hs,fun _ => ?_⟩
  rw [hbegun, zero_add]
  exact (Phase.allowance_le _ hphase).trans hroom

theorem begun_acting (role : Role (Frame U N)) (act : Act role.Report)
    (callers : List (Caller (Frame U N))) :
    begun lib c w ⟨.acting role act,callers⟩ s' w' = 0 := by
  refine List.countP_eq_zero.mpr fun e he hstep => ?_
  cases e with
  | step r =>
    simp only [events, List.mem_cons, reduceCtorEq, false_or] at he
    exact step_not_mem_actEvents _ role act r he
  | moment | receive | describe | handle => cases hstep

theorem ticksWhenDue_afterAct (hlib : lib.TicksWhenDue) (stopping : Bool)
    (role : Role (Frame U N)) (report : role.Report) :
    (afterAct lib stopping role report).TicksWhenDue h := by
  cases role with
  | step below | receive below unwound => trivial
  | loneStep =>
    obtain ⟨frame,move⟩ := report
    cases move with
    | again => exact hlib.advance frame
    | proceed | launch | finish | fault | stop => trivial
  | loneReceive | outside => trivial

theorem afterAct_ne_counting (stopping : Bool) (role : Role (Frame U N)) (report : role.Report)
    (probe : Probe) (stack : List (Frame U N)) :
    afterAct lib stopping role report ≠ .counting probe stack := by
  cases role with
  | step below | receive below unwound => nofun
  | loneStep =>
    obtain ⟨frame,move⟩ := report
    cases move <;> nofun
  | loneReceive | outside => nofun

section Step

variable (hreports : (w.context c).ReportsEvery h step)

include hreports in
theorem tickingStep_query {callers : List (Caller (Frame U N))} {role : Role (Frame U N)}
    {q : Query} {k : q.Answer → Act role.Report}
    (hs : TicksWhenDue h ⟨.acting role (.query q k),callers⟩) :
    TickingStep lib c h step w ⟨.acting role (.query q k),callers⟩
      ⟨.acting role (k (w.answer c q).1),callers⟩
      (w.answer c q).2 := by
  obtain ⟨hact,hcallers⟩ := hs
  by_cases hdestroy : q = .destroy
  · subst hdestroy
    exact hact.elim
  by_cases hcount : q = .count
  · subst hcount
    obtain ⟨hk,g,hg⟩ := hact
    have hself := World.context_setContext_self (World.lt_of_hook hreports.hook)
      (w.context c).countInstruction.2
    obtain ⟨hnext,hroom⟩ := hreports.count
    have hle : ∀ (context : Context) (act : Act role.Report), (Phase.acting role act).allowance
        context ≤ context.room :=
      fun _ _ => Phase.allowance_le _ (by simp)
    refine ⟨(congrArg (Context.ReportsEvery h step) hself).mpr hnext,⟨hk _,hcallers⟩,fun _ => ?_⟩
    rw [begun_acting, zero_add]
    simp only [World.answer, hself]
    rcases hroom with ⟨_,hroom⟩ | ⟨_,hroom⟩ | htick
    · exact (hle _ _).trans hroom.le
    · exact (hle _ _).trans (Nat.le_of_succ_le hroom.le)
    · -- the room is full again, but the tick comes before anything passes
      rw [htick, hg]
      exact Nat.zero_le _
  · obtain ⟨references,hcontext⟩ := World.context_answer w c hdestroy hcount
    refine tickingStep_of_room ?_ ⟨(hact.answer _).2,hcallers⟩ (begun_acting _ _ _) (by simp) ?_
    · rw [hcontext]
      exact ⟨hreports.hook,hreports.hookStep,hreports.executed⟩
    · rw [hcontext]
      exact le_rfl

theorem opening_afterCount (stopped : Bool) (stack : List (Frame U N)) :
    (Phase.turn (Turn.afterCount stopped stack)).opening.countP Event.isStep ≤ if stopped then 0
      else 1 := by
  cases stopped <;> cases stack <;> simp [Turn.afterCount, Phase.opening, Event.isStep]

include hreports in
theorem tickingStep_count {callers : List (Caller (Frame U N))} {stack : List (Frame U N)}
    (hcallers : ∀ caller ∈ callers, ∀ outcome, (caller.resume outcome).TicksWhenDue)
    (hstep : Strand.step lib c w ⟨.turn (.count stack),callers⟩ = .ran s' w') :
    TickingStep lib c h step w ⟨.turn (.count stack),callers⟩ s' w' := by
  have hself := World.context_setContext_self (World.lt_of_hook hreports.hook)
    (w.context c).countInstruction.2
  obtain ⟨hnext,hroom⟩ := hreports.count
  have hreports' : ((w.setContext c (w.context c).countInstruction.2).context c).ReportsEvery h
    step := by rwa [hself]
  rcases hcounted : (w.context c).countInstruction with ⟨count,context⟩
  rw [hcounted] at hself hroom hreports' hnext
  have hhook : context.hook = some (.worker h) := hnext.hook
  rcases hroom with ⟨rfl,hroom⟩ | ⟨rfl,hroom⟩ | rfl
  · simp only [Strand.step, stepTurn, hcounted] at hstep
    cases hstep
    refine tickingStep_of_room hreports' ⟨trivial,hcallers⟩ rfl (by simp) ?_
    rw [hself]
    exact hroom.le
  · simp only [Strand.step, stepTurn, hcounted] at hstep
    cases hstep
    refine ⟨hreports',⟨trivial,hcallers⟩,fun _ => ?_⟩
    have hopen : (Phase.turn (Turn.afterCount false stack)).opening.countP Event.isStep ≤ 1 :=
      opening_afterCount false stack
    have hbegun : begun lib c w ⟨.turn (.count stack),callers⟩
      ⟨.turn (Turn.afterCount false stack),callers⟩
        (w.setContext c context) = (Phase.turn (Turn.afterCount false stack)).opening.countP
        Event.isStep := by
      simp [begun, events, Event.isStep]
    have hleft : context.room + 1 = (w.context c).room := hroom
    rw [hbegun, hself]
    change _ + context.room ≤ (w.context c).room
    omega
  · simp only [Strand.step, stepTurn, hcounted, hhook] at hstep
    cases hstep
    exact ⟨hreports',⟨⟨_,rfl⟩,hcallers⟩,fun _ => Nat.zero_le _⟩

end Step

/-- Once a cancellation is the latest command, a check turns to the stop. -/
theorem not_resume_of_goto {at_ next : Check} {shutdown : Bool} {control control' : Control}
    (hcancel : control.command = .cancel)
    (hmove : at_.step shutdown control = .goto next control') : next ≠ .resume := by
  rcases Check.goto_cases hmove with ⟨_,rfl,_⟩ | ⟨_,hharmless | ⟨rfl,_⟩ | ⟨_,_,hrun⟩ | ⟨_,rfl,_⟩⟩
  · nofun
  · rintro rfl
    exact hharmless
  · nofun
  · rw [hcancel] at hrun
    cases hrun
  · nofun

/-- Only a check that was about to resume does not stop. -/
theorem resume_of_finish {at_ : Check} {shutdown : Bool} {control control' : Control}
    (hcancel : control.command = .cancel) (hmove : at_.step shutdown control = .finish false control') :
    at_ = .resume := by
  cases at_ with
  | resume => rfl
  | tickCommand | pointCommand | reconsider =>
    simp only [Check.step, hcancel] at hmove
    cases hmove
  | awaitCommand =>
    simp only [Check.step] at hmove
    split at hmove <;> cases hmove
  | tickShutdown | acknowledge | pointShutdown | stop => cases hmove

section Probe

variable {at_ : Check} {u : World} (hreports : (w.context c).ReportsEvery h step)

theorem probe_goto {next : Probe} (hprobe : (Probe.worker h at_).step w = .goto next u) :
    ∃ at', next = .worker h at' ∧ u.context c = w.context c ∧
      ((w.handle h).control.command = .cancel → at' ≠ .resume) := by
  simp only [Probe.step] at hprobe
  split at hprobe
  · rename_i at' control hmove
    cases hprobe
    exact ⟨at',rfl,rfl,fun hcancel => not_resume_of_goto hcancel hmove⟩
  · cases hprobe
  · cases hprobe

theorem probe_finish {stopped : Bool} (hprobe : (Probe.worker h at_).step w = .finish stopped u) :
    u.context c = w.context c ∧ u.contexts.size = w.contexts.size ∧
      ((w.handle h).control.command = .cancel → stopped = false → at_ = .resume) := by
  simp only [Probe.step] at hprobe
  split at hprobe
  · cases hprobe
  · rename_i stopped' control hmove
    cases hprobe
    refine ⟨rfl,rfl,fun hcancel hstopped => ?_⟩
    rw [hstopped] at hmove
    exact resume_of_finish hcancel hmove
  · cases hprobe

include hreports in
theorem context_observe (hu : u.context c = w.context c)
    (hsize : u.contexts.size = w.contexts.size) (stopped : Bool) :
    (observe u c stopped).context c = (w.context c).observe stopped := by
  have hc : c < u.contexts.size := hsize ▸ World.lt_of_hook hreports.hook
  rw [observe, World.context_setContext_self hc, hu]

theorem allowance_counting (hat : at_ ≠ .resume) (context : Context) (stack : List (Frame U N)) :
    (Phase.counting (.worker h at_) stack).allowance context = 0 := by
  cases at_ <;> first | exact absurd rfl hat | rfl

theorem allowance_checking (hat : at_ ≠ .resume) (context : Context) (role : Role (Frame U N))
    (k : Bool → Act role.Report) : (Phase.checking (.worker h at_) role k).allowance context = 0 := by
  cases at_ <;> first | exact absurd rfl hat | rfl

include hreports in
/-- A tick on behalf of the scheduler: the step that it lets begin comes off what a resumption allows. -/
theorem tickingStep_counting {stack : List (Frame U N)} {callers : List (Caller (Frame U N))}
    (hcallers : ∀ caller ∈ callers, ∀ outcome, (caller.resume outcome).TicksWhenDue)
    (hstep : Strand.step lib c w ⟨.counting (.worker h at_) stack,callers⟩ = .ran s' w') :
    TickingStep lib c h step w ⟨.counting (.worker h at_) stack,callers⟩ s' w' := by
  cases transition_of_step hstep with
  | ticking stack callers hprobe =>
    obtain ⟨at',rfl,hu,hresume⟩ := probe_goto (c := c) hprobe
    refine ⟨hu ▸ hreports,⟨⟨at',rfl⟩,hcallers⟩,fun hcancel => ?_⟩
    rw [hu, allowance_counting (hresume hcancel)]
    exact Nat.zero_le _
  | @ticked _ stopped u stack callers hprobe =>
    obtain ⟨hu,hsize,hresume⟩ := probe_finish (c := c) hprobe
    have hcontext := context_observe hreports hu hsize stopped
    refine ⟨hcontext ▸ hreports.observe stopped,⟨trivial,hcallers⟩,fun hcancel => ?_⟩
    have hopen := opening_afterCount stopped stack
    have hbegun : begun lib c w ⟨.counting (.worker h at_) stack,callers⟩
        ⟨.turn (Turn.afterCount stopped stack),callers⟩ (observe u c stopped) =
          (Phase.turn (Turn.afterCount stopped stack)).opening.countP Event.isStep := by
      simp [begun, events, Event.isStep]
    rw [hbegun, hcontext]
    cases stopped with
    | true => exact (Nat.add_le_add hopen le_rfl).trans (Nat.zero_le _)
    | false =>
      rw [hresume hcancel rfl]
      change _ + (w.context c).room ≤ (w.context c).room + 1
      rw [add_comm (w.context c).room]
      exact Nat.add_le_add hopen le_rfl

include hreports in
/-- A check that the code has asked for. -/
theorem tickingStep_checking {role : Role (Frame U N)} {k : Bool → Act role.Report}
    {callers : List (Caller (Frame U N))} (hk : ∀ stopped, (k stopped).TicksWhenDue)
    (hcallers : ∀ caller ∈ callers, ∀ outcome, (caller.resume outcome).TicksWhenDue)
    (hstep : Strand.step lib c w ⟨.checking (.worker h at_) role k,callers⟩ = .ran s' w') :
    TickingStep lib c h step w ⟨.checking (.worker h at_) role k,callers⟩ s' w' := by
  cases transition_of_step hstep with
  | checking role k callers hprobe =>
    obtain ⟨at',rfl,hu,hresume⟩ := probe_goto (c := c) hprobe
    refine ⟨hu ▸ hreports,⟨⟨⟨at',rfl⟩,hk⟩,hcallers⟩,fun hcancel => ?_⟩
    rw [hu, allowance_checking (hresume hcancel)]
    exact Nat.zero_le _
  | @checked _ stopped u role k callers hprobe =>
    obtain ⟨hu,hsize,hresume⟩ := probe_finish (c := c) hprobe
    have hcontext := context_observe hreports hu hsize stopped
    have hbegun : begun lib c w ⟨.checking (.worker h at_) role k,callers⟩
      ⟨.acting role (k stopped),callers⟩
        (observe u c stopped) = 0 := rfl
    have hle : (Phase.acting role (k stopped)).allowance ((w.context c).observe stopped) ≤
        ((w.context c).observe stopped).room := Phase.allowance_le _ (by simp)
    refine ⟨hcontext ▸ hreports.observe stopped,⟨hk stopped,hcallers⟩,fun hcancel => ?_⟩
    rw [hbegun, zero_add, hcontext]
    cases stopped with
    | true => exact hle.trans (Nat.zero_le _)
    | false =>
      rw [hresume hcancel rfl]
      exact hle

end Probe

theorem step_tickingStep (hlib : lib.TicksWhenDue) (hreports : (w.context c).ReportsEvery h step)
    (hs : s.TicksWhenDue h) (hstep : s.step lib c w = .ran s' w') :
    TickingStep lib c h step w s s' w' := by
  obtain ⟨hphase,hcallers⟩ := hs
  cases transition_of_step hstep with
  | countedOut | due | counted => exact tickingStep_count hreports hcallers hstep
  | plainStep r => exact tickingStep_of_room hreports ⟨hlib.advance r,hcallers⟩ rfl nofun le_rfl
  | offers r below outcome =>
    exact tickingStep_of_room hreports ⟨hlib.accept outcome r,hcallers⟩ rfl nofun le_rfl
  | escapes | ends => exact tickingStep_of_room hreports ⟨trivial,hcallers⟩ rfl nofun le_rfl
  | returns outcome =>
    obtain ⟨hcaller,hrest⟩ := List.forall_mem_cons.mp hcallers
    exact tickingStep_of_room hreports ⟨hcaller outcome,hrest⟩ rfl nofun le_rfl
  | reports role report =>
    exact tickingStep_of_room hreports ⟨ticksWhenDue_afterAct hlib _ role report,hcallers⟩
      (begun_acting _ _ _)
      (afterAct_ne_counting _ role report) le_rfl
  | asks => exact tickingStep_query hreports ⟨hphase,hcallers⟩
  | unhooked role k callers hhook =>
    rw [hreports.hook] at hhook
    cases hhook
  | @checks kind hook role k callers hhook =>
    obtain rfl : .worker h = hook := Option.some.inj (hreports.hook.symm.trans hhook)
    refine ⟨hreports,⟨⟨⟨_,rfl⟩,hphase⟩,hcallers⟩,fun _ => ?_⟩
    rw [begun_acting, zero_add]
    cases kind <;> exact Nat.zero_le _
  | waits => exact tickingStep_of_room hreports ⟨hphase,hcallers⟩ (begun_acting _ _ _) nofun le_rfl
  | uncalled | unloaded =>
    exact tickingStep_of_room hreports ⟨hphase _,hcallers⟩ (begun_acting _ _ _) nofun le_rfl
  | calls =>
    exact tickingStep_of_room hreports ⟨trivial,List.forall_mem_cons.mpr ⟨hphase,hcallers⟩⟩
      (begun_acting _ _ _) nofun le_rfl
  | panics => exact tickingStep_of_room hreports ⟨trivial,nofun⟩ (begun_acting _ _ _) nofun le_rfl
  | ticking | ticked =>
    obtain ⟨at_,rfl⟩ := hphase
    exact tickingStep_counting hreports hcallers hstep
  | checking | checked =>
    obtain ⟨⟨at_,rfl⟩,hk⟩ := hphase
    exact tickingStep_checking hreports hk hcallers hstep
  | notified | expired => exact tickingStep_of_room hreports ⟨hphase _,hcallers⟩ rfl nofun le_rfl

end Strand

namespace World

variable {w : World} {c : ContextId} {h : WorkerId} {step : UInt32}

/-- Loading arguments only checks entries out. -/
theorem reportsEvery_loadAll (hreports : (w.context c).ReportsEvery h step) (objects : List Stored) :
    ((w.loadAll c objects).2.context c).ReportsEvery h step := by
  induction objects generalizing w with
  | nil => exact hreports
  | cons object rest ih =>
    unfold loadAll
    split
    · exact hreports
    · rename_i v context s hload
      refine ih (w := (w.setStore s).setContext c context) ?_
      rw [context_setContext_self (w := w.setStore s) (lt_of_hook hreports.hook), load_record hload]
      exact ⟨hreports.hook,hreports.hookStep,hreports.executed⟩

theorem reportsEvery_setHook (hc : c < w.contexts.size) (hnone : (w.context c).hook = none)
    (hstep : 0 < step) :
    ((w.setHook c (.worker h) step).context c).ReportsEvery h step := by
  have hkeep : c < (w.keepHook (some (.worker h))).contexts.size := hc
  simp only [setHook, hnone, dropHook, context_setContext, hkeep, and_self, if_true]
  exact ⟨rfl,rfl,hstep⟩

/-- A context without a hook takes that of its worker, and has not counted anything yet. -/
theorem reportsEvery_configure {config : Config} (hcontext : (w.handle h).context = some c)
    (hc : c < w.contexts.size) (hnone : (w.context c).hook = none) (hstep : 0 < config.step) :
    ((w.configure h config).context c).ReportsEvery h config.step := by
  have hsize :
      c <
      (w.setContext c
      { w.context c with path := config.path, cpath := config.cpath }).contexts.size := by
    rwa [size_setContext]
  have hunhooked :
    ((w.setContext c { w.context c with path := config.path, cpath := config.cpath }).context
    c).hook =
      none := by
    rw [context_setContext_self hc]
    exact hnone
  have hset := reportsEvery_setHook (h := h) hsize hunhooked hstep
  rw [configure, hcontext]
  simp only
  split
  · rw [context_setContext]
    split
    · exact ⟨hset.hook,hset.hookStep,hset.executed⟩
    · exact hset
  · exact hset

theorem reportsEvery_prepare {w' : World} {p : PoolId} {config : Config}
    {arguments adopted : List Stored}
    (hprepare : w.prepare p config arguments = (.ok (h,adopted),w')) (hstep : 0 < config.step)
    (hcontext : (w'.handle h).context = some c) : (w'.context c).ReportsEvery h config.step := by
  obtain ⟨v,rfl,hregistered⟩ := registered_of_prepare hprepare
  obtain ⟨hbefore,hin,hunhooked⟩ := hregistered c hcontext
  exact reportsEvery_configure hbefore hin hunhooked hstep

end World

namespace WorkerState

variable {lib : Library U N} {x y z : WorkerState U N} {bound : UInt32} {n m : ℕ}

def begun (lib : Library U N) (x y : WorkerState U N) : ℕ :=
  match x.worker.stage, y.worker.stage with
  | .running c s, .running _ s' => s.begun lib c x.world s' y.world
  | _, _ => 0

/-- A step of anybody, with the number of steps of runnables that begin with it.  Nobody but the worker
touches its context. -/
inductive CountedStep (lib : Library U N) : WorkerState U N → ℕ → WorkerState U N → Prop
  | worker {x y : WorkerState U N} (hworks : Works lib x y) : CountedStep lib x (begun lib x y) y
  | errand {x : WorkerState U N} {e e' : Errand} {w : World} (hstep : e.step x.world = .ran e' w) :
      CountedStep lib x 0 ⟨w,x.worker⟩
  | other {x : WorkerState U N} {w : World} (hcontrol : x.world.KeepsControl x.worker.handle w)
      (hown : ∀ c, x.RunsIn c → w.context c = x.world.context c) : CountedStep lib x 0 ⟨w,x.worker⟩

/-- Steps with which no command but a cancellation is accepted, and the number of steps of runnables that
begin with them. -/
inductive OnlyCancels (lib : Library U N) (x : WorkerState U N) : ℕ → WorkerState U N → Prop
  | refl : OnlyCancels lib x 0 x
  | tail {y z : WorkerState U N} {n m : ℕ} (hrun : OnlyCancels lib x n y) (hstep : CountedStep lib y m z)
      (hquiet : ∀ command, Accepts command y z → command = .cancel) : OnlyCancels lib x (n + m) z

def pending (x : WorkerState U N) : ℕ :=
  match x.worker.stage with
  | .running _ s => s.phase.opening.countP Event.isStep
  | _ => 0

def allowance (bound : UInt32) (x : WorkerState U N) : ℕ :=
  match x.worker.stage with
  | .starting .. => bound.toNat
  | .running c s => s.phase.allowance (x.world.context c)
  | _ => 0

structure TicksToWorker (bound : UInt32) (x : WorkerState U N) : Prop where
  reportsEvery : ∀ c, x.RunsIn c → (x.world.context c).ReportsEvery x.worker.handle bound
  ticksWhenDue : ∀ c s, x.worker.stage = .running c s → s.TicksWhenDue x.worker.handle

theorem CountedStep.step (h : CountedStep lib x n y) : Step lib x y := by
  cases h with
  | worker hworks => exact hworks.step
  | errand hstep => exact .errand hstep
  | other hcontrol => exact .other hcontrol

theorem opening_allowance_le (context : Context) (phase : Phase (Frame U N)) :
    phase.opening.countP Event.isStep + phase.allowance context ≤ context.room + 1 := by
  cases phase with
  | counting probe stack =>
    cases probe with
    | gauge g kind => exact Nat.zero_le _
    | worker i at_ => cases at_ <;> simp [Phase.opening, Phase.allowance]
  | turn t =>
    have hopen : (Phase.turn t).opening.countP Event.isStep ≤ 1 := by
      cases t <;> simp [Phase.opening, Event.isStep]
    have hle : (Phase.turn t).allowance context ≤ context.room := Phase.allowance_le context (by simp)
    rw [add_comm context.room]
    exact Nat.add_le_add hopen hle
  | acting role act =>
    have hle : (Phase.acting role act).allowance context ≤ context.room :=
      Phase.allowance_le context (by simp)
    exact (Nat.zero_add _).le.trans (hle.trans (Nat.le_succ _))
  | checking probe role k =>
    have hle : (Phase.checking probe role k).allowance context ≤ context.room :=
      Phase.allowance_le context (by simp)
    exact (Nat.zero_add _).le.trans (hle.trans (Nat.le_succ _))
  | waiting | exit => exact (Nat.zero_add _).le.trans (Nat.le_succ _)

theorem pending_allowance_le (hx : x.TicksToWorker bound) :
    x.pending + x.allowance bound ≤ bound.toNat := by
  obtain ⟨w,⟨h,stage⟩⟩ := x
  cases stage with
  | starting => exact (Nat.zero_add _).le
  | running c s =>
    exact (opening_allowance_le (w.context c) s.phase).trans
      (hx.reportsEvery c (.inr ⟨s,rfl⟩)).room_lt
  | collecting | destroying | judging | publishing | announcing | leaving | gone => exact Nat.zero_le _

def SpendsAllowance (bound : UInt32) (x : WorkerState U N) (n : ℕ) (y : WorkerState U N) : Prop :=
  y.TicksToWorker bound ∧ (x.control.command = .cancel → n + y.allowance bound ≤ x.allowance bound)

/-- What leaves the worker and its context alone. -/
theorem TicksToWorker.aside (hx : x.TicksToWorker bound) {w : World}
    (hcontext : ∀ c, (w.handle x.worker.handle).context = some c →
      (x.world.handle x.worker.handle).context = some c)
    (hown : ∀ c, x.RunsIn c → w.context c = x.world.context c) :
    SpendsAllowance bound x 0 ⟨w,x.worker⟩ := by
  have howns : ∀ c, RunsIn ⟨w,x.worker⟩ c → x.RunsIn c := fun c hc =>
    hc.imp (fun ⟨hstage,hc⟩ => ⟨hstage,hcontext c hc⟩) id
  refine ⟨⟨fun c hc => hown c (howns c hc) ▸ hx.reportsEvery c (howns c hc),hx.ticksWhenDue⟩,fun _ => ?_⟩
  rw [zero_add]
  obtain ⟨u,⟨h,stage⟩⟩ := x
  cases stage with
  | running c s =>
    have hcontext : w.context c = u.context c := hown c (.inr ⟨s,rfl⟩)
    simp only [allowance, hcontext]
    exact le_rfl
  | starting | collecting | destroying | judging | publishing | announcing | leaving | gone =>
    exact le_rfl

theorem contexts_errand {e e' : Errand} {w w' : World} (hstep : e.step w = .ran e' w') :
    w'.contexts = w.contexts := by
  rcases Errand.step_cases hstep with ⟨i,command,rfl⟩ | ⟨n,rfl⟩ | ⟨p,rfl⟩ | rfl <;> rfl

/-- A worker that runs no code begins no step. -/
theorem spendsAllowance_of_past (hpast : y.worker.stage.Past) (hbegun : n = 0) :
    SpendsAllowance bound x n y := by
  refine ⟨⟨fun c hc => absurd hc (not_runsIn_of_past hpast c),fun c s hs => ?_⟩,fun _ => ?_⟩
  · rw [hs] at hpast
    exact hpast.elim
  · have hnone : y.allowance bound = 0 := by
      unfold allowance
      split
      · rename_i hstage
        rw [hstage] at hpast
        exact hpast.elim
      · rename_i hstage
        rw [hstage] at hpast
        exact hpast.elim
      · rfl
    rw [hbegun, hnone]
    exact Nat.zero_le _

theorem begun_of_past (hpast : y.worker.stage.Past) : begun lib x y = 0 := by
  unfold begun
  split
  · rename_i hstage
    rw [hstage] at hpast
    exact hpast.elim
  · rfl

theorem Works.spendsAllowance (hlib : lib.TicksWhenDue) (hx : x.TicksToWorker bound)
    (hworks : Works lib x y) :
    SpendsAllowance bound x (begun lib x y) y := by
  obtain ⟨w,⟨h,stage⟩⟩ := x
  obtain ⟨w',worker'⟩ := y
  obtain ⟨stage',rfl,ht⟩ := hworks.transition
  cases ht with
  | @begins c values routine arguments hcontext =>
    -- a worker begins with an allowance for all of a pace
    have hreports := hx.reportsEvery c (.inl ⟨⟨routine,arguments,rfl⟩,hcontext⟩)
    have hloaded := World.reportsEvery_loadAll
      (w := w.setHandle h { w.handle h with context := none }) hreports arguments
    refine ⟨⟨fun d hd => ?_,fun d s hs => ?_⟩,fun _ => ?_⟩
    · obtain rfl := hd.unique rfl
      exact hloaded
    · obtain ⟨rfl,rfl⟩ := Stage.running.inj hs
      exact ⟨fun _ => trivial,nofun⟩
    · have hroom := hloaded.room_lt
      have hnone : begun lib (⟨w,⟨h,.starting routine arguments⟩⟩ : WorkerState U N)
          ⟨w.begun h c arguments,⟨h,.running c (.ofCall routine values)⟩⟩ = 0 := rfl
      rw [hnone, zero_add]
      exact Nat.le_of_succ_le hroom
  | @runs c s s' _ hs =>
    have hticking := Strand.step_tickingStep hlib (hx.reportsEvery c (.inr ⟨s,rfl⟩))
      (hx.ticksWhenDue c s rfl) hs
    refine ⟨⟨fun d hd => ?_,fun d t ht => ?_⟩,hticking.spends⟩
    · obtain rfl := hd.unique rfl
      exact hticking.reportsEvery
    · obtain ⟨rfl,rfl⟩ := Stage.running.inj ht
      exact hticking.ticksWhenDue
  | @exits c s e =>
    have hpast := Worker.past_afterExit c e
    exact spendsAllowance_of_past hpast (begun_of_past hpast)
  | deserted | unloaded | collects | uncollected | destroys | completes =>
    exact spendsAllowance_of_past trivial (begun_of_past trivial)
  | canceled | stops | fails | publishes | announces | leaves =>
    exact spendsAllowance_of_past trivial (begun_of_past trivial)

theorem CountedStep.spendsAllowance (hlib : lib.TicksWhenDue) (hx : x.TicksToWorker bound)
    (hadvance : CountedStep lib x n y) :
    SpendsAllowance bound x n y := by
  cases hadvance with
  | worker hworks => exact hworks.spendsAllowance hlib hx
  | errand hstep =>
    refine hx.aside (sleepUntouched_errand hstep).context fun c _ => ?_
    rw [World.context, World.context, contexts_errand hstep]
  | other hcontrol hown => exact hx.aside hcontrol.context hown

/-- The states that a worker with a configuration comes to while nobody else touches its context. -/
inductive ReachableWith (lib : Library U N) (config : Config) : WorkerState U N → Prop
  | launched {w w' : World} {p : PoolId} {h : WorkerId} {arguments adopted : List Stored}
      (routine : Routine) (hprepare : w.prepare p config arguments = (.ok (h,adopted),w')) :
      ReachableWith lib config ⟨w',{ handle := h, stage := .starting routine adopted }⟩
  | step {x y : WorkerState U N} {n : ℕ} (hx : ReachableWith lib config x)
      (hstep : CountedStep lib x n y) : ReachableWith lib config y

variable {config : Config}

theorem ReachableWith.reachable (hx : ReachableWith lib config x) : Reachable lib x := by
  induction hx with
  | launched routine hprepare => exact ⟨_,⟨_,_,_,_,_,_,_,_,hprepare,rfl⟩,.refl⟩
  | step _ hstep ih =>
    obtain ⟨z,hz,hsteps⟩ := ih
    exact ⟨z,hz,hsteps.tail hstep.step⟩

theorem ReachableWith.ticksToWorker (hlib : lib.TicksWhenDue) (hconfig : 0 < config.step)
    (hx : ReachableWith lib config x) :
    x.TicksToWorker config.step := by
  induction hx with
  | launched routine hprepare =>
    refine ⟨fun c hc => ?_,nofun⟩
    rcases hc with ⟨_,hcontext⟩ | ⟨s,hs⟩
    · exact World.reportsEvery_prepare hprepare hconfig hcontext
    · cases hs
  | step _ hstep ih => exact (hstep.spendsAllowance hlib ih).1

/-- As long as no other command is accepted, the latest one is the cancellation, and every step of a
runnable is paid for. -/
theorem OnlyCancels.spendsAllowance (hlib : lib.TicksWhenDue) (hx : x.TicksToWorker bound)
    (hsound : Sound x) (hcancel : x.control.command = .cancel) (hrun : OnlyCancels lib x n y) :
    y.TicksToWorker bound ∧ Sound y ∧ y.control.command = .cancel ∧
    n + y.allowance bound ≤ x.allowance bound := by
  induction hrun with
  | refl => exact ⟨hx,hsound,hcancel,(Nat.zero_add _).le⟩
  | @tail y z n m _ hstep hquiet ih =>
    obtain ⟨hy,hsound',hcancel',hle⟩ := ih
    obtain ⟨hz,hspends⟩ := hstep.spendsAllowance hlib hy
    refine ⟨hz,hstep.step.sound hsound',?_,?_⟩
    · rcases hstep.step.accepts_or_listens hsound' with haccepts | ⟨hcommand,_⟩
      · exact hquiet _ haccepts
      · exact hcommand.trans hcancel'
    · have hpaid := hspends hcancel'
      omega

/-- After a cancellation has been accepted, wherever the worker is, and as long as no other command
is, no more steps of runnables begin than there are instructions from one report to the next: the
one that has been counted already, and those until a check signals stop or the call is over.
Schedulers in one another are counted together. -/
theorem cancel_seen_in_time (hlib : lib.TicksWhenDue) (hconfig : 0 < config.step)
    (hx : ReachableWith lib config x) (haccepts : Accepts .cancel x y)
    (hrun : OnlyCancels lib y n z) : y.pending + n ≤ config.step.toNat := by
  obtain ⟨hterm,rfl⟩ := haccepts
  have hsound := hx.reachable.sound
  have hput : Errand.step x.world { orders := [.put x.worker.handle .cancel] } =
      .ran { orders := [] } (x.world.putCommand x.worker.handle .cancel) := rfl
  have htold : CountedStep lib x 0 (x.told .cancel) := .errand hput
  have hy := (htold.spendsAllowance hlib (hx.ticksToWorker hlib hconfig)).1
  obtain ⟨_,_,_,hle⟩ := hrun.spendsAllowance hlib hy (htold.step.sound hsound)
    (command_told hsound hterm .cancel)
  have hbound := pending_allowance_le hy
  omega

theorem ticksWhenDue_tickingTwice : tickingTwice.TicksWhenDue :=
  ⟨fun _ _ _ => trivial,fun _ _ => trivial,fun _ => trivial⟩

def reportingEachStep : WorkerState Unit Unit :=
  ⟨(World.prepare ({} : World).addPool.2 0 { Config.standard with step := 1 } []).2,
    { handle := 0, stage := .starting ⟨"",0⟩ [] }⟩

theorem ReachableWith.go {x : WorkerState Unit Unit} (hx : ReachableWith tickingTwice config x) (n : ℕ) :
    ReachableWith tickingTwice config (go n x) := by
  induction n generalizing x with
  | zero => exact hx
  | succ n ih =>
    rw [WorkerState.go]
    split
    · rename_i hstep
      exact ih (hx.step (.worker hstep))
    · exact hx

theorem ReachableWith.put {x : WorkerState Unit Unit} (hx : ReachableWith tickingTwice config x)
    (command : Command) :
    ReachableWith tickingTwice config (put command x) := by
  have hstep : Errand.step x.world { orders := [.put x.worker.handle command] } =
      .ran { orders := [] } (x.world.putCommand x.worker.handle command) := rfl
  exact hx.step (.errand hstep)

def resuming : WorkerState Unit Unit := go 2 (put .run (go 2 (put .pause (go 4 reportingEachStep))))

theorem reachableWith_resuming :
    ReachableWith tickingTwice { Config.standard with step := 1 } resuming := by
  have hlaunched : ReachableWith tickingTwice { Config.standard with step := 1 } reportingEachStep :=
    @ReachableWith.launched _ _ _ _ ({} : World).addPool.2 _ 0 _ [] _ ⟨"",0⟩ rfl
  exact ((((hlaunched.go 4).put .pause).go 2).put .run).go 2

theorem onlyCancels_resuming :
    OnlyCancels tickingTwice (put .cancel resuming) 1 (go 1 (put .cancel resuming)) := by
  have hworks : Works tickingTwice (put .cancel resuming) (go 1 (put .cancel resuming)) := by rfl
  have hbegun : begun tickingTwice (put .cancel resuming) (go 1 (put .cancel resuming)) = 1 := by decide
  have hcommand : (go 1 (put .cancel resuming)).control.command = .cancel := by decide
  have hadvance := CountedStep.worker hworks
  rw [hbegun] at hadvance
  refine .tail .refl hadvance fun command haccepts => ?_
  rw [haccepts.2, command_told (reachableWith_resuming.put .cancel).reachable.sound
    haccepts.1] at hcommand
  exact hcommand

theorem cancel_seen_in_time_resuming :
    (tickingTwice.TicksWhenDue ∧ 0 < { Config.standard with step := 1 }.step ∧
    ReachableWith tickingTwice { Config.standard with step := 1 } resuming ∧
    Accepts .cancel resuming (put .cancel resuming) ∧
      OnlyCancels tickingTwice (put .cancel resuming) 1 (go 1 (put .cancel resuming))) ∧
    (put .cancel resuming).pending + 1 ≤ { Config.standard with step := 1 }.step.toNat := by
  have hpace : 0 < { Config.standard with step := 1 }.step := by decide
  have haccepts : Accepts .cancel resuming (put .cancel resuming) := ⟨by decide,rfl⟩
  exact ⟨⟨ticksWhenDue_tickingTwice,hpace,reachableWith_resuming,haccepts,onlyCancels_resuming⟩,
    cancel_seen_in_time ticksWhenDue_tickingTwice hpace reachableWith_resuming haccepts
    onlyCancels_resuming⟩

end WorkerState

end Workers
