import Workers.Proofs.Control.Points
/-! # Whether a controller gets the answer to its own command

One controller pauses, resumes and cancels a worker, and waits for the status each time without a
limit.  Putting a command takes back older news, but not news that the worker is still about to
give: a worker that has read a resumption and not written its status yet is going to answer the
next command with it.
-/
namespace Workers

inductive Demand where
  | pause
  | resume
  | cancel
  deriving DecidableEq

namespace Demand

def command : Demand → Command
  | pause => .pause
  | resume => .run
  | cancel => .cancel

def errand (h : WorkerId) : Demand → Errand
  | pause => .pause h none
  | resume => { orders := [.put h .run] }
  | cancel => .cancel h none

def returns (status : Status) : Demand → Bool
  | pause => status = .paused
  | resume => true
  | cancel => status.isTerminal

/-- The demand was met, or the worker has come to an end by then. -/
def Answered (d : Demand) (status : Status) : Prop :=
  d.returns status = true ∨ d = .pause ∧ status.isTerminal = true

instance (d : Demand) (status : Status) : Decidable (d.Answered status) :=
  inferInstanceAs (Decidable (_ ∨ _))

theorem answered_of_terminal (d : Demand) {status : Status} (hterm : status.isTerminal = true) :
    d.Answered status := by
  cases d with
  | pause => exact .inr ⟨rfl,hterm⟩
  | resume => exact .inl rfl
  | cancel => exact .inl hterm

theorem not_answered_running {d : Demand} (hd : d ≠ .resume) : ¬ d.Answered .running := by
  cases d with
  | resume => exact absurd rfl hd
  | pause | cancel => decide

end Demand

inductive Order.Listens (h : WorkerId) : Order → Prop
  | interrupt (i : WorkerId) : Listens h (.interrupt i)
  | fire (n : NotifierId) : Listens h (.fire n)
  | await : Listens h (.await (.status h) none)

namespace Control

variable {control control' : Control} {point point' : Option Check} {d : Demand}

/-- News of a status stays until a command is put. -/
theorem latched_passage (hpass : Check.Passage control point control' point')
    (hlatched : control.statusChanged.latched = true) : control'.statusChanged.latched = true := by
  cases hpass with
  | rest | enter => exact hlatched
  | announce => rfl
  | goto hmove =>
    rcases Check.control_goto hmove with ⟨_,rfl⟩ | ⟨_,rfl⟩
    · exact hlatched
    · unfold acknowledgePause
      split
      · rfl
      · exact hlatched
  | finish hmove =>
    rcases Check.control_finish hmove with ⟨_,rfl⟩ | ⟨_,rfl⟩ | ⟨_,rfl⟩
    · exact hlatched
    · rfl
    · rfl

/-- A command is going to be answered: it is the latest, the worker is not about to resume, and a
status that is news already is an answer. -/
structure Answers (d : Demand) (control : Control) (point : Option Check) : Prop where
  command : control.command = d.command
  waits : d ≠ .resume
  past : point ≠ some .resume
  news : control.statusChanged.latched = true → d.Answered control.status

theorem Answers.passage (hpass : Check.Passage control point control' point')
    (ha : Answers d control point) :
    Answers d control' point' := by
  have hcommand : control'.command = d.command := hpass.command.trans ha.command
  cases hpass with
  | rest => exact ha
  | enter _ kind => exact ⟨hcommand,ha.waits,by cases kind <;> nofun,ha.news⟩
  | announce _ hterm => exact ⟨hcommand,ha.waits,nofun,fun _ => d.answered_of_terminal hterm⟩
  | goto hmove =>
    rcases Check.goto_cases hmove with ⟨rfl,rfl,rfl⟩ | ⟨rfl,hnext⟩
    · refine ⟨hcommand,ha.waits,nofun,?_⟩
      unfold acknowledgePause
      split
      · rename_i hpause
        have hd : d = .pause := by
          have hcommand := ha.command.symm.trans hpause
          cases d <;> first | rfl | cases hcommand
        rw [hd]
        exact fun _ => .inl rfl
      · exact ha.news
    · refine ⟨hcommand,ha.waits,?_,ha.news⟩
      rcases hnext with hharmless | ⟨rfl,_⟩ | ⟨_,rfl,hrun⟩ | ⟨_,rfl,_⟩
      · rintro ⟨⟩
        exact hharmless
      · nofun
      · have hcommand := ha.command.symm.trans hrun
        exact absurd rfl (by cases d <;> first | exact ha.waits | cases hcommand)
      · nofun
  | finish hmove =>
    refine ⟨hcommand,ha.waits,nofun,?_⟩
    rcases Check.control_finish hmove with ⟨_,rfl⟩ | ⟨rfl,rfl⟩ | ⟨_,rfl⟩
    · exact ha.news
    · exact absurd rfl ha.past
    · exact fun _ => d.answered_of_terminal rfl

/-- The status is terminal, and what is left of a check takes it back for a pending pause only. -/
def Ended (control : Control) (point : Option Check) : Prop :=
  control.status.isTerminal = true ∧
    ∀ at_, point = some at_ → at_.Harmless ∨ at_ = .acknowledge ∧ control.command = .pause

/-- A worker stays ended, or is at the acknowledgement of a pending pause. -/
theorem Ended.passage (hpass : Check.Passage control point control' point')
    (hended : Ended control point) :
    Ended control' point' ∨ point = some .acknowledge ∧ control.command = .pause ∧
      control' = control.acknowledgePause ∧ point' = some .awaitCommand := by
  obtain ⟨hterm,hpoint⟩ := hended
  cases hpass with
  | rest => exact .inl ⟨hterm,hpoint⟩
  | enter _ kind =>
    refine .inl ⟨hterm,fun at_ hat => ?_⟩
    cases hat
    exact .inl (Check.harmless_start kind)
  | announce _ hterm' => exact .inl ⟨hterm',nofun⟩
  | @goto at_ _ _ _ _ hmove =>
    rcases hpoint at_ rfl with hharmless | ⟨rfl,hpause⟩
    · rcases Check.control_goto hmove with ⟨_,rfl⟩ | ⟨rfl,_⟩
      · refine .inl ⟨hterm,fun next hnext => ?_⟩
        cases hnext
        exact Check.harmless_goto hharmless hmove
      · exact hharmless.elim
    · cases hmove
      exact .inr ⟨rfl,hpause,rfl,rfl⟩
  | @finish at_ _ _ _ _ hmove =>
    rcases Check.control_finish hmove with ⟨_,rfl⟩ | ⟨rfl,_⟩ | ⟨_,rfl⟩
    · exact .inl ⟨hterm,nofun⟩
    · rcases hpoint _ rfl with hharmless | ⟨hack,_⟩
      · exact hharmless.elim
      · cases hack
    · exact .inl ⟨rfl,nofun⟩

end Control

theorem WorkerState.Sound.ended {U N : Type} {x : WorkerState U N} (hx : x.Sound)
    (hterm : x.status.isTerminal = true) :
    x.control.Ended x.point := by
  refine ⟨hterm,fun at_ hat => ?_⟩
  obtain ⟨c,s,hstage,hcheck⟩ := WorkerState.running_of_point hat
  have hfits := hx.fits
  rw [hstage] at hfits
  obtain ⟨_,_,hprior⟩ := hfits
  obtain ⟨_,_,_,hpoint⟩ := hprior hterm
  exact hpoint at_ hcheck

structure ControlledWorker (U N : Type) where
  workerState : WorkerState U N
  call : Option (Demand × Errand) := none

namespace ControlledWorker

variable {U N : Type} {lib : Library U N}

def control (x : ControlledWorker U N) : Control := x.workerState.control

def status (x : ControlledWorker U N) : Status := x.workerState.status

inductive InnerStep (lib : Library U N) : ControlledWorker U N → ControlledWorker U N → Prop
  | worker {x y : WorkerState U N} {call : Option (Demand × Errand)} (hworks : x.Works lib y) :
      InnerStep lib ⟨x,call⟩ ⟨y,call⟩
  | order {x : WorkerState U N} {d : Demand} {e e' : Errand} {w : World}
      (hstep : e.step x.world = .ran e' w) :
      InnerStep lib ⟨x,some (d,e)⟩ ⟨⟨w,x.worker⟩,some (d,e')⟩
  | other {x : WorkerState U N} {w : World} {call : Option (Demand × Errand)}
      (hkeeps : x.world.KeepsControl x.worker.handle w) : InnerStep lib ⟨x,call⟩ ⟨⟨w,x.worker⟩,call⟩

inductive Step (lib : Library U N) : ControlledWorker U N → ControlledWorker U N → Prop
  | enter (x : WorkerState U N) (d : Demand) : Step lib ⟨x,none⟩ ⟨x,some (d,d.errand x.worker.handle)⟩
  | innerStep {x y : ControlledWorker U N} (hgoes : InnerStep lib x y) : Step lib x y
  | back (x : WorkerState U N) (d : Demand) {e : Errand} (hdone : e.isDone = true) :
      Step lib ⟨x,some (d,e)⟩ ⟨x,none⟩

abbrev During (lib : Library U N) : ControlledWorker U N → ControlledWorker U N → Prop :=
  Relation.ReflTransGen (InnerStep lib)

abbrev Steps (lib : Library U N) : ControlledWorker U N → ControlledWorker U N → Prop :=
  Relation.ReflTransGen (Step lib)

def Reachable (lib : Library U N) (x : ControlledWorker U N) : Prop :=
  ∃ z : WorkerState U N, z.Launched ∧ Steps lib ⟨z,none⟩ x

def Returning (d : Demand) (x : ControlledWorker U N) : Prop :=
  ∃ e : Errand, x.call = some (d,e) ∧ e.isDone = true

def Puts (d : Demand) (x y : ControlledWorker U N) : Prop :=
  ∃ e w, x.call = some (d,d.errand x.workerState.worker.handle) ∧
    (d.errand x.workerState.worker.handle).step x.workerState.world = .ran e w ∧
    y = ⟨⟨w,x.workerState.worker⟩,some (d,e)⟩

/-- The two ways in which a call that has just put its command may be answered by something else:
the worker is about to say that it runs again, or it has stopped with a pause still pending that it
comes to acknowledge. -/
def Late (lib : Library U N) (d : Demand) (x : ControlledWorker U N) : Prop :=
  (d ≠ .resume ∧ ¬ x.status.isTerminal = true ∧ x.workerState.point = some .resume) ∨
    d = .cancel ∧ x.status.isTerminal = true ∧ x.control.command = .pause ∧
      ∃ y, During lib x y ∧ y.workerState.point = some .acknowledge

variable {x y z : ControlledWorker U N} {d : Demand}

theorem Step.workerState (hstep : Step lib x y) : WorkerState.Steps lib x.workerState y.workerState := by
  cases hstep with
  | enter | back => exact .refl
  | innerStep hgoes =>
    cases hgoes with
    | worker hworks => exact .single hworks.step
    | order hstep => exact .single (.errand hstep)
    | other hkeeps => exact .single (.other hkeeps)

theorem Reachable.workerState (hx : Reachable lib x) : WorkerState.Reachable lib x.workerState := by
  obtain ⟨z,hz,hsteps⟩ := hx
  refine ⟨z,hz,?_⟩
  induction hsteps with
  | refl => exact .refl
  | tail _ hstep ih => exact ih.trans hstep.workerState

def Listening (d : Demand) (x : ControlledWorker U N) : Prop :=
  ∃ e : Errand, x.call = some (d,e) ∧ (∀ o ∈ e.orders, o.Listens x.workerState.worker.handle) ∧
    (.await (.status x.workerState.worker.handle) none ∈ e.orders ∨
      x.control.statusChanged.latched = true)

variable {w w' : World} {h : WorkerId} {e e' : Errand}

/-- An order that listens leaves the control alone, and a wait ends with news only. -/
theorem step_listens (hlistens : ∀ o ∈ e.orders, o.Listens h) (hstep : e.step w = .ran e' w') :
    w.KeepsControl h w' ∧ (∀ o ∈ e'.orders, o.Listens h) ∧ (.await (.status h) none ∈ e.orders →
      .await (.status h) none ∈ e'.orders ∨ (w.handle h).control.statusChanged.latched = true) := by
  obtain ⟨orders,answered⟩ := e
  cases orders with
  | nil => cases hstep
  | cons o rest =>
    have hrest : ∀ o ∈ rest, o.Listens h := fun o ho => hlistens o (List.mem_cons_of_mem _ ho)
    cases hlistens o List.mem_cons_self with
    | interrupt i =>
      simp only [Errand.step] at hstep
      split at hstep <;> cases hstep
      · rename_i n _
        have hfire : ∀ o ∈ Order.fire n :: rest, o.Listens h :=
          List.forall_mem_cons.mpr ⟨.fire n,hrest⟩
        exact ⟨.refl h w,hfire,by simpa using Or.inl⟩
      · exact ⟨.refl h w,hrest,by simpa using Or.inl⟩
    | fire n =>
      cases hstep
      exact ⟨.of_eq rfl rfl,hrest,by simpa using Or.inl⟩
    | await =>
      simp only [Errand.step] at hstep
      split at hstep
      · rename_i hlatched
        cases hstep
        exact ⟨.refl h w,hrest,fun _ => .inr hlatched⟩
      · cases hstep

theorem InnerStep.listening (hgoes : InnerStep lib x y) (hx : x.workerState.Sound)
    (hlistening : Listening d x) :
    Check.Passage x.control x.workerState.point y.control y.workerState.point ∧ Listening d y := by
  obtain ⟨e,hcall,hlistens,htold⟩ := hlistening
  cases hgoes with
  | worker hworks =>
    have hpass := WorkerState.passage_works hx hworks
    refine ⟨hpass,e,hcall,?_⟩
    rw [hworks.handle_eq]
    exact ⟨hlistens,htold.imp_right (Control.latched_passage hpass)⟩
  | @order x d' _ e' w hstep =>
    obtain ⟨rfl,rfl⟩ := Prod.mk.inj (Option.some.inj hcall)
    obtain ⟨hkeeps,hlistens',hwait⟩ := step_listens hlistens hstep
    have hcontrol : (w.handle x.worker.handle).control = x.control := hkeeps.control
    refine ⟨WorkerState.passage_rest hcontrol rfl,e',rfl,hlistens',?_⟩
    rw [control, WorkerState.control, hcontrol]
    exact htold.elim hwait .inr
  | @other x w _ hkeeps =>
    have hcontrol : (w.handle x.worker.handle).control = x.control := hkeeps.control
    refine ⟨WorkerState.passage_rest hcontrol rfl,e,hcall,hlistens,?_⟩
    rwa [control, WorkerState.control, hcontrol]

theorem InnerStep.sound (hgoes : InnerStep lib x y) (hx : x.workerState.Sound) : y.workerState.Sound :=
  WorkerState.Steps.sound (Step.innerStep hgoes).workerState hx

/-- What every passage keeps holds until the call returns. -/
theorem During.kept {P : Control → Option Check → Prop} (hduring : During lib x y)
    (hx : x.workerState.Sound) (hlistening : Listening d x)
    (hpassage : ∀ {control point control' point'}, Check.Passage control point control' point' →
      P control point → P control' point')
    (hp : P x.control x.workerState.point) :
    y.workerState.Sound ∧ Listening d y ∧ P y.control y.workerState.point := by
  induction hduring with
  | refl => exact ⟨hx,hlistening,hp⟩
  | tail _ hgoes ih =>
    obtain ⟨hy,hlistening',hp'⟩ := ih
    obtain ⟨hpass,hlistening''⟩ := hgoes.listening hy hlistening'
    exact ⟨hgoes.sound hy,hlistening'',hpassage hpass hp'⟩

theorem During.command_eq (hduring : During lib x y) (hx : x.workerState.Sound)
    (hlistening : Listening d x) :
    y.workerState.Sound ∧ Listening d y ∧ y.control.command = x.control.command :=
  hduring.kept (P := fun control _ => control.command = x.control.command) hx hlistening
    (fun hpass hcommand => hpass.command.trans hcommand) rfl

theorem Listening.latched (hlistening : Listening d x) (hreturning : x.Returning d) :
    x.control.statusChanged.latched = true := by
  obtain ⟨e,hcall,_,htold⟩ := hlistening
  obtain ⟨e',hcall',hdone⟩ := hreturning
  obtain ⟨_,rfl⟩ := Prod.mk.inj (Option.some.inj (hcall.symm.trans hcall'))
  have hnil : e.orders = [] := List.isEmpty_iff.mp hdone
  refine htold.resolve_left ?_
  rw [hnil]
  exact List.not_mem_nil

/-- Once there is news of a status, a call that listens carries out its next order. -/
theorem exists_next (lib : Library U N) {worker : Worker (Frame U N)} {o : Order}
    {rest : List Order} {answered : Bool} (hlistens : o.Listens worker.handle)
    (hlatched : (w.handle worker.handle).control.statusChanged.latched = true) :
    ∃ w' answered', During lib ⟨⟨w,worker⟩,some (d,⟨o :: rest,answered⟩)⟩
      ⟨⟨w',worker⟩,some (d,⟨rest,answered'⟩)⟩ ∧
      (w'.handle worker.handle).control = (w.handle worker.handle).control := by
  cases hlistens with
  | interrupt i =>
    cases htarget : (w.handle i).target with
    | none =>
      have hstep : Errand.step w ⟨.interrupt i :: rest,answered⟩ = .ran ⟨rest,answered⟩ w := by
        simp only [Errand.step, htarget]
      exact ⟨w,answered,.single (.order hstep),rfl⟩
    | some n =>
      have hstep : Errand.step w ⟨.interrupt i :: rest,answered⟩ =
          .ran ⟨.fire n :: rest,answered⟩ w := by
        simp only [Errand.step, htarget]
      exact ⟨w.notify n,answered,.head (.order hstep) (.single (.order rfl)),rfl⟩
  | fire n => exact ⟨w.notify n,answered,.single (.order rfl),rfl⟩
  | await => exact ⟨w,true,.single (.order (if_pos hlatched)),rfl⟩

/-- Then it can return without another step of the worker. -/
theorem Listening.returns (lib : Library U N) (hlistening : Listening d x)
    (hlatched : x.control.statusChanged.latched = true) :
    ∃ y, During lib x y ∧ y.Returning d ∧ y.status = x.status := by
  obtain ⟨⟨w,worker⟩,call⟩ := x
  obtain ⟨⟨orders,answered⟩,hcall,hlistens,-⟩ := hlistening
  obtain rfl : call = _ := hcall
  change (w.handle worker.handle).control.statusChanged.latched = true at hlatched
  change ∀ o ∈ orders, o.Listens worker.handle at hlistens
  induction orders generalizing w answered with
  | nil => exact ⟨_,.refl,⟨_,rfl,rfl⟩,rfl⟩
  | cons o rest ih =>
    obtain ⟨hfirst,hrest⟩ := List.forall_mem_cons.mp hlistens
    obtain ⟨w',answered',hnext,hcontrol⟩ := exists_next lib hfirst hlatched
    obtain ⟨y,hduring,hreturning,hstatus⟩ := ih w' answered' (by rwa [hcontrol]) hrest
    exact ⟨y,hnext.trans hduring,hreturning,hstatus.trans (congrArg Control.status hcontrol)⟩

theorem Puts.told (hput : Puts d x y) :
    y.workerState = x.workerState.told d.command ∧ (d ≠ .resume → Listening d y) := by
  obtain ⟨e,w,_,hstep,rfl⟩ := hput
  cases d with
  | resume =>
    cases hstep
    exact ⟨rfl,fun hd => absurd rfl hd⟩
  | pause =>
    cases hstep
    exact ⟨rfl,fun _ => ⟨_,rfl,by simpa using Order.Listens.await,.inl (by simp)⟩⟩
  | cancel =>
    cases hstep
    exact ⟨rfl,fun _ => ⟨_,rfl,
      by simpa using ⟨Order.Listens.interrupt _,Order.Listens.await⟩,.inl (by simp)⟩⟩

theorem Puts.control_eq (hput : Puts d x y) (hx : x.workerState.Sound) :
    y.control = x.control.putCommand d.command := by
  rw [control, hput.told.1, WorkerState.control_told hx]
  rfl

/-- After a command that was taken the answer is on its way, unless the worker is about to resume. -/
theorem Puts.answers (hput : Puts d x y) (hx : x.workerState.Sound) (hd : d ≠ .resume)
    (hrun : ¬ y.status.isTerminal = true) (hpast : y.workerState.point ≠ some .resume) :
    y.control.Answers d y.workerState.point := by
  have hopen : ¬ x.control.status.isTerminal = true := by
    rwa [status, WorkerState.status, ← control, hput.control_eq hx, Control.status_putCommand] at hrun
  have htaken : x.control.putCommand d.command = _ := if_neg hopen
  rw [hput.control_eq hx, htaken]
  exact ⟨rfl,hd,hpast,fun hreturning => by cases hreturning⟩

/-- A worker that had ended when the command was put stays ended, or comes to acknowledge a pause. -/
theorem During.ended_or_acknowledges (hduring : During lib x y) (hx : x.workerState.Sound)
    (hlistening : Listening d x) (hended : x.control.Ended x.workerState.point) :
    y.control.Ended y.workerState.point ∨ x.control.command = .pause ∧
      ∃ u, During lib x u ∧ u.workerState.point = some .acknowledge := by
  induction hduring with
  | refl => exact .inl hended
  | @tail y z hduring hgoes ih =>
    rcases ih with hended' | hlapse
    · obtain ⟨hy,hlistening',hcommand⟩ := During.command_eq hduring hx hlistening
      obtain ⟨hpass,_⟩ := hgoes.listening hy hlistening'
      rcases hended'.passage hpass with hended'' | ⟨hat,hpause,_,_⟩
      · exact .inl hended''
      · exact .inr ⟨hcommand ▸ hpause,y,hduring,hat⟩
    · exact .inr hlapse

/-- A pause is answered by a worker that has ended, even if it is acknowledged after all. -/
theorem During.pause_answered (hduring : During lib x y) (hx : x.workerState.Sound)
    (hlistening : Listening .pause x) (hended : x.control.Ended x.workerState.point)
    (hreturning : y.Returning .pause) : Demand.pause.Answered y.status := by
  obtain ⟨_,hlistening',hended' | hanswers⟩ := hduring.kept
    (P := fun control point => control.Ended point ∨ control.Answers .pause point) hx hlistening
    (fun hpass hp => by
      rcases hp with hended | hanswers
      · rcases hended.passage hpass with hended' | ⟨_,hpause,rfl,rfl⟩
        · exact .inl hended'
        · refine .inr ⟨hpass.command.trans hpause,nofun,nofun,fun _ => .inl ?_⟩
          rw [Control.acknowledgePause, if_pos hpause]
          rfl
      · exact .inr (hanswers.passage hpass)) (.inl hended)
  · exact Demand.answered_of_terminal _ hended'.1
  · exact hanswers.news (hlistening'.latched hreturning)

theorem answered_of_not_late (hput : Puts d x y) (hx : x.workerState.Sound)
    (hy : y.workerState.Sound) (hlate : ¬ Late lib d y) (hduring : During lib y z)
    (hreturning : z.Returning d) : d.Answered z.status := by
  by_cases hd : d = .resume
  · subst hd
    exact .inl rfl
  · have hlistening := hput.told.2 hd
    by_cases hterm : y.status.isTerminal = true
    · have hended : y.control.Ended y.workerState.point := hy.ended hterm
      cases d with
      | resume => exact absurd rfl hd
      | pause => exact hduring.pause_answered hy hlistening hended hreturning
      | cancel =>
        rcases hduring.ended_or_acknowledges hy hlistening hended with hended' | ⟨hpause,hack⟩
        · exact Demand.answered_of_terminal _ hended'.1
        · exact absurd (.inr ⟨rfl,hterm,hpause,hack⟩) hlate
    · have hpast : y.workerState.point ≠ some .resume := fun hat => hlate (.inl ⟨hd,hterm,hat⟩)
      obtain ⟨_,hlistening',hanswers⟩ := hduring.kept hy hlistening (fun hpass ha => ha.passage hpass)
        (hput.answers hx hd hterm hpast)
      exact hanswers.news (hlistening'.latched hreturning)

/-- The worker says that it runs again, and the call takes that for the answer. -/
theorem Listening.unanswered_of_resume (lib : Library U N) (hlistening : Listening d x)
    (hx : x.workerState.Sound) (hat : x.workerState.point = some .resume) :
    ∃ y, During lib x y ∧ y.Returning d ∧ y.status = .running := by
  obtain ⟨v,hworks,_,hcontrol⟩ := WorkerState.works_finish lib hx hat rfl
  have hgoes : InnerStep lib x ⟨v,x.call⟩ := .worker hworks
  obtain ⟨_,hlistening'⟩ := hgoes.listening hx hlistening
  have hlatched : v.control.statusChanged.latched = true := by
    rw [hcontrol]
    rfl
  obtain ⟨y,hduring,hreturning,hstatus⟩ := hlistening'.returns lib hlatched
  exact ⟨y,.head hgoes hduring,hreturning,hstatus.trans (congrArg Control.status hcontrol)⟩

/-- The worker acknowledges a pending pause, and the call finds it paused. -/
theorem Listening.unanswered_of_acknowledge (lib : Library U N) (hlistening : Listening d x)
    (hx : x.workerState.Sound) (hat : x.workerState.point = some .acknowledge)
    (hpause : x.control.command = .pause) :
    ∃ y, During lib x y ∧ y.Returning d ∧ y.status = .paused := by
  obtain ⟨v,hworks,_,hcontrol⟩ := WorkerState.works_goto lib hx hat rfl
  have hgoes : InnerStep lib x ⟨v,x.call⟩ := .worker hworks
  obtain ⟨_,hlistening'⟩ := hgoes.listening hx hlistening
  have hpaused : x.workerState.control.acknowledgePause = _ := if_pos hpause
  have hlatched : v.control.statusChanged.latched = true := by
    rw [hcontrol, hpaused]
    rfl
  obtain ⟨y,hduring,hreturning,hstatus⟩ := hlistening'.returns lib hlatched
  refine ⟨y,.head hgoes hduring,hreturning,hstatus.trans ?_⟩
  rw [status, WorkerState.status, hcontrol, hpaused]

/-- Exactly when a call is answered by the reaction to its own command, from the moment that it has
put it. -/
theorem answered_iff (hx : Reachable lib x) (hput : Puts d x y) :
    (∀ z, During lib y z → z.Returning d → d.Answered z.status) ↔ ¬ Late lib d y := by
  have hxsound := hx.workerState.sound
  have hsound : y.workerState.Sound := by
    rw [hput.told.1]
    exact hxsound.put d.command
  constructor
  · rintro hall (⟨hd,_,hat⟩ | ⟨rfl,_,hpause,u,hduring,hat⟩)
    · obtain ⟨z,hduring,hreturning,hstatus⟩ := (hput.told.2 hd).unanswered_of_resume lib hsound hat
      have hanswered := hall z hduring hreturning
      rw [hstatus] at hanswered
      exact Demand.not_answered_running hd hanswered
    · obtain ⟨husound,hlistening,hcommand⟩ := During.command_eq hduring hsound (hput.told.2 nofun)
      obtain ⟨z,hduring',hreturning,hstatus⟩ :=
        hlistening.unanswered_of_acknowledge lib husound hat (hcommand.trans hpause)
      have hanswered := hall z (hduring.trans hduring') hreturning
      rw [hstatus] at hanswered
      revert hanswered
      decide
  · exact fun hlate z hduring hreturning => answered_of_not_late hput hxsound hsound hlate
      hduring hreturning

inductive Actor where
  | worker
  | enter (d : Demand)
  | order
  | back

def follow (lib : Library U N) (x : ControlledWorker U N) : Actor → ControlledWorker U N
  | .worker =>
    match x.workerState.worker.step lib x.workerState.world with
    | .ran worker w => { x with workerState := ⟨w,worker⟩ }
    | .blocked _ => x
  | .enter d =>
    match x.call with
    | none => { x with call := some (d,d.errand x.workerState.worker.handle) }
    | some _ => x
  | .order =>
    match x.call with
    | some (d,e) =>
      match e.step x.workerState.world with
      | .ran e w => ⟨⟨w,x.workerState.worker⟩,some (d,e)⟩
      | .blocked _ => x
    | none => x
  | .back =>
    match x.call with
    | some (_,e) => if e.isDone then { x with call := none } else x
    | none => x

theorem steps_follow (x : ControlledWorker U N) (actor : Actor) : Steps lib x (follow lib x actor) := by
  obtain ⟨x,call⟩ := x
  cases actor with
  | worker =>
    simp only [follow]
    split
    · rename_i hstep
      exact .single (.innerStep (.worker hstep))
    · exact .refl
  | enter d =>
    cases call with
    | none => exact .single (.enter x d)
    | some call => exact .refl
  | order =>
    cases call with
    | none => exact .refl
    | some call =>
      simp only [follow]
      split
      · rename_i hstep
        exact .single (.innerStep (.order hstep))
      · exact .refl
  | back =>
    cases call with
    | none => exact .refl
    | some call =>
      simp only [follow]
      split
      · rename_i hdone
        exact .single (.back x call.1 hdone)
      · exact .refl

/-- The controller pauses the worker, resumes it, and begins to cancel it when the worker has read the
resumption and not written its status yet. -/
def crossed : ControlledWorker Unit Unit :=
  ([.worker,.worker,.worker,.worker,.worker,.enter .pause,.order,.worker,.worker,.worker,.order,.back,
    .enter .resume,.order,.back,.worker,.worker,.enter .cancel] : List Actor).foldl
      (follow WorkerState.tickingTwice)
    ⟨WorkerState.fresh,none⟩

theorem crossed_reachable : Reachable WorkerState.tickingTwice crossed :=
  ⟨WorkerState.fresh,WorkerState.launched_fresh,steps_foldl steps_follow _ _⟩

theorem answered_iff_crossed :
    (Reachable WorkerState.tickingTwice crossed ∧ Puts .cancel crossed
      (follow WorkerState.tickingTwice crossed .order)) ∧
      ((∀ z, During WorkerState.tickingTwice (follow WorkerState.tickingTwice crossed .order) z →
        z.Returning .cancel →
          Demand.cancel.Answered z.status) ↔
        ¬ Late WorkerState.tickingTwice .cancel
          (follow WorkerState.tickingTwice crossed .order)) := by
  have hput : Puts .cancel crossed (follow WorkerState.tickingTwice crossed .order) := ⟨_,_,rfl,rfl,rfl⟩
  exact ⟨⟨crossed_reachable,hput⟩,answered_iff crossed_reachable hput⟩

/-- A cancellation returns and finds the worker running. -/
theorem not_always_answered :
    ¬ ∀ (d : Demand) (x : ControlledWorker Unit Unit), Reachable WorkerState.tickingTwice x →
    x.Returning d → d.Answered x.status := by
  intro hall
  let last := ([.order,.worker,.order,.order] : List Actor).foldl
    (follow WorkerState.tickingTwice) crossed
  have hreach : Reachable WorkerState.tickingTwice last := by
    obtain ⟨z,hz,hsteps⟩ := crossed_reachable
    exact ⟨z,hz,hsteps.trans (steps_foldl steps_follow _ _)⟩
  have hrunning : last.status = .running := by decide
  have hanswered := hall .cancel last hreach ⟨_,rfl,rfl⟩
  rw [hrunning] at hanswered
  revert hanswered
  decide

end ControlledWorker

end Workers
