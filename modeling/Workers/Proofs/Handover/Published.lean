import Workers.Proofs.Control.Finality
import Workers.Proofs.Handover.Observed
/-! # Results are published whole

A worker publishes its results before it announces its end, and writes neither ever again.  So a
controller that sees the end in the status finds all of the results, however its locks fall among
those of the worker and of other controllers: the values that the routine returned, in their order,
or the description of the failure.  Until the handle goes, each copy that it takes names a live entry.
-/
namespace Workers

variable {U N : Type}

namespace ObservedHandover

variable {lib : Library U N} {p : PoolId} {r : RegistryId} {routine : Routine} {arguments : List Stored}
variable {x y : ObservedHandover U N} {h : WorkerId} {a : WorkerHistory}
    {shown results : List Stored} {filed : List Filing}

def Undecided (s : Status) : Prop := s ≠ .completed ∧ s ≠ .failed

def MatchReturned (r : RegistryId) (a : WorkerHistory) (results : List Stored) : Prop :=
  ∃ heap values cells entry, a.returned = some (heap,values) ∧
  Conveyed heap values r a.filed results cells entry

/-- The results as they stay, with the status that goes with them. -/
inductive Final (r : RegistryId) (a : WorkerHistory) : List Stored → Status → Prop
  | completed {results : List Stored} (hending : a.ending = some (.completed results))
      (htallies : MatchReturned r a results) : Final r a results .completed
  | failed {description : String} (hending : a.ending = some (.failed description)) :
    Final r a (failureResult description) .failed

def Fit (r : RegistryId) (a : WorkerHistory) : Stage (Frame U N) → List Stored → List Filing → Prop
  | .starting .., _, filed | .running .., _, filed | .collecting .., _, filed => filed = []
  | .destroying _ e, _, filed | .judging e, _, filed =>
    ∀ results, e = .completed results → MatchReturned r { a with filed } results
  | .publishing results status, _, filed => Final r { a with filed } results status
  | .announcing status, shown, filed => status = .canceled ∨ Final r { a with filed } shown status
  | .leaving, _, _ | .gone, _, _ => True

structure Informed (r : RegistryId) (x : ObservedHandover U N) (h : WorkerId)
    (code : Code (Stage (Frame U N))) : Prop where
  registry : (x.hand.world.handle h).registry = r
  yields : code.Yields h (x.hand.world.handle h).result x.history.filed (Fit r x.history)
  status : Undecided (x.hand.world.status h) ∨
    code = .done .leaving ∧ Final r x.history (x.hand.world.handle h).result (x.hand.world.status h)

def Knows (r : RegistryId) (x : ObservedHandover U N) : Prop :=
  match x.hand.leg with
  | .called | .numbered _ => x.history.filed = []
  | .adopting h _ =>
    (x.hand.world.handle h).registry = r ∧ Undecided (x.hand.world.status h) ∧ x.history.filed = []
  | .working h code => Informed r x h code
  | .ended => True

theorem undecided_canceled : Undecided .canceled := ⟨nofun,nofun⟩

theorem ControlChange.undecided {leg : Leg U N} {control control' : Control}
    (hh : ControlChange leg h control control') (hopen : Undecided control.status) :
    Undecided control'.status := by
  cases hh with
  | same => exact hopen
  | put command =>
    unfold Control.putCommand
    split <;> exact hopen
  | goto _ hmove =>
    rcases Check.control_goto hmove with ⟨_,rfl⟩ | ⟨_,rfl⟩
    · exact hopen
    · unfold Control.acknowledgePause
      split
      · exact ⟨nofun,nofun⟩
      · exact hopen
  | finish _ hmove =>
    rcases Check.control_finish hmove with ⟨_,rfl⟩ | ⟨_,rfl⟩ | ⟨_,rfl⟩
    · exact hopen
    · exact ⟨nofun,nofun⟩
    · exact undecided_canceled

/-- A worker that is leaving runs no checks any more. -/
theorem ControlChange.status_eq {leg : Leg U N} {control control' : Control}
    (hh : ControlChange leg h control control') (hleg : leg = .working h (.done .leaving)) :
    control'.status = control.status := by
  cases hh with
  | same => rfl
  | put command =>
    unfold Control.putCommand
    split <;> rfl
  | goto hrunning | finish hrunning =>
    rw [hleg] at hrunning
    cases hrunning

theorem handle_otherStep {ours : Set Share} {w w' : World} (hw : w.OtherStep ours (some h) w') :
    (w'.handle h).registry = (w.handle h).registry ∧ (w'.handle h).result = (w.handle h).result := by
  cases hw with
  | number | registry | request => exact ⟨rfl,rfl⟩
  | secure _ hw =>
    exact ⟨World.secure_keeps WorkerHandle.registry hw (fun _ _ => rfl) h,
      World.secure_keeps WorkerHandle.result hw (fun _ _ => rfl) h⟩
  | elsewhere _ hminding => exact ⟨(hminding h rfl).registry_eq,(hminding h rfl).result_eq⟩

theorem Knows.other (hx : Knows r x) {w : World}
    (hw : x.hand.world.OtherStep x.hand.ours x.hand.leg.handle? w)
    (hcontrol : ∀ h, x.hand.leg.handle? = some h →
      ControlChange x.hand.leg h (x.hand.world.handle h).control (w.handle h).control) :
    Knows r { x with hand := { x.hand with world := w } } := by
  obtain ⟨⟨u,leg,ours,objects⟩,inquiries,record⟩ := x
  cases leg with
  | called | numbered n | ended => exact hx
  | adopting h code =>
    obtain ⟨hregistry,hopen,hfiled⟩ := hx
    exact ⟨(handle_otherStep hw).1.trans hregistry,(hcontrol h rfl).undecided hopen,hfiled⟩
  | working h code =>
    obtain ⟨hregistry,hyields,hstatus⟩ := hx
    obtain ⟨hr,hresult⟩ := handle_otherStep hw
    refine ⟨hr.trans hregistry,?_,?_⟩
    · rw [hresult]
      exact hyields
    · rcases hstatus with hopen | ⟨rfl,hfinal⟩
      · exact .inl ((hcontrol h rfl).undecided hopen)
      · have hsame : w.status h = u.status h := (hcontrol h rfl).status_eq rfl
        refine .inr ⟨rfl,?_⟩
        rw [hresult, hsame]
        exact hfinal

/-- The code that adopts arguments leaves the control and the registry of the handle alone. -/
theorem Knows.adopt {code : Code (Except Code.Refused (List Stored))} (hx : Knows r x)
    (hleg : x.hand.leg = .adopting h code) {ours : Set Share} {objects : List Stored} :
    Knows r (⟨⟨(code.step x.hand.world).2,.adopting h (code.step x.hand.world).1,ours,objects⟩,
      x.inquiries,
      x.history⟩ : ObservedHandover U N) := by
  unfold Knows at hx
  rw [hleg] at hx
  obtain ⟨hregistry,hopen,hfiled⟩ := hx
  have hcontrol := code.step_keeps WorkerHandle.control (fun _ _ _ _ => rfl) x.hand.world h
  have hr := code.step_keeps WorkerHandle.registry (fun _ _ _ _ => rfl) x.hand.world h
  have hsame : (code.step x.hand.world).2.status h = x.hand.world.status h :=
    congrArg Control.status hcontrol
  exact ⟨hr.trans hregistry,hsame ▸ hopen,hfiled⟩

theorem Informed.work {code : Code (Stage (Frame U N))} (hx : Informed r x h code)
    (hh : h < x.hand.world.handles.size) {leg : Leg U N} {ours : Set Share}
    {objects : List Stored} (inquiries : List Inquiry) :
    Informed r ⟨⟨(code.step x.hand.world).2,leg,ours,objects⟩,inquiries,
      { x.history with filed := code.files x.hand.world ++ x.history.filed }⟩ h
        (code.step x.hand.world).1 := by
  have hcontrol : ((code.step x.hand.world).2.handle h).control = (x.hand.world.handle h).control :=
    code.step_keeps WorkerHandle.control (fun _ _ _ _ => rfl) x.hand.world h
  have hregistry : ((code.step x.hand.world).2.handle h).registry = (x.hand.world.handle h).registry :=
    code.step_keeps WorkerHandle.registry (fun _ _ _ _ => rfl) x.hand.world h
  have hsame : (code.step x.hand.world).2.status h = x.hand.world.status h :=
    congrArg Control.status hcontrol
  refine ⟨hregistry.trans hx.registry,hx.yields.step hh,?_⟩
  rcases hx.status with hopen | ⟨rfl,hfinal⟩
  · exact .inl (hsame ▸ hopen)
  · exact .inr ⟨rfl,hfinal⟩

/-- The code of a stage comes to the next one, with the history as it is then. -/
theorem yields_ofStage {w : World} {stage : Stage (Frame U N)} (hfit : Fit r a stage shown filed)
    (hhome : ∀ c values, stage = .collecting c values → (w.context c).registry = r) :
    (Code.ofStage w h stage).Yields h shown filed (Fit r (match stage with
      | .collecting _ values => { a with returned := some (w.memory.heap,values) }
      | _ => a)) := by
  cases stage with
  | starting routine arguments =>
    obtain rfl : filed = [] := hfit
    intro c
    cases c with
    | none => trivial
    | some c =>
      refine Code.yields_bind ((Code.yields_loadAll c arguments).imp fun outcome _ filed hfiled => ?_)
      cases outcome with
      | ok values => exact hfiled
      | error fault => exact nofun
  | running c s | judging e | announcing status | leaving | gone => exact hfit
  | collecting c values =>
    obtain rfl : filed = [] := hfit
    have hempty : Code.Filled w.memory.heap values r [] [] [] :=
      ⟨rfl,rfl,nofun,.nil,nofun,nofun⟩
    refine Code.yields_bind ((Code.yields_collect h (c := { registry := (w.context c).registry })
      (hhome c values rfl)
      values (fun v hv => .root hv) hempty .nil).imp fun outcome _ filed hresults => ?_)
    cases outcome with
    | error fault => exact nofun
    | ok results =>
      rintro _ ⟨⟩
      obtain ⟨made,kept,hfilled,hroots⟩ := hresults results rfl
      exact ⟨_,_,_,_,rfl,hfilled.conveyed hroots⟩
  | destroying c e => exact hfit
  | publishing results status => exact ⟨rfl,.inr hfit⟩

theorem fit_afterExit {c : ContextId} (e : Exit (Frame U N)) :
    Fit r a (Worker.afterExit c e) shown [] := by
  unfold Worker.afterExit
  split
  · rfl
  all_goals exact nofun

/-- A judgement writes nothing, and what it says is recorded. -/
theorem fit_judging {w w' : World} {e : Ending} {worker : Worker (Frame U N)}
    (hfit : Fit (U := U) (N := N) r a (.judging e) shown filed)
    (hstep : Worker.step lib w ⟨h,.judging e⟩ = .ran worker w') :
    w' = w ∧ Fit r { a with ending := some e } worker.stage shown filed := by
  cases e with
  | completed results =>
    cases hstep
    exact ⟨rfl,.completed rfl (hfit results rfl)⟩
  | stopped =>
    cases hstep
    refine ⟨rfl,?_⟩
    simp only
    split
    · trivial
    · exact .inl rfl
  | failed description =>
    cases hstep
    refine ⟨rfl,?_⟩
    simp only
    split
    · trivial
    · exact .failed rfl

theorem Informed.undecided {code : Code (Stage (Frame U N))} (hx : Informed r x h code)
    (hcode : code ≠ .done .leaving) :
    Undecided (x.hand.world.status h) :=
  hx.status.resolve_right fun hleaving => hcode hleaving.1

theorem knows_raise {w : World} {n : Nat} (hfiled : a.filed = []) {ours : Set Share}
    {objects : List Stored} {inquiries : List Inquiry} :
    Knows (U := U) (N := N) r ⟨⟨(w.raise p r n).2,
      .adopting (w.raise p r n).1
        (Code.adoptAll (w.raise p r n).1 1 arguments),ours,objects⟩,inquiries,a⟩ := by
  have hhandle := World.handle_raise w p r n
  have hstatus : (w.raise p r n).2.status w.handles.size = .running :=
    congrArg (fun handle : WorkerHandle => handle.control.status) hhandle
  exact ⟨congrArg WorkerHandle.registry hhandle,hstatus ▸ ⟨by decide,by decide⟩,hfiled⟩

/-- A stage begins whose code is something else than the stage itself. -/
theorem Informed.begin {stage : Stage (Frame U N)} (hx : Informed r x h (.done stage))
    (hsound : Handover.Sound r arguments x.hand) (hleg : x.hand.leg = .working h (.done stage))
    (hcode : Code.ofStage x.hand.world h stage ≠ .done stage) :
    Informed r
      { x with
        hand := { x.hand with leg := .working h (Code.ofStage x.hand.world h stage) }
        history := x.recorded }
      h (Code.ofStage x.hand.world h stage) := by
  obtain ⟨⟨w,leg,ours,objects⟩,inquiries,record⟩ := x
  cases hleg
  have hhome : ∀ c values, stage = .collecting c values → (w.context c).registry = r := by
    rintro c values rfl
    obtain ⟨spot,g,hg,_,hcarries⟩ := hsound
    obtain rfl : c = spot.context := hcarries
    obtain rfl := hg.handle
    exact hg.fits.inWorld.home.trans (hg.fits.inWorld.registry_eq.symm.trans hx.registry)
  have hnext := yields_ofStage (h := h) hx.yields hhome
  have hopen : Undecided (w.status h) := hx.undecided fun hleaving => by
    cases hleaving
    exact hcode rfl
  cases stage with
  | running | judging | announcing | leaving | gone => exact absurd rfl hcode
  | starting | collecting | destroying | publishing => exact ⟨hx.registry,hnext,.inl hopen⟩

/-- The end is announced with the results that go with it. -/
theorem Informed.announce {status : Status} (hx : Informed r x h (.done (.announcing status)))
    (hh : h < x.hand.world.handles.size) :
    Informed (U := U) (N := N) r
      { x with
        hand := { x.hand with
          world := x.hand.world.changeStatus h status
          leg := .working h (.done .leaving) } }
      h (.done .leaving) := by
  obtain ⟨hregistry,hfit,_⟩ := hx
  have hself : (x.hand.world.changeStatus h status).handle h =
      { x.hand.world.handle h with control := (x.hand.world.handle h).control.changeStatus status } :=
    World.handle_setHandle_self hh _
  have hnow : (x.hand.world.changeStatus h status).status h = status := by
    rw [World.status, hself]
    rfl
  have hresult : ((x.hand.world.changeStatus h status).handle h).result =
      (x.hand.world.handle h).result := by
    rw [hself]
  refine ⟨(congrArg WorkerHandle.registry hself).trans hregistry,trivial,?_⟩
  rcases hfit with rfl | hfinal
  · refine .inl ?_
    change Undecided ((x.hand.world.changeStatus h .canceled).status h)
    rw [hnow]
    exact undecided_canceled
  · refine .inr ⟨rfl,?_⟩
    rw [hnow, hresult]
    exact hfinal

/-- Going on from where nothing is under way, to another place. -/
theorem Knows.pass (hx : Knows r x) (hsound : Handover.Sound r arguments x.hand)
    {k : Handover U N} (hstep : Handover.Step lib p r routine arguments x.hand k)
    (hidle : x.hand.leg.Idle) (hleg : k.leg ≠ x.hand.leg) :
    Knows r { x with hand := k, history := x.recorded } := by
  obtain ⟨⟨w,leg,ours,objects⟩,inquiries,record⟩ := x
  cases hstep with
  | other hw => exact absurd rfl hleg
  | refuse | drop => trivial
  | number hcalled =>
    cases hcalled
    exact hx
  | raise hnumbered =>
    cases hnumbered
    exact knows_raise hx
  | adopt hadopting =>
    cases hadopting
    obtain ⟨outcome,rfl⟩ := hidle
    exact absurd rfl hleg
  | launch hadopted =>
    cases hadopted
    obtain ⟨hregistry,hopen,hfiled⟩ := hx
    exact ⟨hregistry,hfiled,.inl hopen⟩
  | begin hworking =>
    cases hworking
    exact Informed.begin hx hsound rfl fun hcode => hleg (congrArg (Leg.working _) hcode)
  | work hworking =>
    cases hworking
    obtain ⟨stage,rfl⟩ := hidle
    exact absurd rfl hleg
  | exit hrunning e =>
    cases hrunning
    have hfiled : record.filed = [] := hx.yields
    refine ⟨hx.registry,?_,.inl (hx.undecided nofun)⟩
    change Fit r record _ _ record.filed
    rw [hfiled]
    exact fit_afterExit e
  | judge hjudging hjudge =>
    cases hjudging
    obtain ⟨rfl,hfit⟩ := fit_judging hx.yields hjudge
    exact ⟨hx.registry,hfit,.inl (hx.undecided nofun)⟩
  | announce hannouncing =>
    cases hannouncing
    obtain ⟨spot,g,hg,_⟩ := hsound
    obtain rfl := hg.handle
    exact Informed.announce hx hg.fits.inWorld.handle_lt

/-- The results that answer a question, which the handle shows with their status as long as there is
one. -/
structure Tells (r : RegistryId) (x : ObservedHandover U N) (topic : Topic)
    (results : List Stored) : Prop where
  final : Final r x.history results topic.moment
  shown : x.hand.leg = .ended ∨
    ∃ h, x.hand.leg = .working h (.done .leaving) ∧ (x.hand.world.handle h).result = results ∧
      x.hand.world.status h = topic.moment

def Names (results : List Stored) (r : RegistryId) (id : EntryId) : Prop :=
  ∃ f ∈ results.flatMap Stored.handles, f.registry = r ∧ f.entry = id

def Answers (r : RegistryId) (x : ObservedHandover U N) : Inquiry → Prop
  | .waiting .. | .looking _ => True
  | .taking topic => x.hand.leg ≠ .ended ∧ ∃ results, Tells r x topic results
  | .copying topic code => x.hand.leg ≠ .ended ∧
    ∃ results, Tells r x topic results ∧ code.Clones (Names results)
      (List.Forall₂ Stored.CopiedAs results)
  | .told topic answer => (topic = .status ∧ ∃ s : Status, s ≠ .failed ∧ answer = [.string s.name]) ∨
    (topic = .results ∧ answer = []) ∨ ∃ results, Tells r x topic results ∧
    List.Forall₂ Stored.CopiedAs results answer

theorem Answers.mono {q : Inquiry} (hq : Answers r x q)
    (htells : ∀ topic results, Tells r x topic results → Tells r y topic results)
    (hkeeps : x.hand.leg ≠ .ended → ¬ q.IsTold → y.hand.leg ≠ .ended) : Answers r y q := by
  cases q with
  | waiting | looking => trivial
  | taking topic =>
    obtain ⟨hleg,results,ht⟩ := hq
    exact ⟨hkeeps hleg fun hnot => hnot,results,htells _ _ ht⟩
  | copying topic code =>
    obtain ⟨hleg,results,ht,hclones⟩ := hq
    exact ⟨hkeeps hleg fun hnot => hnot,results,htells _ _ ht,hclones⟩
  | told topic answer =>
    rcases hq with hstatus | hempty | ⟨results,ht,hanew⟩
    · exact .inl hstatus
    · exact .inr (.inl hempty)
    · exact .inr (.inr ⟨results,htells _ _ ht,hanew⟩)

theorem Tells.other {topic : Topic} (ht : Tells r x topic results) {w : World}
    (hw : x.hand.world.OtherStep x.hand.ours x.hand.leg.handle? w)
    (hcontrol : ∀ h, x.hand.leg.handle? = some h →
      ControlChange x.hand.leg h (x.hand.world.handle h).control (w.handle h).control) :
    Tells r { x with hand := { x.hand with world := w } } topic results := by
  refine ⟨ht.final,ht.shown.imp_right fun ⟨h,hleg,hresult,hstatus⟩ => ?_⟩
  rw [hleg] at hw hcontrol
  exact ⟨h,hleg,(handle_otherStep hw).2.trans hresult,((hcontrol h rfl).status_eq rfl).trans hstatus⟩

/-- A worker that is leaving has nothing to do but to drop the handle. -/
theorem Tells.pass {topic : Topic} (ht : Tells r x topic results) {k : Handover U N}
    (hstep : Handover.Step lib p r routine arguments x.hand k) (hleg : k.leg ≠ x.hand.leg) :
    Tells r { x with hand := k, history := x.recorded } topic results := by
  obtain ⟨⟨w,leg,ours,objects⟩,inquiries,record⟩ := x
  obtain ⟨hfinal,rfl | ⟨h,rfl,_⟩⟩ := ht
  · cases hstep with
    | other => exact absurd rfl hleg
    | refuse hcalled =>
      rcases hcalled with hcalled | ⟨_,_,hcalled⟩ <;> cases hcalled
    | number hat | raise hat | adopt hat | launch hat | begin hat | work hat | exit hat | judge hat
    | announce hat | drop hat => cases hat
  · cases hstep with
    | other => exact absurd rfl hleg
    | begin hat | work hat =>
      cases hat
      exact absurd rfl hleg
    | refuse hcalled =>
      rcases hcalled with hcalled | ⟨_,_,hcalled⟩ <;> cases hcalled
    | drop => exact ⟨hfinal,.inl rfl⟩
    | number hat | raise hat | adopt hat | launch hat | exit hat | judge hat | announce hat => cases hat

theorem Informed.tells {code : Code (Stage (Frame U N))} (hx : Informed r x h code)
    (hleg : x.hand.leg = .working h code) {topic : Topic}
    (hstatus : x.hand.world.status h = topic.moment) :
    Tells r x topic (x.hand.world.handle h).result := by
  rcases hx.status with ⟨hcompleted,hfailed⟩ | ⟨rfl,hfinal⟩
  · cases topic with
    | status => exact absurd hstatus hfailed
    | results => exact absurd hstatus hcompleted
  · rw [hstatus] at hfinal
    exact ⟨hfinal,.inr ⟨h,hleg,rfl,hstatus⟩⟩

theorem Tells.result_eq {topic : Topic} (ht : Tells r x topic results) {code : Code (Stage (Frame U N))}
    (hleg : x.hand.leg = .working h code) : (x.hand.world.handle h).result = results := by
  rcases ht.shown with hended | ⟨i,hi,hresult,_⟩
  · rw [hleg] at hended
    cases hended
  · rw [hleg] at hi
    cases hi
    exact hresult

/-- Taking the next lock of a question changes the store at most, as others may. -/
theorem Answers.step {q q' : Inquiry} {w : World} (hq : Answers r x q)
    (hsound : Handover.Sound r arguments x.hand) {code : Code (Stage (Frame U N))}
    (hx : Informed r x h code) (hleg : x.hand.leg = .working h code)
    (hstep : q.step h x.hand.world = some (q',w)) :
    Answers r x q' ∧ x.hand.world.OtherStep x.hand.ours (some h) w ∧
    ∃ s, w = x.hand.world.setStore s := by
  have hstays : x.hand.world.OtherStep x.hand.ours (some h) x.hand.world :=
    .elsewhere rfl fun i _ => .of_eq rfl rfl
  have hsame : ∃ s, x.hand.world = x.hand.world.setStore s := ⟨x.hand.world.store,rfl⟩
  have hopen : x.hand.leg ≠ .ended := by
    rw [hleg]
    nofun
  cases q with
  | waiting topic deadline =>
    simp only [Inquiry.step] at hstep
    split at hstep
    · cases hstep
      exact ⟨trivial,hstays,hsame⟩
    · split at hstep
      · cases hstep
        cases topic with
        | status => exact ⟨trivial,hstays,hsame⟩
        | results => exact ⟨.inr (.inl ⟨rfl,rfl⟩),hstays,hsame⟩
      · cases hstep
  | looking topic =>
    cases topic with
    | status =>
      simp only [Inquiry.step] at hstep
      split at hstep
      · rename_i hfailed
        cases hstep
        exact ⟨⟨hopen,_,hx.tells hleg hfailed⟩,hstays,hsame⟩
      · rename_i hnot
        cases hstep
        exact ⟨.inl ⟨rfl,_,hnot,rfl⟩,hstays,hsame⟩
    | results =>
      simp only [Inquiry.step] at hstep
      split at hstep
      · rename_i hcompleted
        cases hstep
        exact ⟨⟨hopen,_,hx.tells hleg hcompleted⟩,hstays,hsame⟩
      · cases hstep
        exact ⟨.inr (.inl ⟨rfl,rfl⟩),hstays,hsame⟩
  | taking topic =>
    cases hstep
    obtain ⟨_,results,ht⟩ := hq
    rw [ht.result_eq hleg]
    exact ⟨⟨hopen,results,ht,Code.clones_copyAll fun f hf => ⟨f,hf,rfl,rfl⟩⟩,hstays,hsame⟩
  | copying topic code =>
    obtain ⟨_,results,ht,hclones⟩ := hq
    by_cases hdone : ∃ answer, code = .done answer
    · obtain ⟨answer,rfl⟩ := hdone
      cases hstep
      exact ⟨.inr (.inr ⟨results,ht,hclones⟩),hstays,hsame⟩
    · rw [Inquiry.step_copying topic fun answer heq => hdone ⟨answer,heq⟩] at hstep
      cases hstep
      have halive : ∀ q id, Names results q id → x.hand.world.store.isAlive q id = true := by
        rintro q id ⟨f,hf,rfl,rfl⟩
        rw [← ht.result_eq hleg] at hf
        exact hsound.alive_published (by rw [hleg]; rfl) hf
      obtain ⟨hnext,hmeddles,hstore⟩ := hclones.step halive x.hand.ours (some h)
      exact ⟨⟨hopen,results,ht,hnext⟩,hmeddles,hstore⟩
  | told => cases hstep

structure Invariant (r : RegistryId) (arguments : List Stored) (x : ObservedHandover U N) : Prop where
  sound : Handover.Sound r arguments x.hand
  knows : Knows r x
  answers : ∀ q ∈ x.inquiries, Answers r x q

theorem Knows.informed (hx : Knows r x) {code : Code (Stage (Frame U N))}
    (hleg : x.hand.leg = .working h code) :
    Informed r x h code := by
  unfold Knows at hx
  rw [hleg] at hx
  exact hx

theorem Informed.knows {code : Code (Stage (Frame U N))} (hx : Informed r x h code)
    (hleg : x.hand.leg = .working h code) : Knows r x := by
  unfold Knows
  rw [hleg]
  exact hx

theorem Invariant.lt_size (hx : Invariant r arguments x) {code : Code (Stage (Frame U N))}
    (hleg : x.hand.leg = .working h code) : h < x.hand.world.handles.size := by
  have hsound := hx.sound
  unfold Handover.Sound at hsound
  rw [hleg] at hsound
  obtain ⟨spot,g,hg,_⟩ := hsound
  exact hg.handle ▸ hg.fits.inWorld.handle_lt

theorem Tells.not_adopting {topic : Topic} (ht : Tells r x topic results)
    {code : Code (Except Code.Refused (List Stored))} (hleg : x.hand.leg = .adopting h code) :
    False := by
  rcases ht.shown with hended | ⟨i,hi,_⟩
  · rw [hleg] at hended
    cases hended
  · rw [hleg] at hi
    cases hi

theorem Tells.work {topic : Topic} (ht : Tells r x topic results) {code : Code (Stage (Frame U N))}
    (hleg : x.hand.leg = .working h code) {ours : Set Share} {objects : List Stored} :
    Tells r ⟨⟨(code.step x.hand.world).2,.working h (code.step x.hand.world).1,ours,objects⟩,x.inquiries,
      { x.history with filed := code.files x.hand.world ++ x.history.filed }⟩ topic results := by
  rcases ht.shown with hended | ⟨i,hi,hresult⟩
  · rw [hleg] at hended
    cases hended
  · rw [hleg] at hi
    cases hi
    exact ⟨ht.final,.inr ⟨h,rfl,hresult⟩⟩

theorem Step.invariant (hstep : Step lib p r routine arguments x y) (hx : Invariant r arguments x) :
    Invariant r arguments y := by
  cases hstep with
  | other hw hcontrol =>
    exact ⟨hx.sound.other hw,hx.knows.other hw hcontrol,fun q hq =>
      (hx.answers q hq).mono (fun _ _ ht => ht.other hw hcontrol) fun hleg _ => hleg⟩
  | adopt hleg =>
    have hadopt : Handover.Step lib p r routine arguments x.hand _ := .adopt hleg
    exact ⟨hadopt.sound hx.sound,hx.knows.adopt hleg,fun q hq =>
      (hx.answers q hq).mono (fun _ _ ht => (ht.not_adopting hleg).elim) fun _ _ => nofun⟩
  | work hleg =>
    have hwork : Handover.Step lib p r routine arguments x.hand _ := .work hleg
    exact ⟨hwork.sound hx.sound,(hx.knows.informed hleg).work (hx.lt_size hleg) x.inquiries,fun q hq =>
      (hx.answers q hq).mono (fun _ _ ht => ht.work hleg) fun _ _ => nofun⟩
  | pass hstep hidle hleg htold =>
    exact ⟨hstep.sound hx.sound,hx.knows.pass hx.sound hstep hidle hleg,fun q hq =>
      (hx.answers q hq).mono (fun _ _ ht => ht.pass hstep hleg) fun _ hnot hended =>
        hnot (htold hended q hq)⟩
  | ask hleg hfresh =>
    obtain ⟨hregistry,hyields,hstatus⟩ := hx.knows.informed hleg
    refine ⟨hx.sound,Informed.knows ⟨hregistry,hyields,hstatus⟩ hleg,
      List.forall_mem_cons.mpr ⟨?_,fun q hq => ?_⟩⟩
    · cases hfresh <;> trivial
    · exact (hx.answers q hq).mono (fun _ _ ht => ⟨ht.final,ht.shown⟩) fun hopen _ => hopen
  | answer hleg hq hstep =>
    have hasked := hx.answers _ (hq ▸ List.mem_append_right _ List.mem_cons_self)
    obtain ⟨hregistry,hyields,hstatus⟩ := hx.knows.informed hleg
    obtain ⟨hnext,hmeddles,s,rfl⟩ := hasked.step hx.sound ⟨hregistry,hyields,hstatus⟩ hleg hstep
    have hother : x.hand.world.OtherStep x.hand.ours x.hand.leg.handle? (x.hand.world.setStore s) := by
      rw [hleg]
      exact hmeddles
    refine ⟨hx.sound.other hother,Informed.knows ⟨hregistry,hyields,hstatus⟩ hleg,fun q hmem => ?_⟩
    have hat : Answers r x q := by
      rcases List.mem_append.mp hmem with hmem | hmem
      · exact hx.answers q (hq ▸ List.mem_append_left _ hmem)
      · rcases List.mem_cons.mp hmem with rfl | hmem
        · exact hnext
        · exact hx.answers q (hq ▸ List.mem_append_right _ (List.mem_cons_of_mem _ hmem))
    exact hat.mono (fun _ _ ht => ⟨ht.final,ht.shown⟩) fun hopen _ => hopen

theorem invariant_of_run (hstart : Invariant r arguments x)
    (hrun : Relation.ReflTransGen (Step lib p r routine arguments) x y) : Invariant r arguments y := by
  induction hrun with
  | refl => exact hstart
  | tail _ hstep ih => exact hstep.invariant ih

theorem invariant_start {e : GlobalState} (he : e.Accounted) {rest : List Stored}
    (hobjects : e.objects.Perm (arguments ++ rest)) (hp : p < e.world.pools.size) :
    Invariant (U := U) (N := N) (e.world.pool p).registry arguments (start e.world arguments) := by
  have hentered : Handover.Entered (U := U) (N := N) (e.world.pool p).registry arguments
      (.start e.world arguments) :=
    Handover.entered_start he hobjects hp
  exact ⟨hentered,rfl,nofun⟩

theorem stands_copiedAs {names : CellId → EntryId → Prop} {v : Value} {object copy : Stored}
    (hanew : object.CopiedAs copy) (hstands : Stands r names v object) : Stands r names v copy := by
  cases hanew with
  | plain => exact hstands
  | shared f number =>
    cases hstands with
    | scalar hscalar => cases v <;> cases hscalar
    | shared => exact .shared _ number
    | table _ hname => exact .table number hname

theorem conveyed_copiedAs {heap : Heap} {values : List Value} {cells : List CellId}
    {entry : CellId → EntryId} {answer : List Stored}
    (hd : Conveyed heap values r filed results cells entry)
    (hanew : List.Forall₂ Stored.CopiedAs results answer) :
    Conveyed heap values r filed answer cells entry := by
  refine ⟨hd.nodup,hd.mem_cells,?_,hd.filed⟩
  have hroots := hd.roots
  clear hd
  induction hroots generalizing answer with
  | nil =>
    cases hanew
    exact .nil
  | cons hstands _ ih =>
    cases hanew with
    | cons hcopy hrest => exact .cons (stands_copiedAs hcopy hstands) (ih hrest)

def unnumbered : Stored → Stored
  | .shared f => .shared { f with number := 0 }
  | object => object

/-- Copies differ in the numbers of their handles only. -/
theorem unnumbered_copiedAs {answer : List Stored}
    (hanew : List.Forall₂ Stored.CopiedAs results answer) :
    answer.map unnumbered = results.map fun object => unnumbered object.firm := by
  induction hanew with
  | nil => rfl
  | @cons object copy _ _ hcopy _ ih =>
    rw [List.map_cons, List.map_cons, ih]
    cases hcopy with
    | plain hplain =>
      cases object with
      | shared f => cases hplain
      | nil | boolean | integer | float | string | function => rfl
    | shared f number => rfl

/-- A handle in a copy has a reference, and names the entry of a handle that was copied. -/
theorem handle_copiedAs {answer : List Stored}
    (hanew : List.Forall₂ Stored.CopiedAs results answer) {f : TableHandle}
    (hf : Stored.shared f ∈ answer) : f.strong = true ∧ Names results f.registry f.entry := by
  obtain ⟨object,hobject,hcopy⟩ := forall₂_exists_of_mem hanew.flip hf
  generalize hshared : Stored.shared f = copy at hcopy
  cases hcopy with
  | plain hplain =>
    subst hshared
    cases hplain
  | shared f' number =>
    cases hshared
    exact ⟨rfl,f',List.mem_flatMap.mpr ⟨_,hobject,List.mem_singleton.mpr rfl⟩,rfl,rfl⟩

/-- What names no tables is copied as it is. -/
theorem copiedAs_plain {answer : List Stored} (hanew : List.Forall₂ Stored.CopiedAs results answer)
    (hplain : ∀ object ∈ results, object.handles = []) : answer = results := by
  induction hanew with
  | nil => rfl
  | @cons object copy _ _ hcopy _ ih =>
    obtain ⟨hobject,hrest⟩ := List.forall_mem_cons.mp hplain
    rw [ih hrest]
    cases hcopy with
    | plain => rfl
    | shared => cases hobject

/-- The status is told by its name, or after a failure together with its description. -/
theorem Invariant.told_status (hx : Invariant r arguments x) {answer : List Stored}
    (hq : .told .status answer ∈ x.inquiries) :
    (∃ s : Status, s ≠ .failed ∧ answer = [.string s.name]) ∨
      ∃ description, x.history.ending = some (.failed description) ∧
        answer = [.string "failed",.string description] := by
  rcases hx.answers _ hq with ⟨_,hname⟩ | ⟨hresults,_⟩ | ⟨results,ht,hanew⟩
  · exact .inl hname
  · cases hresults
  · have hfinal : Final r x.history results .failed := ht.final
    cases hfinal with
    | @failed description hending =>
      have hplain : ∀ object ∈ failureResult description, object.handles =
        [] := by simp [failureResult, Stored.handles]
      exact .inr ⟨description,hending,copiedAs_plain hanew hplain⟩

/-- Results are told only of a worker that completed, and then all of them are. -/
theorem Invariant.told_results (hx : Invariant r arguments x) {answer : List Stored}
    (hq : .told .results answer ∈ x.inquiries) (hsome : answer ≠ []) :
    ∃ results, x.history.ending = some (.completed results) ∧ MatchReturned r x.history results ∧
      Tells r x .results results ∧ List.Forall₂ Stored.CopiedAs results answer := by
  rcases hx.answers _ hq with ⟨hstatus,_⟩ | ⟨_,hempty⟩ | ⟨results,ht,hanew⟩
  · cases hstatus
  · exact absurd hempty hsome
  · have hfinal : Final r x.history results .completed := ht.final
    cases hfinal with
    | completed hending htallies => exact ⟨results,hending,htallies,ht,hanew⟩

/-- As long as there is a handle, it keeps what the copies name. -/
theorem Tells.alive {topic : Topic} (ht : Tells r x topic results)
    (hsound : Handover.Sound r arguments x.hand) (hleg : x.hand.leg ≠ .ended) {q : RegistryId}
    {id : EntryId} (hnames : Names results q id) :
    x.hand.world.store.isAlive q id = true := by
  obtain ⟨f,hf,rfl,rfl⟩ := hnames
  rcases ht.shown with hended | ⟨h,hleaving,hresult,_⟩
  · exact absurd hended hleg
  · rw [← hresult] at hf
    exact hsound.alive_published (by rw [hleaving]; rfl) hf

theorem Tells.status {topic : Topic} (ht : Tells r x topic results) (hh : x.hand.leg.handle? = some h) :
    x.hand.world.status h = topic.moment := by
  rcases ht.shown with hended | ⟨i,hleaving,_,hstatus⟩
  · rw [hended] at hh
    cases hh
  · rw [hleaving] at hh
    cases hh
    exact hstatus

/-- Results are published whole.  Whatever world has come about, and however the calls of a hand-over,
those of others and the questions of controllers take turns: the status is told by its name, or as
`failed` with the description that the worker ended with; results are told of a worker that completed,
and then as the whole list of the values that its routine returned, in their order, with live entries
for their tables until the handle goes; and whoever is told results is told the same. -/
theorem results_published_whole {e : GlobalState} (he : e.Arises lib) {rest : List Stored}
    (hobjects : e.objects.Perm (arguments ++ rest)) (hp : p < e.world.pools.size)
    (hrun : Relation.ReflTransGen (Step lib p (e.world.pool p).registry routine arguments)
      (start e.world arguments) x) :
    (∀ answer, .told .status answer ∈ x.inquiries →
      (∃ s : Status, s ≠ .failed ∧ answer = [.string s.name]) ∨
      ∃ description, x.history.ending = some (.failed description) ∧
        answer = [.string "failed",.string description]) ∧
    (∀ answer, .told .results answer ∈ x.inquiries → answer = [] ∨
      ∃ heap values results cells entry, x.history.returned = some (heap,values) ∧
        x.history.ending = some (.completed results) ∧
        (∀ h, x.hand.leg.handle? = some h → x.hand.world.status h = .completed) ∧
        Conveyed heap values (e.world.pool p).registry x.history.filed answer cells entry ∧
        ∀ f, Stored.shared f ∈ answer → f.strong = true ∧
          (x.hand.leg ≠ .ended → x.hand.world.store.isAlive f.registry f.entry = true)) ∧
    ∀ answer answer', .told .results answer ∈ x.inquiries → .told .results answer' ∈ x.inquiries →
      answer ≠ [] → answer' ≠ [] → answer.map unnumbered = answer'.map unnumbered := by
  have hx : Invariant (e.world.pool p).registry arguments x :=
    invariant_of_run (x := start e.world arguments) (invariant_start he.accounted hobjects hp) hrun
  refine ⟨fun answer hq => hx.told_status hq,fun answer hq => ?_,
    fun answer answer' hq hq' hsome hsome' => ?_⟩
  · by_cases hsome : answer = []
    · exact .inl hsome
    · obtain ⟨results,hending,⟨heap,values,cells,entry,hreturned,hconveyed⟩,ht,hanew⟩ :=
        hx.told_results hq hsome
      refine .inr ⟨heap,values,results,cells,entry,hreturned,hending,fun h hh => ht.status hh,
        conveyed_copiedAs hconveyed hanew,fun f hf => ?_⟩
      obtain ⟨hstrong,hnames⟩ := handle_copiedAs hanew hf
      exact ⟨hstrong,fun hleg => ht.alive hx.sound hleg hnames⟩
  · obtain ⟨results,hending,_,_,hanew⟩ := hx.told_results hq hsome
    obtain ⟨results',hending',_,_,hanew'⟩ := hx.told_results hq' hsome'
    rw [hending] at hending'
    cases hending'
    rw [unnumbered_copiedAs hanew, unnumbered_copiedAs hanew']

open Handover (twice)

def localOfShared : World :=
  { twice.world with
    memory := { twice.world.memory with
      heap := { cells := #[{ content := OrderedMap.empty.insert (.integer 1) (.shared ⟨0,0⟩) }] } } }

/-- The routine of a worker returns the local table twice, with a number in between, and a controller who
has waited for the end is told all of it. -/
theorem tells_localOfShared : ∃ x : ObservedHandover Unit Unit,
    Relation.ReflTransGen (Step GlobalState.unloadable 0 0 ⟨"",0⟩ []) (start twice.world []) x ∧
    x.inquiries = [.told .results [.shared ⟨⟨1,0⟩,9,0,true⟩,.integer 7,.shared ⟨⟨1,0⟩,10,0,true⟩]] := by
  have hlocal : Step (U := Unit) (N := Unit) GlobalState.unloadable 0 0 ⟨"",0⟩ [] (start twice.world [])
      ⟨{ Handover.start twice.world [] with world := localOfShared },[],{}⟩ :=
      .other (.elsewhere rfl fun _ h => by cases h) fun _ h => by cases h
  have hspawned :=
    (((Relation.ReflTransGen.single hlocal).tail
    (.pass (.number rfl) trivial (by rintro ⟨⟩) (by rintro ⟨⟩))).tail
    (.pass (.raise rfl) trivial (by rintro ⟨⟩) (by rintro ⟨⟩))).tail
      (.pass (.launch rfl) ⟨_,rfl⟩ (by rintro ⟨⟩) (by rintro ⟨⟩))
  obtain ⟨_,_,_,hstarted⟩ := stays hspawned rfl rfl
  have hreturned := hstarted.tail
    (.pass (.exit rfl (.ended (.ok [.table 0,.integer 7,.table 0]) [])) ⟨_,rfl⟩ (by rintro ⟨⟩)
      (by rintro ⟨⟩))
  obtain ⟨_,_,_,hcollected⟩ := stays hreturned rfl (by cbv : _ = Stage.destroying 0
    (.completed [.shared ⟨⟨1,0⟩,6,0,false⟩,.integer 7,.shared ⟨⟨1,0⟩,8,0,false⟩]))
  obtain ⟨_,_,_,hdestroyed⟩ := stays hcollected rfl (by cbv : _ = Stage.judging _)
  have houtcome := hdestroyed.tail (.pass (.judge rfl rfl) ⟨_,rfl⟩ (by rintro ⟨⟩) (by rintro ⟨⟩))
  obtain ⟨_,_,_,hpublished⟩ := stays houtcome rfl (by cbv : _ = Stage.announcing .completed)
  have hannounced := hpublished.tail (.pass (.announce rfl) ⟨_,rfl⟩ (by rintro ⟨⟩) (by rintro ⟨⟩))
  refine ⟨_,asks hannounced (.later .results none) (.head (Inquiry.goes_awaited ?_ _ _)
    (Inquiry.goes_completedResult _ _)),?_⟩
  · cbv
  · cbv

theorem results_published_whole_localOfShared : ∃ x : ObservedHandover Unit Unit,
    Relation.ReflTransGen (Step GlobalState.unloadable 0 0 ⟨"",0⟩ []) (start twice.world []) x ∧
    x.inquiries = [.told .results [.shared ⟨⟨1,0⟩,9,0,true⟩,.integer 7,.shared ⟨⟨1,0⟩,10,0,true⟩]] ∧
    ∃ heap values results cells entry, x.history.returned = some (heap,values) ∧
      x.history.ending = some (.completed results) ∧
      (∀ h, x.hand.leg.handle? = some h → x.hand.world.status h = .completed) ∧
      Conveyed heap values 0 x.history.filed
        [.shared ⟨⟨1,0⟩,9,0,true⟩,.integer 7,.shared ⟨⟨1,0⟩,10,0,true⟩] cells entry ∧
      (x.hand.leg ≠ .ended → x.hand.world.store.isAlive 0 ⟨1,0⟩ = true) := by
  obtain ⟨x,hrun,hinquiries⟩ := tells_localOfShared
  have htold : .told .results [.shared ⟨⟨1,0⟩,9,0,true⟩,.integer 7,.shared ⟨⟨1,0⟩,10,0,true⟩] ∈
      x.inquiries := by
    rw [hinquiries]
    exact List.mem_singleton.mpr rfl
  have hobjects : twice.objects.Perm ([] ++ twice.objects) := .refl _
  obtain ⟨_,hresults,_⟩ := results_published_whole (GlobalState.arises_run GlobalState.unloadable _)
    hobjects (by decide) hrun
  rcases hresults _ htold with hempty | ⟨heap,values,results,cells,entry,hreturned,hending,hstatus,
    hconveyed,hhandles⟩
  · cases hempty
  · exact ⟨x,hrun,hinquiries,heap,values,results,cells,entry,hreturned,hending,hstatus,hconveyed,
      (hhandles ⟨⟨1,0⟩,9,0,true⟩ List.mem_cons_self).2⟩

end ObservedHandover

end Workers
