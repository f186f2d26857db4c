import Workers.Proofs.Handover.Delivered
import Workers.Proofs.Handover.Inquiry
import Workers.Proofs.Handover.Spawned
/-! # Hand-overs that controllers ask about

A controller who has the handle of a worker may ask for its status and its results while the worker
is under way.  A step is one call on a registry or one lock, of the worker, of others or of a
controller; the history says what the routine returned and what the worker made of it.  A stage that
nobody interrupts and a question that nobody interrupts are runs of such steps.
-/
namespace Workers

variable {U N : Type}

/-- What is remembered of a worker: the values that its routine returned, and the local tables as they
were then; what it ended with; and the tables that it filed, the last one first. -/
structure WorkerHistory where
  returned : Option (Heap × List Value) := none
  ending : Option Ending := none
  filed : List Filing := []

structure ObservedHandover (U N : Type) where
  hand : Handover U N
  inquiries : List Inquiry
  history : WorkerHistory

def Leg.Idle : Leg U N → Prop
  | .adopting _ code => ∃ outcome, code = .done outcome
  | .working _ code => ∃ stage, code = .done stage
  | .called | .numbered _ | .ended => True

inductive Inquiry.Fresh : Inquiry → Prop
  | now : Fresh (.looking .status)
  | later (topic : Topic) (deadline : Option Nat) : Fresh (.waiting topic deadline)

def Inquiry.IsTold : Inquiry → Prop
  | .told .. => True
  | _ => False

namespace ObservedHandover

inductive ControlChange (leg : Leg U N) (h : WorkerId) (control : Control) : Control → Prop
  | same : ControlChange leg h control control
  | put (command : Command) : ControlChange leg h control (control.putCommand command)
  | goto {c : ContextId} {s : Strand (Frame U N)} {at_ next : Check} {shutdown : Bool}
      {control' : Control} (hleg : leg = .working h (.done (.running c s)))
      (hmove : at_.step shutdown control = .goto next control') :
      ControlChange leg h control control'
  | finish {c : ContextId} {s : Strand (Frame U N)} {at_ : Check} {shutdown stopped : Bool}
      {control' : Control} (hleg : leg = .working h (.done (.running c s)))
      (hmove : at_.step shutdown control = .finish stopped control') :
      ControlChange leg h control control'

def recorded (x : ObservedHandover U N) : WorkerHistory :=
  match x.hand.leg with
  | .working _ (.done (.collecting _ values)) =>
    { x.history with returned := some (x.hand.world.memory.heap,values) }
  | .working _ (.done (.judging e)) => { x.history with ending := some e }
  | _ => x.history

def start (w : World) (arguments : List Stored) : ObservedHandover U N := ⟨.start w arguments,[],{}⟩

/-- One call or one lock of anybody: of others, of the code of the hand-over, or of a controller who
asks.  Whoever asks keeps the handle until there is an answer. -/
inductive Step (lib : Library U N) (p : PoolId) (r : RegistryId) (routine : Routine)
    (arguments : List Stored) (x : ObservedHandover U N) : ObservedHandover U N → Prop
  | other {w : World} (hw : x.hand.world.OtherStep x.hand.ours x.hand.leg.handle? w)
      (hcontrol : ∀ h, x.hand.leg.handle? = some h →
        ControlChange x.hand.leg h (x.hand.world.handle h).control (w.handle h).control) :
      Step lib p r routine arguments x { x with hand := { x.hand with world := w } }
  | adopt {h : WorkerId} {code : Code (Except Code.Refused (List Stored))}
      (hleg : x.hand.leg = .adopting h code) :
    Step lib p r routine arguments x
      { x with
        hand := {
          world := (code.step x.hand.world).2
          leg := .adopting h (code.step x.hand.world).1
          ours := code.claims x.hand.world x.hand.ours
          results := x.hand.results } }
  | work {h : WorkerId} {code : Code (Stage (Frame U N))} (hleg : x.hand.leg = .working h code) :
    Step lib p r routine arguments x
      { x with
        hand := {
          world := (code.step x.hand.world).2
          leg := .working h (code.step x.hand.world).1
          ours := code.claims x.hand.world x.hand.ours
          results := x.hand.results ++ code.captures }
        history := { x.history with filed := code.files x.hand.world ++ x.history.filed } }
  | pass {k : Handover U N} (hstep : Handover.Step lib p r routine arguments x.hand k)
      (hidle : x.hand.leg.Idle) (hleg : k.leg ≠ x.hand.leg)
      (htold : k.leg = .ended → ∀ q ∈ x.inquiries, q.IsTold) :
      Step lib p r routine arguments x { x with hand := k, history := x.recorded }
  | ask {h : WorkerId} {code : Code (Stage (Frame U N))} (hleg : x.hand.leg = .working h code)
      {q : Inquiry} (hq : q.Fresh) :
      Step lib p r routine arguments x { x with inquiries := q :: x.inquiries }
  | answer {h : WorkerId} {code : Code (Stage (Frame U N))} (hleg : x.hand.leg = .working h code)
      {before after : List Inquiry} {q q' : Inquiry} {w : World}
      (hq : x.inquiries = before ++ q :: after) (hstep : q.step h x.hand.world = some (q',w)) :
      Step lib p r routine arguments x
        { x with hand := { x.hand with world := w }, inquiries := before ++ q' :: after }

variable {lib : Library U N} {p : PoolId} {r : RegistryId} {routine : Routine} {arguments : List Stored}
variable {x y : ObservedHandover U N} {h : WorkerId} {a : WorkerHistory}
    {shown results : List Stored} {filed : List Filing}

/-- No step of the hand-over is lost, as long as the handle is kept for those who are to be answered. -/
theorem Step.of_handover {k : Handover U N} (hstep : Handover.Step lib p r routine arguments x.hand k)
    (htold : k.leg = .ended → ∀ q ∈ x.inquiries, q.IsTold) :
    (∃ w, k = { x.hand with world := w }) ∨ ∃ y, Step lib p r routine arguments x y ∧ y.hand = k := by
  have hstill : ∀ w leg, leg = x.hand.leg →
      ∃ u, (⟨w,leg,x.hand.ours,x.hand.results⟩ : Handover U N) = { x.hand with world := u } := by
    rintro w leg rfl
    exact ⟨w,rfl⟩
  by_cases hidle : x.hand.leg.Idle ∧ k.leg ≠ x.hand.leg
  · exact .inr ⟨_,.pass hstep hidle.1 hidle.2 htold,rfl⟩
  · have hsame : x.hand.leg.Idle → k.leg = x.hand.leg := fun hi => not_not.mp fun hne => hidle ⟨hi,hne⟩
    clear hidle
    cases hstep with
    | other => exact .inl ⟨_,rfl⟩
    | adopt hat => exact .inr ⟨_,.adopt hat,rfl⟩
    | work hat => exact .inr ⟨_,.work hat,rfl⟩
    | launch hat | begin hat | exit hat | judge hat | announce hat | drop hat =>
      refine .inl (hstill _ _ (hsame ?_))
      rw [hat]
      exact ⟨_,rfl⟩
    | raise hat =>
      refine .inl (hstill _ _ (hsame ?_))
      rw [hat]
      trivial
    | refuse hat =>
      refine .inl (hstill _ _ (hsame ?_))
      rcases hat with hat | ⟨_,_,hat⟩
      · rw [hat]
        trivial
      · rw [hat]
        exact ⟨_,rfl⟩
    | number hat =>
      have hleg := hsame (by rw [hat]; trivial)
      rw [hat] at hleg
      cases hleg

section Uninterrupted

variable {w : World} {ours : Set Share} {objects : List Stored} {inquiries : List Inquiry}
    {record : WorkerHistory}
variable (lib p r routine arguments)

/-- Steps of the code are steps of the worker. -/
theorem works {code : Code (Stage (Frame U N))} {z : Code (Stage (Frame U N)) × World}
    (hgoes : Relation.ReflTransGen Code.Goes (code,w) z) : ∃ ours' objects' filed, Relation.ReflTransGen
      (Step lib p r routine arguments) ⟨⟨w,.working h code,ours,objects⟩,inquiries,record⟩
      ⟨⟨z.2,.working h z.1,ours',objects'⟩,inquiries,{ record with filed }⟩ := by
  induction hgoes with
  | refl => exact ⟨ours,objects,record.filed,.refl⟩
  | tail _ hstep ih =>
    obtain ⟨ours',objects',filed,hrun⟩ := ih
    obtain rfl := hstep
    exact ⟨_,_,_,hrun.tail (.work rfl)⟩

theorem bind_ne_done {α β : Type} {code : Code α} {f : α → Code β} (hf : ∀ a b, f a ≠ .done b) (b : β) :
    code.bind f ≠ .done b := by
  cases code with
  | done a => exact hf a b
  | number | create | addReference | drop | secure | load | close | take | publish | captured => nofun

/-- A stage that calls on the registries is not over at once. -/
theorem ofStage_ne_done {stage : Stage (Frame U N)} (hcalls : Code.Calls stage = true)
    (s : Stage (Frame U N)) :
    Code.ofStage w h stage ≠ .done s := by
  cases stage with
  | starting | destroying | publishing => rintro ⟨⟩
  | collecting c values =>
    cases values with
    | nil => rintro ⟨⟩
    | cons v rest =>
      have hcollect : ∀ outcome, Code.collect h w.memory.heap { registry := (w.context c).registry }
        [] (v :: rest) ≠
          .done outcome := by
        refine bind_ne_done fun o outcome => ?_
        rcases o with ⟨fault | object,c'⟩ <;> rintro ⟨⟩
      simp only [Code.ofStage]
      cases hcode : Code.collect h w.memory.heap { registry := (w.context c).registry } []
          (v :: rest) with
      | done outcome => exact absurd hcode (hcollect outcome)
      | number | create | addReference | drop | secure | load | close | take | publish | captured =>
        rintro ⟨⟩
  | running | judging | announcing | leaving | gone => cases hcalls

variable {lib p r routine arguments}

/-- A stage that calls on the registries, from its beginning to the next one. -/
theorem stays {stage next : Stage (Frame U N)}
    (hx : Relation.ReflTransGen (Step lib p r routine arguments) x
      ⟨⟨w,.working h (.done stage),ours,objects⟩,inquiries,record⟩)
    (hcalls : Code.Calls stage = true) (hnext : ((Code.ofStage w h stage).run w).1 = next) :
    ∃ ours' objects' record', Relation.ReflTransGen (Step lib p r routine arguments) x
      ⟨⟨((Code.ofStage w h stage).run w).2,.working h (.done next),ours',objects'⟩,inquiries,
        record'⟩ := by
  subst hnext
  have hbegin : Step lib p r routine arguments ⟨⟨w,.working h (.done stage),ours,objects⟩,
    inquiries,record⟩
      ⟨⟨w,.working h (Code.ofStage w h stage),ours,objects⟩,inquiries,
        recorded ⟨⟨w,.working h (.done stage),ours,objects⟩,inquiries,record⟩⟩ := by
    refine .pass (.begin rfl) ⟨_,rfl⟩ (fun heq => ?_) nofun
    exact ofStage_ne_done hcalls stage (Leg.working.inj heq).2
  obtain ⟨ours',objects',filed,hworks⟩ :=
    works lib p r routine arguments (Code.goes (Code.ofStage w h stage) w)
  exact ⟨ours',objects',_,(hx.tail hbegin).trans hworks⟩

/-- A question and what it comes to. -/
theorem asks {code : Code (Stage (Frame U N))}
    (hx : Relation.ReflTransGen (Step lib p r routine arguments) x
      ⟨⟨w,.working h code,ours,objects⟩,inquiries,record⟩)
    {q : Inquiry} (hq : q.Fresh) {z : Inquiry × World}
    (hgoes : Relation.ReflTransGen (Inquiry.Goes h) (q,w) z) :
    Relation.ReflTransGen (Step lib p r routine arguments) x
      ⟨⟨z.2,.working h code,ours,objects⟩,z.1 :: inquiries,record⟩ := by
  induction hgoes with
  | refl => exact hx.tail (.ask rfl hq)
  | @tail y z _ hstep ih =>
    have hanswer : Step lib p r routine arguments ⟨⟨y.2,.working h code,ours,objects⟩,
      [] ++ y.1 :: inquiries,record⟩
        ⟨⟨z.2,.working h code,ours,objects⟩,[] ++ z.1 :: inquiries,record⟩ := .answer rfl rfl hstep
    exact ih.tail hanswer

end Uninterrupted

end ObservedHandover

end Workers
