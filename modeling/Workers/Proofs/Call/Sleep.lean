import Workers.Call.Strand
/-! # Where code is in a sleep

A sleep makes a notifier, registers it as the target of the hook, looks for a cancellation, and only
then waits.  Code that waits in no other way is plain, and it is always outside of a sleep or at one of
these points of one.
-/
namespace Workers

namespace Act

variable {α β γ : Type}

theorem bind_assoc (a : Act α) (f : α → Act β) (g : β → Act γ) :
    (a.bind f).bind g = a.bind fun x => (f x).bind g := by
  induction a with
  | done | panic => rfl
  | query q k ih => simp only [bind, ih]
  | check kind k ih => simp only [bind, ih]
  | wait n d k ih => simp only [bind, ih]
  | call f' arguments k ih => simp only [bind, ih]

theorem bind_done (a : Act α) : a.bind done = a := by
  induction a with
  | done | panic => rfl
  | query q k ih => simp only [bind, ih]
  | check kind k ih => simp only [bind, ih]
  | wait n d k ih => simp only [bind, ih]
  | call f' arguments k ih => simp only [bind, ih]

def restoreTarget (previous : Option NotifierId) (stopped : Bool) : Act Bool :=
  query (.retarget previous) fun _ => done stopped

def waitAndLook (n : NotifierId) (d : Duration) (previous : Option NotifierId) : Act Bool :=
  wait n d fun _ => check .point (restoreTarget previous)

def proceedToWait (n : NotifierId) (d : Duration) (previous : Option NotifierId) (stopped : Bool) :
    Act Bool :=
  if stopped then restoreTarget previous true else waitAndLook n d previous

def registerTarget (n : NotifierId) (d : Duration) : Act Bool :=
  query (.retarget (some n)) fun previous => check .point (proceedToWait n d previous)

theorem sleepFor_bind (d : Duration) (k : Bool → Act α) :
    (sleepFor d).bind k = query .newNotifier fun n => (registerTarget n d).bind k := rfl

/-- Code that asks, checks and calls as it likes, and waits in sleeps. -/
inductive Plain {α : Type} : Act α → Prop
  | done (a : α) : Plain (.done a)
  | query {q : Query} {k : q.Answer → Act α} (hk : ∀ answer, Plain (k answer)) : Plain (.query q k)
  | check {kind : CheckKind} {k : Bool → Act α} (hk : ∀ stopped, Plain (k stopped)) :
      Plain (.check kind k)
  | call {f : Routine} {arguments : List Value} {k : Outcome → Act α}
      (hk : ∀ outcome, Plain (k outcome)) :
      Plain (.call f arguments k)
  | panic (text : String) : Plain (.panic text)
  | sleep (d : Duration) {k : Bool → Act α} (hk : ∀ stopped, Plain (k stopped)) :
      Plain ((sleepFor d).bind k)

theorem Plain.bind {a : Act α} {f : α → Act β} (ha : a.Plain) (hf : ∀ x, (f x).Plain) :
    (a.bind f).Plain := by
  induction ha with
  | done x => exact hf x
  | query _ ih => exact .query ih
  | check _ ih => exact .check ih
  | call _ ih => exact .call ih
  | panic text => exact .panic text
  | sleep d _ ih =>
    rw [bind_assoc]
    exact .sleep d ih

theorem plain_sleepFor (d : Duration) : (sleepFor d).Plain := by
  have hsleep : ((sleepFor d).bind done).Plain := .sleep d Plain.done
  rwa [bind_done] at hsleep

theorem plain_restoreTarget (previous : Option NotifierId) {k : Bool → Act α}
    (hk : ∀ stopped, (k stopped).Plain) (stopped : Bool) :
    ((restoreTarget previous stopped).bind k).Plain := .query fun _ => hk stopped

end Act

variable {U N : Type}

structure Library.Plain (lib : Library U N) : Prop where
  step : ∀ u, (lib.step u).Plain
  receive : ∀ u outcome, (lib.receive u outcome).Plain
  body : ∀ n, (lib.body n).Plain

namespace Library.Plain

variable {lib : Library U N}

theorem advance (hlib : lib.Plain) (frame : Frame U N) : (lib.advance frame).Plain := by
  cases frame with
  | own u => exact (hlib.step u).bind fun _ => .done _
  | native name body =>
    cases body with
    | none => exact .done _
    | some n =>
      refine (hlib.body n).bind fun report => ?_
      obtain ⟨n',stretch⟩ := report
      cases stretch <;> exact .done _
  | guarded f phase =>
    cases phase with
    | launch arguments =>
      simp only [Library.advance]
      split <;> exact .done _
    | waiting | finished => exact .done _

theorem accept (hlib : lib.Plain) (outcome : Except Fault (List Value)) (frame : Frame U N) :
    (lib.accept outcome frame).Plain := by
  cases frame with
  | own u => exact (hlib.receive u outcome).bind fun _ => .done _
  | native | guarded => exact .done _

end Library.Plain

inductive Phase.OutsideSleep {F : Type} : Phase F → Prop
  | turn (t : Turn F) : OutsideSleep (.turn t)
  | acting {role : Role F} {act : Act role.Report} (hact : act.Plain) : OutsideSleep (.acting role act)
  | counting (probe : Probe) (stack : List F) : OutsideSleep (.counting probe stack)
  | checking (probe : Probe) {role : Role F} {k : Bool → Act role.Report}
      (hk : ∀ stopped, (k stopped).Plain) :
      OutsideSleep (.checking probe role k)
  | exit (e : Exit F) : OutsideSleep (.exit e)

def Check.OfPoint : Check → Prop
  | pointShutdown | pointCommand | stop => True
  | _ => False

/-- A phase in a sleep with a notifier, where the target of the worker may be registered already. -/
inductive Phase.InSleep {F : Type} (h : WorkerId) (target : Option NotifierId) (n : NotifierId) :
    Phase F → Prop
  | register (d : Duration) {role : Role F} {k : Bool → Act role.Report}
      (hk : ∀ stopped, (k stopped).Plain) :
      InSleep h target n (.acting role ((Act.registerTarget n d).bind k))
  | look (d : Duration) (previous : Option NotifierId) {role : Role F}
      {k : Bool → Act role.Report} (htarget : target = some n) (hk : ∀ stopped, (k stopped).Plain) :
      InSleep h target n (.acting role (.check .point fun stopped =>
        (Act.proceedToWait n d previous stopped).bind k))
  | looking (d : Duration) (previous : Option NotifierId) {at_ : Check} {role : Role F}
      {k : Bool → Act role.Report} (htarget : target = some n) (hat : at_.OfPoint)
      (hk : ∀ stopped, (k stopped).Plain) :
      InSleep h target n (.checking (.worker h at_) role fun stopped =>
        (Act.proceedToWait n d previous stopped).bind k)
  | beforeWait (d : Duration) (previous : Option NotifierId) {role : Role F} {k : Bool → Act role.Report}
      (htarget : target = some n) (hk : ∀ stopped, (k stopped).Plain) :
      InSleep h target n (.acting role ((Act.waitAndLook n d previous).bind k))
  | waiting (deadline : Nat) {role : Role F} {k : Bool → Act role.Report}
      (htarget : target = some n) (hk : ∀ stopped, (k stopped).Plain) :
      InSleep h target n (.waiting n deadline role k)

def Phase.awaits {F : Type} : Phase F → Option NotifierId
  | .acting _ (.wait n _ _) => some n
  | .waiting n _ _ _ => some n
  | _ => none

variable {F : Type} {phase : Phase F} {h : WorkerId} {target : Option NotifierId} {n m : NotifierId}

theorem Phase.OutsideSleep.awaits (hawake : phase.OutsideSleep) : phase.awaits = none := by
  cases hawake with
  | acting hact => cases hact <;> rfl
  | turn | counting | checking | exit => rfl

theorem Phase.InSleep.awaits (hsleep : phase.InSleep h target n) (hwait : phase.awaits = some m) :
    m = n ∧ target = some n := by
  cases hsleep with
  | register | look | looking => cases hwait
  | beforeWait d previous htarget => exact ⟨(Option.some.inj hwait).symm,htarget⟩
  | waiting deadline htarget => exact ⟨(Option.some.inj hwait).symm,htarget⟩

end Workers
