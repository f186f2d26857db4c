import Workers.Proofs.Control.Cancel
import Workers.Proofs.Control.SleepStages
import Workers.Proofs.Control.Wakeup
/-! # A sleep among controllers

Any number of controllers cancel, pause and resume workers and shut pools down, while a worker
sleeps.  The sleep comes back with a stop if one of its looks has found a shutdown or a
cancellation.  If it does not, then it has waited for all its time, or a controller has woken it
whose cancellation was refused, or has been replaced by a later command since.
-/
namespace Workers

inductive Intent where
  | cancel (h : WorkerId) (deadline : Option Nat)
  | pause (h : WorkerId) (deadline : Option Nat)
  | resume (h : WorkerId)
  | shutdown (p : PoolId)

def Intent.errand : Intent → Errand
  | cancel h deadline => .cancel h deadline
  | pause h deadline => .pause h deadline
  | resume h => { orders := [.put h .run] }
  | shutdown p => .shutdown p

namespace Errand

/-- Orders by which a worker is only woken when it has been cancelled before. -/
inductive WakesAfterCancel (canceled : WorkerId → Prop) (aimed : NotifierId → Prop) : List Order → Prop
  | nil : WakesAfterCancel canceled aimed []
  | cancel (h : WorkerId) {rest : List Order} (hrest : WakesAfterCancel canceled aimed rest) :
      WakesAfterCancel canceled aimed (.put h .cancel :: .interrupt h :: rest)
  | interrupt {h : WorkerId} {rest : List Order} (hh : canceled h)
      (hrest : WakesAfterCancel canceled aimed rest) :
      WakesAfterCancel canceled aimed (.interrupt h :: rest)
  | fire {n : NotifierId} {rest : List Order} (hn : aimed n)
      (hrest : WakesAfterCancel canceled aimed rest) :
      WakesAfterCancel canceled aimed (.fire n :: rest)
  | tame {o : Order} {rest : List Order} (ho : ∀ h, o ≠ .interrupt h) (ho' : ∀ n, o ≠ .fire n)
      (hrest : WakesAfterCancel canceled aimed rest) : WakesAfterCancel canceled aimed (o :: rest)

variable {canceled canceled' : WorkerId → Prop} {aimed aimed' : NotifierId → Prop}
    {orders rest : List Order}
variable {e e' : Errand} {w w' : World} {n : NotifierId}

theorem WakesAfterCancel.mono (hs : WakesAfterCancel canceled aimed orders)
    (hcanceled : ∀ h, canceled h → canceled' h) (haimed : ∀ n, aimed n → aimed' n) :
    WakesAfterCancel canceled' aimed' orders := by
  induction hs with
  | nil => exact .nil
  | cancel h _ ih => exact .cancel h ih
  | interrupt hh _ ih => exact .interrupt (hcanceled _ hh) ih
  | fire hn _ ih => exact .fire (haimed _ hn) ih
  | tame ho ho' _ ih => exact .tame ho ho' ih

theorem wakesAfterCancel_errand (intent : Intent) :
    WakesAfterCancel canceled aimed intent.errand.orders := by
  cases intent with
  | cancel h deadline => exact .cancel h (.tame nofun nofun .nil)
  | pause h deadline => exact .tame nofun nofun (.tame nofun nofun .nil)
  | resume h => exact .tame nofun nofun .nil
  | shutdown p => exact .tame nofun nofun (.tame nofun nofun (.tame nofun nofun .nil))

theorem wakesAfterCancel_cancelAll (hs : List WorkerId) (hrest : WakesAfterCancel canceled aimed rest) :
    WakesAfterCancel canceled aimed (hs.flatMap (fun h => [.put h .cancel,.interrupt h]) ++ rest) := by
  induction hs with
  | nil => exact hrest
  | cons h hs ih => exact .cancel h ih

/-- An order is carried out, and what it brings about is known from then on. -/
theorem WakesAfterCancel.step (hs : WakesAfterCancel canceled aimed e.orders)
    (hstep : e.step w = .ran e' w') (hcanceled : ∀ h, canceled h → canceled' h)
    (haimed : ∀ n, aimed n → aimed' n)
    (hcancel : ∀ h rest, e.orders = .put h .cancel :: rest → canceled' h)
    (haim : ∀ h rest n, e.orders = .interrupt h :: rest → canceled h →
      (w.handle h).target = some n → aimed' n) :
    WakesAfterCancel canceled' aimed' e'.orders := by
  have hmono : ∀ {rest}, WakesAfterCancel canceled aimed rest → WakesAfterCancel canceled' aimed' rest :=
    fun hrest => hrest.mono hcanceled haimed
  obtain ⟨o,rest,more,horders,hdoes,hafter⟩ := effect_of_step hstep
  rw [horders] at hs
  rw [hafter]
  cases hs with
  | cancel h hrest =>
    cases hdoes
    exact .interrupt (hcancel h _ horders) (hmono hrest)
  | interrupt hh hrest =>
    cases hdoes with
    | aim h n htarget => exact .fire (haim _ _ n horders hh htarget) (hmono hrest)
    | miss => exact hmono hrest
  | fire hn hrest =>
    cases hdoes
    exact hmono hrest
  | tame ho ho' hrest =>
    cases hdoes with
    | aim h | miss h => exact absurd rfl (ho h)
    | fire n => exact absurd rfl (ho' n)
    | cancelAll p => exact wakesAfterCancel_cancelAll _ (hmono hrest)
    | put | request | await | untilIdle | untilRequested | untilStatus => exact hmono hrest

/-- Only the order to do so notifies. -/
theorem fires_of_notified (hstep : e.step w = .ran e' w') (hbefore : w.isNotified n = false)
    (hafter : w'.isNotified n = true) : ∃ rest, e.orders = .fire n :: rest := by
  obtain ⟨o,rest,more,horders,hdoes,_⟩ := effect_of_step hstep
  cases hdoes with
  | fire m =>
    by_cases hm : m = n
    · exact ⟨rest,hm ▸ horders⟩
    · cases hbefore.symm.trans ((World.isNotified_notify_of_ne hm).symm.trans hafter)
  | put | aim | miss | request | cancelAll | await | untilIdle | untilRequested | untilStatus =>
    cases hbefore.symm.trans hafter

end Errand

namespace WorkerState

variable {U N : Type} {lib : Library U N} {x y : WorkerState U N} {es es' : ℕ → Errand}

def IsAt (x : WorkerState U N) (s : Sleep (Frame U N)) (σ : SleepStage) : Prop :=
  ∃ c, x.worker.stage = .running c (σ.strand s x.worker.handle)

def Sleeps (x : WorkerState U N) (n : NotifierId) : Prop := ∃ s σ, x.IsAt s σ ∧ σ.notifier = some n

inductive ControllersStep (lib : Library U N) :
    WorkerState U N → (ℕ → Errand) → WorkerState U N → (ℕ → Errand) → Prop
  | worker {x y : WorkerState U N} {es : ℕ → Errand} (hworks : Works lib x y) :
      ControllersStep lib x es y es
  | order {x : WorkerState U N} {es : ℕ → Errand} {e : Errand} {w : World} (i : ℕ)
      (hstep : (es i).step x.world = .ran e w) :
      ControllersStep lib x es ⟨w,x.worker⟩ (Function.update es i e)
  | enter {x : WorkerState U N} {es : ℕ → Errand} (i : ℕ) (intent : Intent)
      (hdone : (es i).isDone = true) :
      ControllersStep lib x es x (Function.update es i intent.errand)
  | other {x : WorkerState U N} {es : ℕ → Errand} {w : World}
      (hcontrol : x.world.KeepsControl x.worker.handle w) (hleft : x.SleepUntouched w)
      (hquiet : ∀ n, x.Sleeps n → w.isNotified n = true → x.world.isNotified n = true) :
      ControllersStep lib x es ⟨w,x.worker⟩ es

theorem ControllersStep.refl (lib : Library U N) (x : WorkerState U N) (es : ℕ → Errand) :
    ControllersStep lib x es x es :=
  .other (.refl _ _) (.refl x) fun _ _ hn => hn

theorem ControllersStep.step (hstep : ControllersStep lib x es y es') : Step lib x y := by
  cases hstep with
  | worker hworks => exact .worker hworks
  | order i hstep => exact .errand hstep
  | enter => exact .stutter lib x
  | other hcontrol => exact .other hcontrol

theorem ControllersStep.controlledStep (hstep : ControllersStep lib x es y es') (e : Errand) :
    ControlledStep lib x e y e := by
  cases hstep with
  | worker hworks => exact .worker hworks
  | order i hstep => exact .another hstep
  | enter => exact .other (.refl _ _) (.refl x)
  | other hcontrol hleft => exact .other hcontrol hleft

/-- What a controller has to do stays, or it carries out its next order, or it begins another call. -/
theorem ControllersStep.errand (hstep : ControllersStep lib x es y es') (i : ℕ) :
    es' i = es i ∨ (es i).step x.world = .ran (es' i) y.world ∧ y.worker = x.worker ∨
      ∃ intent : Intent, es' i = intent.errand := by
  cases hstep with
  | worker | other => exact .inl rfl
  | order j hstep =>
    by_cases hij : i = j
    · subst hij
      rw [Function.update_self]
      exact .inr (.inl ⟨hstep,rfl⟩)
    · exact .inl (Function.update_of_ne hij ..)
  | enter j intent =>
    by_cases hij : i = j
    · subst hij
      rw [Function.update_self]
      exact .inr (.inr ⟨intent,rfl⟩)
    · exact .inl (Function.update_of_ne hij ..)

theorem IsAt.point {s : Sleep (Frame U N)} {σ : SleepStage} (hat : x.IsAt s σ) : x.point = σ.point := by
  obtain ⟨c,hstage⟩ := hat
  rw [WorkerState.point, Worker.point, hstage]
  cases σ with
  | looking => exact if_pos rfl
  | called | registering | look | beforeWait | waiting | restoring | back => rfl

/-- A step of a worker in a sleep is one of its code. -/
theorem Works.strand {s : Sleep (Frame U N)} {σ : SleepStage} (hworks : Works lib x y)
    (hat : x.IsAt s σ) :
    ∃ c t, x.worker.stage = .running c (σ.strand s x.worker.handle) ∧
      (σ.strand s x.worker.handle).step lib c x.world = .ran t y.world ∧
        y.worker = { x.worker with stage := .running c t } := by
  obtain ⟨c,hstage⟩ := hat
  have hexit := σ.exit_strand s x.worker.handle
  simp only [Works, Worker.step, hstage, hexit] at hworks
  cases ht : (σ.strand s x.worker.handle).step lib c x.world with
  | ran t w =>
    rw [ht] at hworks
    obtain ⟨hworker,hw⟩ := Progress.ran.inj hworks
    exact ⟨c,t,hstage,hw ▸ ht,hworker.symm⟩
  | blocked deadline =>
    rw [ht] at hworks
    cases hworks

/-- Nobody but a controller wakes a sleeper. -/
theorem ControllersStep.notified {s : Sleep (Frame U N)} {σ : SleepStage} {n : NotifierId}
    (hstep : ControllersStep lib x es y es') (hat : x.IsAt s σ) (hn : σ.notifier = some n) :
    x.world.notifiers.size ≤ y.world.notifiers.size ∧
    (y.world.isNotified n = true → x.world.isNotified n = true ∨ y.worker = x.worker ∧
      ∃ i rest, (es i).orders = .fire n :: rest ∧ (es i).step x.world = .ran (es' i) y.world) := by
  cases hstep with
  | worker hworks =>
    obtain ⟨c,t,_,ht,_⟩ := hworks.strand hat
    have hsame := SleepStage.notifiers_step (hn ▸ rfl) ht
    refine ⟨by rw [hsame],fun hafter => .inl ?_⟩
    rwa [World.isNotified, hsame] at hafter
  | order i hstep =>
    refine ⟨(World.keepsHook_errand (c := 0) hstep).notifiers,fun hafter => ?_⟩
    cases hbefore : x.world.isNotified n with
    | true => exact .inl rfl
    | false =>
      obtain ⟨rest,horders⟩ := Errand.fires_of_notified hstep hbefore hafter
      exact .inr ⟨rfl,i,rest,horders,by rwa [Function.update_self]⟩
  | enter => exact ⟨le_rfl,.inl⟩
  | other _ hleft hquiet => exact ⟨hleft.notifiers,fun hafter => .inl (hquiet n ⟨s,σ,hat,hn⟩ hafter)⟩

/-- A launched worker among controllers, who make one call after the other, and others. -/
structure ControllersExecution (lib : Library U N) where
  state : ℕ → WorkerState U N
  errand : ℕ → ℕ → Errand
  launched : Launched (state 0)
  idle (i : ℕ) : (errand 0 i).isDone = true
  step (m : ℕ) : ControllersStep lib (state m) (errand m) (state (m + 1)) (errand (m + 1))

namespace ControllersExecution

variable (r : ControllersExecution lib) {s : Sleep (Frame U N)} {σ σ' : SleepStage}
    {a b z m n : ℕ} {i : ℕ}

def handle : WorkerId := (r.state 0).worker.handle

structure CarriesOut (i m : ℕ) (o : Order) : Prop where
  order : ∃ rest, (r.errand m i).orders = o :: rest
  step : (r.errand m i).step (r.state m).world = .ran (r.errand (m + 1) i) (r.state (m + 1)).world
  worker : (r.state (m + 1)).worker = (r.state m).worker

def FindsStop (m : ℕ) : Prop :=
  Works lib (r.state m) (r.state (m + 1)) ∧
    ((r.state m).point = some .pointShutdown ∧ (r.state m).requested = true ∨
      (r.state m).point = some .pointCommand ∧ (r.state m).control.command = .cancel)

/-- A sleep that has been called at one time, and where it is at another. -/
inductive SleepProgress (s : Sleep (Frame U N)) (a : ℕ) : ℕ → SleepStage → Prop
  | call (hat : (r.state a).IsAt s .called) : SleepProgress s a a .called
  | works {m : ℕ} {σ σ' : SleepStage} (hgoes : SleepProgress s a m σ)
      (hworks : Works lib (r.state m) (r.state (m + 1)))
      (hmoves : σ.Moves s (r.state m).world (r.state m).worker.handle σ')
      (hat : (r.state (m + 1)).IsAt s σ') :
      SleepProgress s a (m + 1) σ'
  | rests {m : ℕ} {σ : SleepStage} (hgoes : SleepProgress s a m σ)
      (hrest : (r.state (m + 1)).worker = (r.state m).worker) :
      SleepProgress s a (m + 1) σ

def Lasts (d : Duration) (a z : ℕ) : Prop :=
  ∃ b e, a ≤ b ∧ b < e ∧ e < z ∧ (r.state b).world.after d.millis ≤ (r.state e).world.clock

structure CancelsAndWakes (i p q f : ℕ) (n : NotifierId) : Prop where
  cancels : r.CarriesOut i p (.put r.handle .cancel)
  reads : r.CarriesOut i q (.interrupt r.handle)
  registered : ((r.state q).world.handle r.handle).target = some n
  wakes : r.CarriesOut i f (.fire n)
  read : p < q
  woken : q < f

/-- A cancellation was refused, or has been replaced by a later command. -/
def CancelReplaced (p z : ℕ) : Prop :=
  (r.state p).status.isTerminal = true ∨
    ∃ m, p < m ∧ m < z ∧ ∃ command ≠ Command.cancel, Accepts command (r.state m) (r.state (m + 1))

variable {r}

def execution : Execution lib where
  state := r.state
  launched := r.launched
  step m := (r.step m).step

def controlled : ControlledExecution lib where
  state := r.state
  errand _ := { orders := [] }
  launched := r.launched
  step m := (r.step m).controlledStep _

theorem handle_eq (m : ℕ) : (r.state m).worker.handle = r.handle := by
  induction m with
  | zero => rfl
  | succ m ih =>
    rcases (r.execution.step m).works_or_rests with hworks | ⟨hworker,_⟩
    · exact hworks.handle_eq.trans ih
    · exact (congrArg Worker.handle hworker).trans ih

def Canceled (r : ControllersExecution lib) (i m : ℕ) (h : WorkerId) : Prop :=
  ∃ p < m, r.CarriesOut i p (.put h .cancel)

def Aimed (r : ControllersExecution lib) (i m : ℕ) (n : NotifierId) : Prop :=
  ∃ h p q, p < q ∧ q < m ∧ r.CarriesOut i p (.put h .cancel) ∧ r.CarriesOut i q (.interrupt h) ∧
    ((r.state q).world.handle h).target = some n

theorem Canceled.mono {h : WorkerId} (hh : r.Canceled i m h) (hmz : m ≤ z) : r.Canceled i z h := by
  obtain ⟨p,hp,hcarries⟩ := hh
  exact ⟨p,hp.trans_le hmz,hcarries⟩

theorem Aimed.mono (hn : r.Aimed i m n) (hmz : m ≤ z) : r.Aimed i z n := by
  obtain ⟨h,p,q,hpq,hq,haims⟩ := hn
  exact ⟨h,p,q,hpq,hq.trans_le hmz,haims⟩

/-- No controller wakes anybody whom it has not cancelled before. -/
theorem wakesAfterCancel (i m : ℕ) :
    Errand.WakesAfterCancel (r.Canceled i m) (r.Aimed i m) (r.errand m i).orders := by
  induction m with
  | zero =>
    rw [List.isEmpty_iff.mp (r.idle i)]
    exact .nil
  | succ m ih =>
    have hcanceled : ∀ h, r.Canceled i m h → r.Canceled i (m + 1) h := fun _ hh => hh.mono m.le_succ
    have haimed : ∀ n, r.Aimed i m n → r.Aimed i (m + 1) n := fun _ hn => hn.mono m.le_succ
    rcases (r.step m).errand i with hsame | ⟨hstep,hworker⟩ | ⟨intent,hintent⟩
    · rw [hsame]
      exact ih.mono hcanceled haimed
    · refine ih.step hstep hcanceled haimed (fun h rest horders => ?_)
        fun h rest n horders hh htarget => ?_
      · exact ⟨m,m.lt_succ_self,⟨rest,horders⟩,hstep,hworker⟩
      · obtain ⟨p,hp,hcancels⟩ := hh
        exact ⟨h,p,m,hp,m.lt_succ_self,hcancels,⟨⟨rest,horders⟩,hstep,hworker⟩,htarget⟩
    · rw [hintent]
      exact Errand.wakesAfterCancel_errand intent

theorem Aimed.of_fire {rest : List Order} (horders : (r.errand m i).orders = .fire n :: rest) :
    r.Aimed i m n := by
  have hs := r.wakesAfterCancel i m
  rw [horders] at hs
  cases hs with
  | fire hn => exact hn
  | tame _ ho' => exact absurd rfl (ho' n)

theorem CarriesOut.told {command : Command} (hcarries : r.CarriesOut i m (.put r.handle command)) :
    r.state (m + 1) = (r.state m).told command := by
  obtain ⟨⟨rest,horders⟩,hstep,hworker⟩ := hcarries
  simp only [Errand.step, horders] at hstep
  obtain ⟨_,hw⟩ := Progress.ran.inj hstep
  rw [WorkerState.told, r.handle_eq m, hw, ← hworker]

theorem CancelReplaced.mono {p : ℕ} (hreplaced : r.CancelReplaced p m) (hmz : m < z) :
    r.CancelReplaced p z := by
  refine hreplaced.imp_right ?_
  rintro ⟨k,hpk,hkm,haccepts⟩
  exact ⟨k,hpk,hkm.trans hmz,haccepts⟩

/-- A cancellation that is not the latest command was refused or replaced. -/
theorem CancelReplaced.of_latest {p : ℕ} (hcancels : r.CarriesOut i p (.put r.handle .cancel))
    (hpz : p < z) (hlatest : (r.state z).control.command ≠ .cancel) : r.CancelReplaced p z := by
  by_cases hterm : (r.state p).status.isTerminal = true
  · exact .inl hterm
  · refine .inr ?_
    have hput : (r.state (p + 1)).control.command = .cancel := by
      rw [hcancels.told]
      exact command_told (r.execution.sound p) hterm .cancel
    have hlater : ∀ k, p + 1 ≤ k → (r.state k).control.command = .cancel ∨
        ∃ m, p < m ∧ m < k ∧ ∃ command ≠ Command.cancel, Accepts command (r.state m)
          (r.state (m + 1)) := by
      intro k hk
      induction k, hk using Nat.le_induction with
      | base => exact .inl hput
      | succ k hk ih =>
        rcases ih with hcommand | ⟨m,hpm,hmk,haccepts⟩
        · by_cases hsame : (r.state (k + 1)).control.command = .cancel
          · exact .inl hsame
          · rcases (r.execution.step k).accepts_or_listens
              (r.execution.sound k) with haccepts | ⟨hkeeps,_⟩
            · exact .inr ⟨k,hk,k.lt_succ_self,_,hsame,haccepts⟩
            · exact absurd (hkeeps.trans hcommand) hsame
        · exact .inr ⟨m,hpm,hmk.trans k.lt_succ_self,haccepts⟩
    exact (hlater z hpz).resolve_left hlatest

theorem SleepProgress.isAt (hgoes : r.SleepProgress s a m σ) : (r.state m).IsAt s σ := by
  induction hgoes with
  | call hat => exact hat
  | works _ _ _ hat => exact hat
  | rests _ hrest ih =>
    rw [IsAt, hrest]
    exact ih

theorem SleepProgress.le (hgoes : r.SleepProgress s a m σ) : a ≤ m := by
  induction hgoes with
  | call => exact le_rfl
  | works _ _ _ _ ih | rests _ _ ih => exact ih.trans (Nat.le_succ _)

theorem SleepProgress.fits (hgoes : r.SleepProgress s a m σ) : σ.Fits := by
  induction hgoes with
  | call => trivial
  | works _ _ hmoves => exact hmoves.fits
  | rests _ _ ih => exact ih

theorem SleepProgress.moves (hgoes : r.SleepProgress s a m σ) (hlib : lib.Plain)
    (hkeeps : ∀ k < m, (r.state k).destroys = false) (hon : ¬ σ.IsBack)
    (hworks : Works lib (r.state m) (r.state (m + 1))) :
    ∃ σ', σ.Moves s (r.state m).world (r.state m).worker.handle σ' ∧
    (r.state (m + 1)).IsAt s σ' := by
  obtain ⟨c,t,hstage,ht,hworker⟩ := hworks.strand hgoes.isAt
  have hhook := (r.controlled.interruptible hlib hkeeps).hook c (.inr ⟨_,hstage⟩)
  obtain ⟨σ',hmoves,rfl⟩ := SleepStage.moves_step hgoes.fits hon hhook ht
  refine ⟨σ',hmoves,c,?_⟩
  rw [hworks.handle_eq]
  exact congrArg Worker.stage hworker

theorem SleepProgress.follows (hgoes : r.SleepProgress s a m σ) (hlib : lib.Plain)
    (hkeeps : ∀ k < m, (r.state k).destroys = false)
    (hworks : Works lib (r.state m) (r.state (m + 1)))
    (hmoves : σ.Moves s (r.state m).world (r.state m).worker.handle σ') :
    r.SleepProgress s a (m + 1) σ' := by
  obtain ⟨σ'',hmoves',hat⟩ := hgoes.moves hlib hkeeps hmoves.not_isBack hworks
  obtain rfl := hmoves.unique hmoves'
  exact .works hgoes hworks hmoves hat

theorem SleepProgress.succ (hgoes : r.SleepProgress s a m σ) (hlib : lib.Plain)
    (hkeeps : ∀ k < m, (r.state k).destroys = false) (hon : ¬ σ.IsBack) :
    ∃ σ', r.SleepProgress s a (m + 1) σ' := by
  rcases (r.execution.step m).works_or_rests with hworks | ⟨hrest,_⟩
  · obtain ⟨σ',hmoves,hat⟩ := hgoes.moves hlib hkeeps hon hworks
    exact ⟨σ',.works hgoes hworks hmoves hat⟩
  · exact ⟨σ,.rests hgoes hrest⟩

/-- A sleep of plain code that has been called is under way at every later time, or it has come back
before. -/
theorem sleepProgress_or_returned (r : ControllersExecution lib) (hlib : lib.Plain)
    (hcalled : (r.state a).IsAt s .called) (haz : a ≤ z)
    (hkeeps : ∀ m < z, (r.state m).destroys = false) :
    (∃ σ, r.SleepProgress s a z σ) ∨ ∃ b < z, ∃ n woken stopped, r.SleepProgress s a b
      (.back n woken stopped) := by
  induction z, haz using Nat.le_induction with
  | base => exact .inl ⟨_,.call hcalled⟩
  | succ m ham ih =>
    have hbefore : ∀ k < m, (r.state k).destroys = false := fun k hk => hkeeps k (Nat.lt_succ_of_lt hk)
    rcases ih hbefore with ⟨σ,hgoes⟩ | ⟨b,hb,hback⟩
    · cases σ with
      | back n woken stopped => exact .inr ⟨m,m.lt_succ_self,n,woken,stopped,hgoes⟩
      | called | registering | look | looking | beforeWait | waiting | restoring =>
        exact .inl (hgoes.succ hlib hbefore fun hback => hback)
    · exact .inr ⟨b,hb.trans m.lt_succ_self,hback⟩

def Known (r : ControllersExecution lib) (n m : ℕ) : Prop := n < (r.state m).world.notifiers.size ∧
  ((r.state m).world.isNotified n = true → ∃ f < m, ∃ i, r.CarriesOut i f (.fire n))

theorem Known.succ (hknown : r.Known n m) (hat : (r.state m).IsAt s σ) (hn : σ.notifier = some n) :
    r.Known n (m + 1) := by
  obtain ⟨hsize,hnotified⟩ := (r.step m).notified hat hn
  refine ⟨hknown.1.trans_le hsize,fun hafter => ?_⟩
  rcases hnotified hafter with hbefore | ⟨hworker,i,rest,horders,hstep⟩
  · obtain ⟨f,hf,hfires⟩ := hknown.2 hbefore
    exact ⟨f,hf.trans m.lt_succ_self,hfires⟩
  · exact ⟨m,m.lt_succ_self,i,⟨rest,horders⟩,hstep,hworker⟩

theorem known_of_called (hat : (r.state m).IsAt s .called)
    (hworks : Works lib (r.state m) (r.state (m + 1))) :
    r.Known (r.state m).world.notifiers.size (m + 1) := by
  obtain ⟨c,t,_,ht,_⟩ := hworks.strand hat
  obtain ⟨_,hw⟩ := Progress.ran.inj ht
  have hmade : (r.state (m + 1)).world = (r.state m).world.addNotifier.2 := hw.symm
  refine ⟨?_,fun hafter => ?_⟩
  · simp [hmade, World.addNotifier]
  · rw [hmade, World.isNotified_addNotifier, World.not_isNotified_of_le le_rfl] at hafter
    cases hafter

theorem SleepProgress.known (hgoes : r.SleepProgress s a m σ) (hn : σ.notifier = some n) :
    r.Known n m := by
  induction hgoes with
  | call => cases hn
  | works hgoes hworks hmoves _ ih =>
    rcases hmoves.notifier hn with hbefore | ⟨rfl,rfl⟩
    · exact (ih hbefore).succ hgoes.isAt hbefore
    · exact known_of_called hgoes.isAt hworks
  | rests hgoes _ ih => exact (ih hn).succ hgoes.isAt hn

/-- Who has been woken has been woken by a controller. -/
theorem SleepProgress.notification (hgoes : r.SleepProgress s a m σ) (hn : σ.notification = some n) :
    ∃ f < m, ∃ i, r.CarriesOut i f (.fire n) := by
  induction hgoes with
  | call => cases hn
  | works hgoes _ hmoves _ ih =>
    rcases hmoves.notification hn with hbefore | ⟨hbefore,hnotified⟩
    · obtain ⟨f,hf,hfires⟩ := ih hbefore
      exact ⟨f,hf.trans (Nat.lt_succ_self _),hfires⟩
    · obtain ⟨f,hf,hfires⟩ := (hgoes.known hbefore).2 hnotified
      exact ⟨f,hf.trans (Nat.lt_succ_self _),hfires⟩
  | rests _ _ ih =>
    obtain ⟨f,hf,hfires⟩ := ih hn
    exact ⟨f,hf.trans (Nat.lt_succ_self _),hfires⟩

/-- The deadline of a wait is set when it begins. -/
theorem SleepProgress.deadline {previous : Option NotifierId} {deadline : ℕ}
    (hgoes : r.SleepProgress s a m σ) (hσ : σ = .waiting n previous deadline) :
    ∃ b, a ≤ b ∧ b < m ∧ deadline = (r.state b).world.after s.duration.millis := by
  induction hgoes with
  | call => cases hσ
  | @works m _ _ hgoes _ hmoves _ _ =>
    subst hσ
    generalize hτ : SleepStage.waiting n previous deadline = τ at hmoves
    cases hmoves with
    | wait =>
      cases hτ
      exact ⟨m,hgoes.le,m.lt_succ_self,rfl⟩
    | pass _ _ woken => cases woken <;> cases hτ
    | make | register | look | requested | unrequested | canceled | stop | wake | expire
    | giveBack => cases hτ
  | rests _ _ ih =>
    obtain ⟨b,hab,hb,hset⟩ := ih hσ
    exact ⟨b,hab,hb.trans (Nat.lt_succ_self _),hset⟩

theorem Lasts.succ {d : Duration} (hlasts : r.Lasts d a m) : r.Lasts d a (m + 1) := by
  obtain ⟨b,e,hab,hbe,he,htime⟩ := hlasts
  exact ⟨b,e,hab,hbe,he.trans m.lt_succ_self,htime⟩

theorem SleepProgress.full (hgoes : r.SleepProgress s a m σ) (hfull : σ.isFull = true) :
    r.Lasts s.duration a m := by
  induction hgoes with
  | call => cases hfull
  | @works m _ _ hgoes _ hmoves _ ih =>
    rcases hmoves.full hfull with hbefore | ⟨n,previous,deadline,hwaiting,htime⟩
    · exact (ih hbefore).succ
    · obtain ⟨b,hab,hb,rfl⟩ := hgoes.deadline hwaiting
      exact ⟨b,m,hab,hb,m.lt_succ_self,htime⟩
  | rests _ _ ih => exact (ih hfull).succ

/-- A look that finds something leads the worker to its stop. -/
theorem FindsStop.worker_ne (hfinds : r.FindsStop m) :
    (r.state (m + 1)).worker ≠ (r.state m).worker := by
  intro hsame
  have hpoint : (r.state (m + 1)).point = (r.state m).point := congrArg Worker.point hsame
  have hsound : Sound (r.state m) := r.execution.sound m
  obtain ⟨hworks,⟨hat,hflag⟩ | ⟨hat,hcommand⟩⟩ := hfinds
  · obtain ⟨y,hworks',hstop,_⟩ := works_goto lib hsound hat (by rw [hflag]; rfl)
    rw [hworks.unique hworks', hstop, hat] at hpoint
    cases hpoint
  · obtain ⟨y,hworks',hstop,_⟩ := works_goto lib hsound hat (by rw [Check.step, hcommand])
    rw [hworks.unique hworks', hstop, hat] at hpoint
    cases hpoint

theorem exists_findsStop_succ (ham : a ≤ m) :
    (∃ k, a ≤ k ∧ k < m + 1 ∧ r.FindsStop k) ↔ (∃ k, a ≤ k ∧ k < m ∧ r.FindsStop k) ∨ r.FindsStop m := by
  constructor
  · rintro ⟨k,hak,hkm,hfinds⟩
    rcases Nat.lt_succ_iff_lt_or_eq.mp hkm with hlt | rfl
    · exact .inl ⟨k,hak,hlt,hfinds⟩
    · exact .inr hfinds
  · rintro (⟨k,hak,hkm,hfinds⟩ | hfinds)
    · exact ⟨k,hak,hkm.trans m.lt_succ_self,hfinds⟩
    · exact ⟨m,ham,m.lt_succ_self,hfinds⟩

/-- What stops a sleep has been found by one of its looks. -/
theorem SleepProgress.stops_iff (hgoes : r.SleepProgress s a m σ) :
    σ.stops = true ↔ ∃ k, a ≤ k ∧ k < m ∧ r.FindsStop k := by
  induction hgoes with
  | call => exact ⟨nofun,fun ⟨k,hak,hka,_⟩ => absurd hka (Nat.not_lt.mpr hak)⟩
  | works hgoes hworks hmoves _ ih =>
    rw [hmoves.stops_iff, ih, exists_findsStop_succ hgoes.le, ← hgoes.isAt.point]
    exact or_congr_right ⟨fun hfound => ⟨hworks,hfound⟩,fun hfinds => hfinds.2⟩
  | rests hgoes hrest ih =>
    rw [ih, exists_findsStop_succ hgoes.le]
    exact ⟨.inl,fun hfound => hfound.resolve_right fun hfinds => hfinds.worker_ne hrest⟩

/-- A sleep that is not stopped has been woken, and then it has looked at the command and found no
cancellation. -/
theorem SleepProgress.passed (previous : Option NotifierId) {woken : Option Bool}
    (hgoes : r.SleepProgress s a m σ)
    (hσ : σ = .restoring n previous woken false ∨ σ = .back n woken false) :
    ∃ l < m, ∃ previous' early, woken = some early ∧ (r.state l).control.command ≠ .cancel ∧
      r.SleepProgress s a l (.looking n previous' (some early) .pointCommand) := by
  induction hgoes generalizing previous with
  | call => rcases hσ with hσ | hσ <;> cases hσ
  | @works m σ σ' hgoes _ hmoves _ ih =>
    cases hmoves with
    | pass n' previous' woken' hcommand =>
      cases woken' with
      | none => rcases hσ with hσ | hσ <;> cases hσ
      | some early =>
        rcases hσ with hσ | hσ <;> cases hσ
        exact ⟨m,m.lt_succ_self,previous,early,rfl,hcommand,hgoes⟩
    | giveBack n' previous' woken' stopped =>
      rcases hσ with hσ | hσ <;> cases hσ
      obtain ⟨l,hl,hpassed⟩ := ih _ (.inl rfl)
      exact ⟨l,hl.trans m.lt_succ_self,hpassed⟩
    | make | register | look | requested | unrequested | canceled | stop | wait | wake | expire =>
      rcases hσ with hσ | hσ <;> cases hσ
  | rests _ _ ih =>
    obtain ⟨l,hl,hpassed⟩ := ih previous hσ
    exact ⟨l,hl.trans (Nat.lt_succ_self _),hpassed⟩

/-- What a sleep comes back with, whose notifier nobody else registers.  It is a stop exactly if one
of its looks has found a shutdown or a cancellation.  If it is none, then the sleep has waited for
all its time; or a controller has woken it, but its cancellation was refused or has been replaced by
a later command. -/
theorem sleep_returns (r : ControllersExecution lib) {woken : Option Bool} {stopped : Bool}
    (hown : ∀ m < z, ∀ h, ((r.state m).world.handle h).target = some n → h = r.handle)
    (hback : r.SleepProgress s a z (.back n woken stopped)) :
    (stopped = true ↔ ∃ m, a ≤ m ∧ m < z ∧ r.FindsStop m) ∧
      (stopped = false → woken = some false ∧ r.Lasts s.duration a z ∨
        woken = some true ∧ ∃ i p q f, r.CancelsAndWakes i p q f n ∧ f < z ∧ r.CancelReplaced p z) := by
  refine ⟨hback.stops_iff,?_⟩
  rintro rfl
  obtain ⟨l,hlz,previous,early,rfl,hcommand,hlook⟩ := hback.passed none (.inr rfl)
  cases early with
  | false => exact .inl ⟨rfl,hback.full rfl⟩
  | true =>
    refine .inr ⟨rfl,?_⟩
    obtain ⟨f,hfl,i,hfires⟩ := hlook.notification rfl
    obtain ⟨rest,horders⟩ := hfires.order
    obtain ⟨h,p,q,hpq,hqf,hcancels,hreads,htarget⟩ := Aimed.of_fire horders
    have hfz := hfl.trans hlz
    obtain rfl := hown q (hqf.trans hfz) h htarget
    have hreplaced := CancelReplaced.of_latest hcancels ((hpq.trans hqf).trans hfl) hcommand
    exact ⟨i,p,q,f,⟨hcancels,hreads,htarget,hfires,hpq,hqf⟩,hfz,hreplaced.mono hlz⟩

inductive Actor where
  | work
  | enter (i : ℕ) (intent : Intent)
  | order (i : ℕ)

def follow (lib : Library U N) (x : WorkerState U N × (ℕ → Errand)) :
    Actor → WorkerState U N × (ℕ → Errand)
  | .work =>
    match x.1.worker.step lib x.1.world with
    | .ran worker w => (⟨w,worker⟩,x.2)
    | .blocked _ => x
  | .enter i intent => if (x.2 i).isDone then (x.1,Function.update x.2 i intent.errand) else x
  | .order i =>
    match (x.2 i).step x.1.world with
    | .ran e w => (⟨w,x.1.worker⟩,Function.update x.2 i e)
    | .blocked _ => x

theorem controllersStep_follow (lib : Library U N) (x : WorkerState U N × (ℕ → Errand)) (actor : Actor) :
    ControllersStep lib x.1 x.2 (follow lib x actor).1 (follow lib x actor).2 := by
  cases actor with
  | work =>
    simp only [follow]
    split
    · rename_i hworks
      exact .worker hworks
    · exact .refl lib _ _
  | enter i intent =>
    simp only [follow]
    split
    · rename_i hdone
      exact .enter i intent hdone
    · exact .refl lib _ _
  | order i =>
    simp only [follow]
    split
    · rename_i hstep
      exact .order i hstep
    · exact .refl lib _ _

def along (lib : Library U N) (x : WorkerState U N) (schedule : ℕ → Actor) :
    ℕ → WorkerState U N × (ℕ → Errand)
  | 0 => (x,fun _ => { orders := [] })
  | m + 1 => follow lib (along lib x schedule m) (schedule m)

def scheduled (lib : Library U N) (hx : Launched x) (schedule : ℕ → Actor) :
    ControllersExecution lib where
  state m := (along lib x schedule m).1
  errand m := (along lib x schedule m).2
  launched := hx
  idle _ := rfl
  step m := controllersStep_follow lib _ (schedule m)

theorem works_scheduled (hx : Launched x) {schedule : ℕ → Actor} {m : ℕ}
    {worker : Worker (Frame U N)} {w : World} (hactor : schedule m = .work)
    (hstep : (along lib x schedule m).1.worker.step lib (along lib x schedule m).1.world =
      .ran worker w) :
    Works lib ((scheduled lib hx schedule).state m)
      ((scheduled lib hx schedule).state (m + 1)) := by
  have hnext : (scheduled lib hx schedule).state (m + 1) = ⟨w,worker⟩ := by
    simp only [scheduled, along, hactor, follow, hstep]
  rw [hnext]
  exact hstep

/-- The worker lies down, one controller cancels it and wakes it, and another has it go on before it
looks. -/
def replacedCancel (m : ℕ) : Actor :=
  ([.work,.work,.work,.work,.work,.work,.work,.work,.work,.work,.enter 0 (.cancel 0 none),
    .order 0,.order 0,
    .order 0,.enter 1 (.resume 0),.order 1] : List Actor).getD m .work

def interruptedSleep : ControllersExecution sleepingCode :=
  scheduled sleepingCode launched_fresh replacedCancel

def longSleep : Sleep (Frame Unit Unit) where
  duration := .ofMillis 1000
  role := .step []
  resume _ := .done (.own (),.finish [])
  callers := [⟨.outside,.done⟩]

theorem keeps_interruptedSleep : ∀ k < 21, (interruptedSleep.state k).destroys = false := by decide

theorem called_interruptedSleep : (interruptedSleep.state 4).IsAt longSleep .called := by
  have hadvance : sleepingCode.advance (.own ()) = (Act.sleepFor longSleep.duration).bind
      longSleep.resume :=
    Act.bind_assoc ..
  exact ⟨0,congrArg (fun act => Stage.running 0 ⟨.acting longSleep.role act,longSleep.callers⟩) hadvance⟩

/-- The sleep is woken, and comes back as if nothing had happened. -/
theorem sleepProgress_interruptedSleep :
    interruptedSleep.SleepProgress longSleep 4 21 (.back 0 (some true) false) := by
  have hworks : ∀ {m σ σ' worker w}, m < 21 → interruptedSleep.SleepProgress longSleep 4 m σ →
    replacedCancel m = .work →
      (interruptedSleep.state m).worker.step sleepingCode (interruptedSleep.state m).world =
      .ran worker w →
        σ.Moves longSleep (interruptedSleep.state m).world 0 σ' →
        interruptedSleep.SleepProgress longSleep 4 (m + 1) σ' := by
    intro m σ σ' worker w hm hgoes hactor hstep hmoves
    have hhandle : (interruptedSleep.state m).worker.handle = 0 := interruptedSleep.handle_eq m
    refine hgoes.follows plain_sleepingCode (fun k hk => keeps_interruptedSleep k (hk.trans hm))
      (works_scheduled _ hactor hstep) ?_
    rwa [hhandle]
  have hmade : interruptedSleep.SleepProgress longSleep 4 5 (.registering 0) :=
    hworks (by decide) (.call called_interruptedSleep) rfl rfl .make
  have hlook : interruptedSleep.SleepProgress longSleep 4 6 (.look 0 none none) :=
    hworks (by decide) hmade rfl rfl (.register 0)
  have hflag : interruptedSleep.SleepProgress longSleep 4 7 (.looking 0 none none .pointShutdown) :=
    hworks (by decide) hlook rfl rfl (.look ..)
  have hcommand : interruptedSleep.SleepProgress longSleep 4 8 (.looking 0 none none .pointCommand) :=
    hworks (by decide) hflag rfl rfl (.unrequested _ _ _ rfl)
  have hsleep : interruptedSleep.SleepProgress longSleep 4 9 (.beforeWait 0 none) :=
    hworks (by decide) hcommand rfl rfl (.pass _ _ _ (by decide))
  have hwait : interruptedSleep.SleepProgress longSleep 4 10 (.waiting 0 none 100000) :=
    hworks (by decide) hsleep rfl rfl (.wait ..)
  have hwoken : interruptedSleep.SleepProgress longSleep 4 16 (.waiting 0 none 100000) :=
    .rests (.rests (.rests (.rests (.rests (.rests hwait rfl) rfl) rfl) rfl) rfl) rfl
  have hlook' : interruptedSleep.SleepProgress longSleep 4 17 (.look 0 none (some true)) :=
    hworks (by decide) hwoken rfl rfl (.wake _ _ _ rfl)
  have hflag' : interruptedSleep.SleepProgress longSleep 4 18
      (.looking 0 none (some true) .pointShutdown) :=
    hworks (by decide) hlook' rfl rfl (.look ..)
  have hcommand' : interruptedSleep.SleepProgress longSleep 4 19
      (.looking 0 none (some true) .pointCommand) :=
    hworks (by decide) hflag' rfl rfl (.unrequested _ _ _ rfl)
  have hrising : interruptedSleep.SleepProgress longSleep 4 20 (.restoring 0 none (some true) false) :=
    hworks (by decide) hcommand' rfl rfl (.pass _ _ _ (by decide))
  exact hworks (by decide) hrising rfl rfl (.giveBack ..)

/-- A sleep that is cut short by a cancellation that is replaced. -/
theorem sleep_returns_interruptedSleep :
    ((∀ m < 21, ∀ h, ((interruptedSleep.state m).world.handle h).target = some 0 →
      h = interruptedSleep.handle) ∧
      interruptedSleep.SleepProgress longSleep 4 21 (.back 0 (some true) false)) ∧
      (false = true ↔ ∃ m, 4 ≤ m ∧ m < 21 ∧ interruptedSleep.FindsStop m) ∧
        (false = false → some true = some false ∧ interruptedSleep.Lasts longSleep.duration 4 21 ∨
          some true = some true ∧ ∃ i p q f, interruptedSleep.CancelsAndWakes i p q f 0 ∧ f < 21 ∧
          interruptedSleep.CancelReplaced p 21) := by
  have hown : ∀ m < 21, ∀ h, ((interruptedSleep.state m).world.handle h).target = some 0 →
      h = interruptedSleep.handle := by
    intro m hm h htarget
    have hsize : ∀ m < 21, (interruptedSleep.state m).world.handles.size = 1 := by decide
    by_contra hother
    have hout : (interruptedSleep.state m).world.handles.size ≤ h :=
      (hsize m hm).trans_le (Nat.one_le_iff_ne_zero.mpr hother)
    rw [World.handle, Array.getElem?_eq_none hout] at htarget
    cases htarget
  exact ⟨⟨hown,sleepProgress_interruptedSleep⟩,interruptedSleep.sleep_returns hown
    sleepProgress_interruptedSleep⟩

/-- Not every sleep that was woken comes back with a stop. -/
theorem woken_sleep_succeeds :
    ¬ ∀ (r : ControllersExecution sleepingCode) (s : Sleep (Frame Unit Unit)) (a z n : ℕ)
      (stopped : Bool), r.SleepProgress s a z (.back n (some true) stopped) → stopped = true := by
  intro hstops
  have hstopped := hstops interruptedSleep longSleep 4 21 0 false sleepProgress_interruptedSleep
  cases hstopped

end ControllersExecution

end WorkerState

end Workers
