import Workers.Proofs.Call.Sleep
/-! # A sleep from the call to the return

The points of a sleep with what it has found out so far, and the steps between them.  The sleep looks for
a reason to stop before its wait and after it, and comes back with what its last look has found.
-/
namespace Workers

structure Sleep (F : Type) where
  duration : Duration
  role : Role F
  resume : Bool → Act role.Report
  callers : List (Caller F)

/-- How far a sleep is.  Before its wait it has not been woken; after it, it remembers whether it
was woken by a notification. -/
inductive SleepStage where
  | called
  | registering (n : NotifierId)
  | look (n : NotifierId) (previous : Option NotifierId) (woken : Option Bool)
  | looking (n : NotifierId) (previous : Option NotifierId) (woken : Option Bool) (at_ : Check)
  | beforeWait (n : NotifierId) (previous : Option NotifierId)
  | waiting (n : NotifierId) (previous : Option NotifierId) (deadline : Nat)
  | restoring (n : NotifierId) (previous : Option NotifierId) (woken : Option Bool) (stopped : Bool)
  | back (n : NotifierId) (woken : Option Bool) (stopped : Bool)

namespace SleepStage

def notifier : SleepStage → Option NotifierId
  | registering n | look n _ none | looking n _ none _ | beforeWait n _ | waiting n _ _ => some n
  | called | look _ _ (some _) | looking _ _ (some _) _ | restoring .. | back .. => none

def notification : SleepStage → Option NotifierId
  | look n _ (some true) | looking n _ (some true) _ | restoring n _ (some true) _
  | back n (some true) _ => some n
  | _ => none

def isFull : SleepStage → Bool
  | look _ _ (some false) | looking _ _ (some false) _ | restoring _ _ (some false) _
  | back _ (some false) _ => true
  | _ => false

def stops : SleepStage → Bool
  | looking _ _ _ .stop => true
  | restoring _ _ _ stopped | back _ _ stopped => stopped
  | _ => false

def afterLook (n : NotifierId) (d : Duration) (previous : Option NotifierId) :
    Option Bool → Bool → Act Bool
  | none => Act.proceedToWait n d previous
  | some _ => Act.restoreTarget previous

def point : SleepStage → Option Check
  | looking _ _ _ at_ => some at_
  | _ => none

variable {F : Type}

def phase (s : Sleep F) (h : WorkerId) : SleepStage → Phase F
  | called => .acting s.role ((Act.sleepFor s.duration).bind s.resume)
  | registering n => .acting s.role ((Act.registerTarget n s.duration).bind s.resume)
  | look n previous woken =>
    .acting s.role (.check .point fun stopped =>
      (afterLook n s.duration previous woken stopped).bind s.resume)
  | looking n previous woken at_ =>
    .checking (.worker h at_) s.role fun stopped =>
      (afterLook n s.duration previous woken stopped).bind s.resume
  | beforeWait n previous => .acting s.role ((Act.waitAndLook n s.duration previous).bind s.resume)
  | waiting n previous deadline =>
    .waiting n deadline s.role fun _ => .check .point fun stopped =>
      (Act.restoreTarget previous stopped).bind s.resume
  | restoring _ previous _ stopped => .acting s.role ((Act.restoreTarget previous stopped).bind s.resume)
  | back _ _ stopped => .acting s.role (s.resume stopped)

def strand (s : Sleep F) (h : WorkerId) (σ : SleepStage) : Strand F := ⟨σ.phase s h,s.callers⟩

def looked (n : NotifierId) (previous : Option NotifierId) : Option Bool → SleepStage
  | none => beforeWait n previous
  | some early => restoring n previous (some early) false

inductive Moves (s : Sleep F) (w : World) (h : WorkerId) : SleepStage → SleepStage → Prop
  | make : Moves s w h called (registering w.notifiers.size)
  | register (n : NotifierId) : Moves s w h (registering n) (look n (w.handle h).target none)
  | look (n : NotifierId) (previous : Option NotifierId) (woken : Option Bool) :
      Moves s w h (look n previous woken) (looking n previous woken .pointShutdown)
  | requested (n : NotifierId) (previous : Option NotifierId) (woken : Option Bool)
      (hflag : (w.pool (w.handle h).pool).requested = true) :
      Moves s w h (looking n previous woken .pointShutdown) (looking n previous woken .stop)
  | unrequested (n : NotifierId) (previous : Option NotifierId) (woken : Option Bool)
      (hflag : (w.pool (w.handle h).pool).requested = false) :
      Moves s w h (looking n previous woken .pointShutdown) (looking n previous woken .pointCommand)
  | canceled (n : NotifierId) (previous : Option NotifierId) (woken : Option Bool)
      (hcommand : (w.handle h).control.command = .cancel) :
      Moves s w h (looking n previous woken .pointCommand) (looking n previous woken .stop)
  | pass (n : NotifierId) (previous : Option NotifierId) (woken : Option Bool)
      (hcommand : (w.handle h).control.command ≠ .cancel) :
      Moves s w h (looking n previous woken .pointCommand) (looked n previous woken)
  | stop (n : NotifierId) (previous : Option NotifierId) (woken : Option Bool) :
      Moves s w h (looking n previous woken .stop) (restoring n previous woken true)
  | wait (n : NotifierId) (previous : Option NotifierId) :
      Moves s w h (beforeWait n previous) (waiting n previous (w.after s.duration.millis))
  | wake (n : NotifierId) (previous : Option NotifierId) (deadline : Nat) (hn : w.isNotified n = true) :
      Moves s w h (waiting n previous deadline) (SleepStage.look n previous (some true))
  | expire (n : NotifierId) (previous : Option NotifierId) (deadline : Nat)
      (hn : w.isNotified n = false) (htime : deadline ≤ w.clock) :
      Moves s w h (waiting n previous deadline) (SleepStage.look n previous (some false))
  | giveBack (n : NotifierId) (previous : Option NotifierId) (woken : Option Bool) (stopped : Bool) :
      Moves s w h (restoring n previous woken stopped) (back n woken stopped)

def Fits : SleepStage → Prop
  | looking _ _ _ at_ => at_.OfPoint
  | _ => True

def IsBack : SleepStage → Prop
  | back .. => True
  | _ => False

variable {U N : Type} {lib : Library U N} {s : Sleep (Frame U N)} {σ σ' : SleepStage}
    {c : ContextId} {h : WorkerId}
variable {w w' : World} {t : Strand (Frame U N)}

theorem exit_strand (s : Sleep (Frame U N)) (h : WorkerId) (σ : SleepStage) :
    (σ.strand s h).exit? = none := by
  cases σ <;> rfl

theorem Moves.fits (hmoves : σ.Moves s w h σ') : σ'.Fits := by
  cases hmoves with
  | pass n previous woken => cases woken <;> trivial
  | make | register | look | requested | unrequested | canceled | stop | wait | wake | expire
  | giveBack => trivial

theorem Moves.not_isBack (hmoves : σ.Moves s w h σ') : ¬ σ.IsBack := by
  cases hmoves <;> exact id

theorem Moves.unique {σ'' : SleepStage} (hmoves : σ.Moves s w h σ') (hmoves' : σ.Moves s w h σ'') :
    σ' = σ'' := by
  cases hmoves with
  | requested n previous woken hflag =>
    cases hmoves' with
    | requested => rfl
    | unrequested _ _ _ hflag' => cases hflag.symm.trans hflag'
  | unrequested n previous woken hflag =>
    cases hmoves' with
    | unrequested => rfl
    | requested _ _ _ hflag' => cases hflag.symm.trans hflag'
  | canceled n previous woken hcommand =>
    cases hmoves' with
    | canceled => rfl
    | pass _ _ _ hcommand' => exact absurd hcommand hcommand'
  | pass n previous woken hcommand =>
    cases hmoves' with
    | pass => rfl
    | canceled _ _ _ hcommand' => exact absurd hcommand' hcommand
  | wake n previous deadline hn =>
    cases hmoves' with
    | wake => rfl
    | expire _ _ _ hn' => cases hn.symm.trans hn'
  | expire n previous deadline hn =>
    cases hmoves' with
    | expire => rfl
    | wake _ _ _ hn' => cases hn.symm.trans hn'
  | make | register | look | stop | wait | giveBack =>
    cases hmoves'
    rfl

theorem Moves.notifier (hmoves : σ.Moves s w h σ') {n : NotifierId} (hn : σ'.notifier = some n) :
    σ.notifier = some n ∨ σ = .called ∧ n = w.notifiers.size := by
  cases hmoves with
  | make => exact .inr ⟨rfl,(Option.some.inj hn).symm⟩
  | look n previous woken | requested n previous woken | unrequested n previous woken
  | canceled n previous woken | pass n previous woken => cases woken <;> exact .inl hn
  | register | wait => exact .inl hn
  | stop | wake | expire | giveBack => cases hn

/-- Who is woken finds its notifier notified. -/
theorem Moves.notification (hmoves : σ.Moves s w h σ') {n : NotifierId} (hn : σ'.notification = some n) :
    σ.notification = some n ∨ σ.notifier = some n ∧ w.isNotified n = true := by
  cases hmoves with
  | wake n previous deadline hnotified =>
    cases hn
    exact .inr ⟨rfl,hnotified⟩
  | look n previous woken | requested n previous woken | unrequested n previous woken
  | canceled n previous woken | pass n previous woken | stop n previous woken
  | giveBack n previous woken =>
    rcases woken with _ | _ | _ <;> exact .inl hn
  | make | register | wait | expire => cases hn

theorem Moves.full (hmoves : σ.Moves s w h σ') (hfull : σ'.isFull = true) :
    σ.isFull = true ∨ ∃ n previous deadline, σ = .waiting n previous deadline ∧ deadline ≤ w.clock := by
  cases hmoves with
  | expire n previous deadline _ htime => exact .inr ⟨n,previous,deadline,rfl,htime⟩
  | look n previous woken | requested n previous woken | unrequested n previous woken
  | canceled n previous woken | pass n previous woken | stop n previous woken
  | giveBack n previous woken =>
    rcases woken with _ | _ | _ <;> exact .inl hfull
  | make | register | wait | wake => cases hfull

/-- Whatever stops a sleep is found by a look. -/
theorem Moves.stops_iff (hmoves : σ.Moves s w h σ') : σ'.stops = true ↔ σ.stops = true ∨
    σ.point = some .pointShutdown ∧ (w.pool (w.handle h).pool).requested = true ∨
      σ.point = some .pointCommand ∧ (w.handle h).control.command = .cancel := by
  cases hmoves with
  | requested n previous woken hflag => simp [stops, point, hflag]
  | unrequested n previous woken hflag => simp [stops, point, hflag]
  | canceled n previous woken hcommand => simp [stops, point, hcommand]
  | pass n previous woken hcommand => cases woken <;> simp [stops, looked, point, hcommand]
  | make | register | look | stop | wait | wake | expire | giveBack => simp [stops, point]

/-- The steps of the code in a sleep are those of the sleep. -/
theorem moves_step (hfits : σ.Fits) (hon : ¬ σ.IsBack) (hhook : (w.context c).hook = some (.worker h))
    (hstep : (σ.strand s h).step lib c w = .ran t w') : ∃ σ', σ.Moves s w h σ' ∧ t = σ'.strand s h := by
  cases σ with
  | called =>
    cases hstep
    exact ⟨_,.make,rfl⟩
  | registering n =>
    have hprevious : (w.answer c (.retarget (some n))).1 = (w.handle h).target := by
      rw [World.answer, hhook]
      rfl
    cases hstep
    exact ⟨_,.register n,congrArg (fun previous => (look n previous none).strand s h) hprevious⟩
  | look n previous woken =>
    simp only [strand, phase, Strand.step, Strand.stepAct, hhook] at hstep
    cases hstep
    exact ⟨_,.look n previous woken,rfl⟩
  | looking n previous woken at_ =>
    cases at_ with
    | pointShutdown =>
      cases hflag : (w.pool (w.handle h).pool).requested <;>
        simp only [strand, phase, Strand.step, Probe.step, Check.step, hflag] at hstep <;> cases hstep
      · exact ⟨_,.unrequested n previous woken hflag,rfl⟩
      · exact ⟨_,.requested n previous woken hflag,rfl⟩
    | pointCommand =>
      cases hcommand : (w.handle h).control.command with
      | cancel =>
        simp only [strand, phase, Strand.step, Probe.step, Check.step, hcommand] at hstep
        cases hstep
        exact ⟨_,.canceled n previous woken hcommand,rfl⟩
      | run | pause =>
        simp only [strand, phase, Strand.step, Probe.step, Check.step, hcommand] at hstep
        cases hstep
        have hnot : (w.handle h).control.command ≠ .cancel := by
          rw [hcommand]
          nofun
        exact ⟨_,.pass n previous woken hnot,by cases woken <;> rfl⟩
    | stop =>
      cases hstep
      cases woken <;> exact ⟨_,.stop n previous _,rfl⟩
    | tickShutdown | tickCommand | acknowledge | awaitCommand | reconsider | resume => exact hfits.elim
  | beforeWait n previous =>
    cases hstep
    exact ⟨_,.wait n previous,rfl⟩
  | waiting n previous deadline =>
    simp only [strand, phase, Strand.step] at hstep
    split at hstep
    · rename_i hn
      cases hstep
      exact ⟨_,.wake n previous deadline hn,rfl⟩
    · rename_i hn
      split at hstep
      · rename_i htime
        cases hstep
        exact ⟨_,.expire n previous deadline (eq_false_of_ne_true hn) htime,rfl⟩
      · cases hstep
  | restoring n previous woken stopped =>
    cases hstep
    exact ⟨_,.giveBack n previous woken stopped,rfl⟩
  | back n woken stopped => exact absurd trivial hon

/-- Until it is woken a sleep leaves the notifiers alone. -/
theorem notifiers_step (hn : σ.notifier.isSome) (hstep : (σ.strand s h).step lib c w = .ran t w') :
    w'.notifiers = w.notifiers := by
  cases σ with
  | called | restoring | back => cases hn
  | registering n =>
    cases hstep
    dsimp only
    split <;> rfl
  | look n previous woken =>
    simp only [strand, phase, Strand.step, Strand.stepAct] at hstep
    split at hstep <;> cases hstep <;> rfl
  | looking n previous woken at_ =>
    simp only [strand, phase, Strand.step, Probe.step] at hstep
    split at hstep <;> rename_i hprobe <;> split at hprobe <;> cases hprobe <;> cases hstep <;> rfl
  | beforeWait n previous =>
    cases hstep
    rfl
  | waiting n previous deadline =>
    simp only [strand, phase, Strand.step] at hstep
    split at hstep
    · cases hstep
      rfl
    · split at hstep <;> cases hstep
      rfl

end SleepStage

end Workers
