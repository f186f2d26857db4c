import Workers.Proofs.Control.Points
/-! # No command is lost to a paused worker

A worker acknowledges a pause, which resets its command notifier, and waits for the notifier until
it finds another command.  The notifier is only reset for a pause that is still the latest command,
so whatever is put after that, and in whatever order, ends the wait.

The lock of the control is held for one step, notifiers included: they are only written under the
lock, and what a wait sees in the middle of such a step it also sees before or after it.
-/
namespace Workers

namespace Command

def reaction : Command → Check
  | run => .resume
  | cancel => .stop
  | pause => .acknowledge

def outcome : Command → Status
  | run => .running
  | cancel => .canceled
  | pause => .paused

end Command

/-- In the loop of a pause, a command that is not a pause is still news. -/
def Control.CommandIsNews (control : Control) (point : Option Check) : Prop :=
  point = some .acknowledge ∨ point = some .awaitCommand →
    control.command = .pause ∨ control.commandChanged.latched = true

variable {control control' : Control} {point point' : Option Check}

theorem Control.CommandIsNews.put (hnews : control.CommandIsNews point) (command : Command) :
    (control.putCommand command).CommandIsNews point := by
  unfold Control.putCommand
  split
  · exact hnews
  · exact fun _ => .inr rfl

/-- The pause loop is only entered, and only goes round, for a pause that has just been read. -/
theorem Control.CommandIsNews.passage (hpass : Check.Passage control point control' point')
    (hnews : control.CommandIsNews point) :
    control'.CommandIsNews point' := by
  cases hpass with
  | rest => exact hnews
  | enter _ kind => rintro (hat | hat) <;> cases kind <;> cases hat
  | finish | announce => simp [Control.CommandIsNews]
  | goto hmove =>
    rcases Check.goto_cases hmove with ⟨rfl,rfl,rfl⟩ | ⟨rfl,hnext⟩
    · intro _
      unfold Control.acknowledgePause
      split
      · rename_i hpause
        exact .inl hpause
      · exact hnews (.inl rfl)
    · rcases hnext with hharmless | ⟨rfl,hpause⟩ | ⟨_,rfl,_⟩ | ⟨_,rfl,_⟩
      · rintro (hat | hat) <;> cases hat <;> exact hharmless.elim
      · exact fun _ => .inl hpause
      · simp [Control.CommandIsNews]
      · simp [Control.CommandIsNews]

namespace WorkerState

variable {U N : Type} {lib : Library U N} {x y z : WorkerState U N}

theorem Reachable.commandIsNews (hx : Reachable lib x) : x.control.CommandIsNews x.point :=
  hx.kept (by simp [Control.CommandIsNews]) (fun hpass hnews => hnews.passage hpass)
    fun command hnews => hnews.put command

theorem works_await (lib : Library U N) (hx : Sound x) (hat : x.point = some .awaitCommand)
    (hlatched : x.control.commandChanged.latched = true) :
    ∃ y, Works lib x y ∧ y.point = some .reconsider ∧ y.control = x.control :=
  works_goto lib hx hat (if_pos hlatched)

theorem works_reconsider (lib : Library U N) (hx : Sound x) (hat : x.point = some .reconsider) :
    ∃ y, Works lib x y ∧ y.point = some x.control.command.reaction ∧ y.control = x.control := by
  refine works_goto lib hx hat ?_
  unfold Check.step Command.reaction
  cases x.control.command <;> rfl

/-- What the worker does about a command, it does in its next step, and its status tells. -/
theorem works_reaction (lib : Library U N) (hx : Sound x)
    (hat : x.point = some x.control.command.reaction) :
    ∃ y, Works lib x y ∧ y.status = x.control.command.outcome := by
  cases hcommand : x.control.command with
  | run =>
    rw [hcommand] at hat
    obtain ⟨y,hworks,_,hcontrol⟩ := works_finish lib hx hat rfl
    exact ⟨y,hworks,congrArg Control.status hcontrol⟩
  | cancel =>
    rw [hcommand] at hat
    obtain ⟨y,hworks,_,hcontrol⟩ := works_finish lib hx hat rfl
    exact ⟨y,hworks,congrArg Control.status hcontrol⟩
  | pause =>
    rw [hcommand] at hat
    obtain ⟨y,hworks,_,hcontrol⟩ := works_goto lib hx hat rfl
    refine ⟨y,hworks,?_⟩
    rw [status, hcontrol, Control.acknowledgePause, if_pos hcommand]
    rfl

def Accepts (command : Command) (x y : WorkerState U N) : Prop :=
  ¬ x.status.isTerminal = true ∧ y = x.told command

theorem control_told_of_terminal (hx : Sound x) (hterm : x.status.isTerminal = true)
    (command : Command) :
    (x.told command).control = x.control :=
  (control_told hx command).trans (if_pos hterm)

theorem command_told (hx : Sound x) (hterm : ¬ x.status.isTerminal = true) (command : Command) :
    (x.told command).control.command = command := by
  have hput : x.control.putCommand command = _ := if_neg hterm
  rw [control_told hx, hput]

/-- A worker that waits for news does not move before it comes. -/
theorem passage_await {control control' : Control} {point : Option Check}
    (hpass : Check.Passage control (some .awaitCommand) control' point)
    (hlatch : control.commandChanged.latched = false) :
    point = some .awaitCommand ∧ control' = control := by
  cases hpass with
  | rest => exact ⟨rfl,rfl⟩
  | goto hmove =>
    rw [Check.step, if_neg (by simp [hlatch])] at hmove
    cases hmove
  | finish hmove =>
    rw [Check.step, if_neg (by simp [hlatch])] at hmove
    cases hmove

def Listens (x : WorkerState U N) : Prop :=
  x.point = some .awaitCommand ∧ x.control.commandChanged.latched = false

/-- A step has a command accepted, or it keeps the latest one and a worker that waits waiting. -/
theorem Step.accepts_or_listens (hstep : Step lib x y) (hx : Sound x) :
    Accepts y.control.command x y ∨ y.control.command = x.control.command ∧ (x.Listens → y.Listens) := by
  rcases hstep.passage_or_told hx with hpass | ⟨command,rfl⟩
  · refine .inr ⟨hpass.command,fun ⟨hwait,hquiet⟩ => ?_⟩
    rw [hwait] at hpass
    obtain ⟨hpoint,hcontrol⟩ := passage_await hpass hquiet
    exact ⟨hpoint,hcontrol ▸ hquiet⟩
  · by_cases hterm : x.status.isTerminal = true
    · have hcontrol := control_told_of_terminal hx hterm command
      exact .inr ⟨congrArg Control.command hcontrol,fun ⟨hwait,hquiet⟩ => ⟨hwait,hcontrol ▸ hquiet⟩⟩
    · rw [command_told hx hterm]
      exact .inl ⟨hterm,rfl⟩

/-- Since a pause was acknowledged the worker has been waiting for news, or a command has been
accepted and is still the latest. -/
theorem waits_or_accepted (hx : Sound x) (hat : x.point = some .awaitCommand)
    (hlatch : x.control.commandChanged.latched = false) (hsteps : Steps lib x y) :
    (y.point = some .awaitCommand ∧ y.control.commandChanged.latched = false) ∨
      ∃ u v, Steps lib x u ∧ Accepts y.control.command u v ∧ Steps lib v y := by
  induction hsteps with
  | refl => exact .inl ⟨hat,hlatch⟩
  | @tail y z hsteps hstep ih =>
    rcases hstep.accepts_or_listens (Steps.sound hsteps hx) with haccepts | ⟨hcommand,hlistens⟩
    · exact .inr ⟨y,z,hsteps,haccepts,.refl⟩
    · rcases ih with hwaits | ⟨u,v,hu,haccepts,hv⟩
      · exact .inl (hlistens hwaits)
      · rw [hcommand]
        exact .inr ⟨u,v,hu,haccepts,hv.tail hstep⟩

theorem works_acknowledge (hx : Sound x) (hat : x.point = some .acknowledge)
    (hpause : x.control.command = .pause) (hworks : Works lib x y) :
    y.point = some .awaitCommand ∧ y.control.commandChanged.latched = false := by
  obtain ⟨z,hworks',hpoint,hcontrol⟩ := works_goto lib hx hat rfl
  obtain rfl := hworks.unique hworks'
  refine ⟨hpoint,?_⟩
  rw [hcontrol, Control.acknowledgePause, if_pos hpause]
  rfl

/-- What is true of a worker in the loop of its pause, from the acknowledgement to the reaction. -/
structure Attentive (lib : Library U N) (x : WorkerState U N) : Prop where
  latched : x.point = some .acknowledge ∨ x.point = some .awaitCommand → x.control.command ≠ .pause →
    x.control.commandChanged.latched = true
  returns : x.point = some .awaitCommand → x.control.command ≠ .pause →
    ∃ y, Works lib x y ∧ y.point = some .reconsider ∧ y.control = x.control
  obeys : x.point = some .reconsider → ∃ y z, Works lib x y ∧ y.point = some x.control.command.reaction ∧
    Works lib y z ∧ z.status = x.control.command.outcome
  newer : ∀ a b, Reachable lib a → a.point = some .acknowledge → a.control.command = .pause →
      Works lib a b →
    Steps lib b x → x.point = some .reconsider →
    ∃ u v, Steps lib b u ∧ Accepts x.control.command u v ∧ Steps lib v x

theorem attentive (hx : Reachable lib x) : Attentive lib x where
  latched hat hcommand := (hx.commandIsNews hat).resolve_left hcommand
  returns hat hcommand := works_await lib hx.sound hat
    ((hx.commandIsNews (.inr hat)).resolve_left hcommand)
  obeys hat := by
    obtain ⟨y,hworks,hpoint,hcontrol⟩ := works_reconsider lib hx.sound hat
    have hy : Sound y := hworks.step.sound hx.sound
    rw [← hcontrol] at hpoint ⊢
    obtain ⟨z,hworks',hstatus⟩ := works_reaction lib hy hpoint
    exact ⟨y,z,hworks,hpoint,hworks',hstatus⟩
  newer a b ha hat hpause hworks hsteps hpoint := by
    have hb : Sound b := hworks.step.sound ha.sound
    obtain ⟨hwait,hlatch⟩ := works_acknowledge ha.sound hat hpause hworks
    rcases waits_or_accepted hb hwait hlatch hsteps with ⟨hwait',_⟩ | haccepted
    · rw [hpoint] at hwait'
      cases hwait'
    · exact haccepted

def woken : WorkerState Unit Unit := put .run (go 3 (put .pause (go 5 fresh)))

theorem attentive_woken : Reachable tickingTwice woken ∧ Attentive tickingTwice woken ∧
    woken.point = some .awaitCommand ∧ woken.control.command = .run := by
  have hpause := (steps_go 5 fresh).trans (steps_put .pause _)
  have hreach : Reachable tickingTwice woken :=
    ⟨fresh,launched_fresh,(hpause.trans (steps_go 3 _)).trans (steps_put .run _)⟩
  exact ⟨hreach,attentive hreach,by decide,by decide⟩

end WorkerState

end Workers
