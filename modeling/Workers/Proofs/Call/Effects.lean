import Workers.Proofs.Call.Transitions
/-! # What running code does to the world

A step of running code answers a query, or it is a step of a check, which writes to the control of a
worker or to a gauge; the outcome of a check is remembered in the context.  Everything else stays
within the code.
-/
namespace Workers

namespace Probe

inductive Writes (w : World) : World → Prop
  | control (h : WorkerId) (control : Control) : Writes w (w.setHandle h { w.handle h with control })
  | gauge (g : GaugeId) (gauge : Gauge) : Writes w (w.setGauge g gauge)

variable {probe next : Probe} {stopped : Bool} {w w' : World}

theorem writes_goto (hprobe : probe.step w = .goto next w') : Writes w w' := by
  cases probe with
  | gauge g kind => cases hprobe
  | worker h at_ =>
    simp only [step] at hprobe
    split at hprobe <;> cases hprobe
    exact .control h _

theorem writes_finish (hprobe : probe.step w = .finish stopped w') : Writes w w' := by
  cases probe with
  | gauge g kind =>
    cases hprobe
    exact .gauge g _
  | worker h at_ =>
    simp only [step] at hprobe
    split at hprobe <;> cases hprobe
    exact .control h _

end Probe

def Phase.destroys {F : Type} : Phase F → Bool
  | .acting _ (.query .destroy _) => true
  | _ => false

namespace Strand

variable {U N : Type} {lib : Library U N} {c : ContextId} {w w' : World} {s s' : Strand (Frame U N)}

inductive Effect (c : ContextId) (phase : Phase (Frame U N)) (w : World) : World → Prop
  | none : Effect c phase w w
  | query (q : Query) (hq : q = .destroy → phase.destroys = true) : Effect c phase w (w.answer c q).2
  | check {w' : World} (hwrites : Probe.Writes w w') : Effect c phase w w'
  | outcome {w' : World} (stopped : Bool) (hwrites : Probe.Writes w w') :
      Effect c phase w (observe w' c stopped)

theorem contexts_writes (hwrites : Probe.Writes w w') : w'.contexts = w.contexts := by
  cases hwrites <;> rfl

theorem effect_step (hstep : s.step lib c w = .ran s' w') : Effect c s.phase w w' := by
  cases transition_of_step hstep with
  | due | counted => exact .query .count nofun
  | asks role q k callers =>
    refine .query q fun hq => ?_
    subst hq
    rfl
  | ticking stack callers hprobe | checking role k callers hprobe =>
    exact .check (Probe.writes_goto hprobe)
  | ticked stack callers hprobe | checked role k callers hprobe =>
    exact .outcome _ (Probe.writes_finish hprobe)
  | countedOut | plainStep | offers | escapes | returns | ends => exact .none
  | reports | unhooked | checks | waits | uncalled | unloaded | calls | panics => exact .none
  | notified | expired => exact .none

end Strand

end Workers
