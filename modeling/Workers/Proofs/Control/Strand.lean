import Workers.Proofs.Call.Transitions
import Workers.Proofs.Control.KeepsControl
/-! # A call at its safe points

What one step of a strand does to the control of a worker, and why a context that has observed a
stop never lets a call end with values.
-/
namespace Workers

def Role.IsInner {F : Type} : Role F → Prop
  | step _ | receive .. => True
  | loneStep | loneReceive | outside => False

/-- The callers of code in a scheduler, down to the call that was made from outside. -/
inductive Rooted {F : Type} : List (Caller F) → Prop
  | root : Rooted [⟨.outside,.done⟩]
  | inner {caller : Caller F} {callers : List (Caller F)} (hi : caller.role.IsInner)
      (hr : Rooted callers) :
      Rooted (caller :: callers)

inductive Called {F : Type} : Strand F → Prop
  | start (f : Routine) (arguments : List Value) : Called (Strand.ofCall f arguments)
  | finished (outcome : Outcome) : Called ⟨.acting .outside (.done outcome),[]⟩
  | exit (e : Exit F) (callers : List (Caller F)) : Called ⟨.exit e,callers⟩
  | turn (t : Turn F) {callers : List (Caller F)} (hr : Rooted callers) : Called ⟨.turn t,callers⟩
  | acting {role : Role F} (act : Act role.Report) {callers : List (Caller F)} (hi : role.IsInner)
      (hr : Rooted callers) : Called ⟨.acting role act,callers⟩
  | counting (probe : Probe) (stack : List F) {callers : List (Caller F)} (hr : Rooted callers) :
      Called ⟨.counting probe stack,callers⟩
  | checking (probe : Probe) {role : Role F} (k : Bool → Act role.Report) {callers : List (Caller F)}
      (hi : role.IsInner) (hr : Rooted callers) : Called ⟨.checking probe role k,callers⟩
  | waiting (n : NotifierId) (deadline : Nat) {role : Role F} (k : Bool → Act role.Report)
      {callers : List (Caller F)} (hi : role.IsInner) (hr : Rooted callers) :
      Called ⟨.waiting n deadline role k,callers⟩

/-- The phases from which a call is bound to end with values. -/
inductive Phase.EndsWithValues {F : Type} : Phase F → Prop
  | ended (values : List Value) (left : List F) : EndsWithValues (.turn (.ended (.ok values) left))
  | finished (values : List Value) : EndsWithValues (.acting .outside (.done (.ok values)))
  | exit (values : List Value) (left : List F) : EndsWithValues (.exit (.ended (.ok values) left))

def Probe.checkOf (h : WorkerId) : Probe → Option Check
  | .worker i at_ => if i = h then some at_ else none
  | .gauge .. => none

def Strand.checkOf {F : Type} (h : WorkerId) (s : Strand F) : Option Check :=
  match s.phase with
  | .counting probe _ | .checking probe _ _ => probe.checkOf h
  | _ => none

namespace Strand

variable {U N : Type} {lib : Library U N} {c : ContextId} {h : WorkerId} {w w' : World}
variable {s s' : Strand (Frame U N)}

theorem called_afterAct {stopping : Bool} {role : Role (Frame U N)} (hi : role.IsInner)
    (report : role.Report) {callers : List (Caller (Frame U N))} (hr : Rooted callers) :
    Called ⟨afterAct lib stopping role report,callers⟩ := by
  cases role with
  | step below => exact .turn _ hr
  | receive below unwound => exact .turn _ hr
  | loneStep | loneReceive | outside => exact hi.elim

theorem called_step (hs : Called s) (hstep : s.step lib c w = .ran s' w') : Called s' := by
  cases hs with
  | start f arguments =>
    cases transition_of_step hstep with
    | uncalled | unloaded => exact .finished _
    | calls => exact .turn _ .root
  | finished outcome =>
    cases transition_of_step hstep with
    | reports => exact .exit _ _
  | exit e callers => cases hstep
  | turn t hr =>
    cases transition_of_step hstep with
    | countedOut | counted | escapes => exact .turn _ hr
    | due => exact .counting _ _ hr
    | plainStep | offers => exact .acting _ trivial hr
    | returns outcome =>
      cases hr with
      | root => exact .finished outcome
      | inner hi hr => exact .acting _ hi hr
    | ends => exact .exit _ _
  | acting act hi hr =>
    cases transition_of_step hstep with
    | reports role report => exact called_afterAct hi report hr
    | asks | unhooked | uncalled | unloaded => exact .acting _ hi hr
    | checks => exact .checking _ _ hi hr
    | waits => exact .waiting _ _ _ hi hr
    | calls => exact .turn _ (.inner hi hr)
    | panics => exact .exit _ _
  | counting probe stack hr =>
    cases transition_of_step hstep with
    | ticking => exact .counting _ _ hr
    | ticked => exact .turn _ hr
  | checking probe k hi hr =>
    cases transition_of_step hstep with
    | checking => exact .checking _ _ hi hr
    | checked => exact .acting _ hi hr
  | waiting n deadline k hi hr =>
    cases transition_of_step hstep with
    | notified | expired => exact .acting _ hi hr

theorem not_endsWithValues_inner {role : Role (Frame U N)} (hi : role.IsInner) (act : Act role.Report) :
    ¬ (Phase.acting role act).EndsWithValues := by
  intro hw
  cases hw
  exact hi

theorem not_endsWithValues_afterCount (stopped : Bool) (stack : List (Frame U N)) :
    ¬ (Phase.turn (Turn.afterCount stopped stack)).EndsWithValues := by
  unfold Turn.afterCount
  split
  · rintro ⟨⟩
  · split <;> rintro ⟨⟩

theorem not_endsWithValues_unwind (describe : Frame U N → String) (fault : Fault) (failed : Frame U N)
    (below : List (Frame U N)) (unwound : List String) :
    ¬ (Phase.turn (Turn.unwind describe fault failed below unwound)).EndsWithValues := by
  unfold Turn.unwind
  cases below <;> rintro ⟨⟩

/-- A step that ends in a stopping context ends its scheduler, whatever it came up with. -/
theorem not_endsWithValues_afterAct {role : Role (Frame U N)} (hi : role.IsInner)
    (report : role.Report) :
    ¬ (afterAct lib true role report).EndsWithValues := by
  cases role with
  | step below =>
    obtain ⟨frame,move⟩ := report
    simp only [afterAct, Turn.afterStep]
    cases move <;> rintro ⟨⟩
  | receive below unwound =>
    obtain ⟨frame,accepted⟩ := report
    simp only [afterAct, Turn.afterReceive]
    cases accepted with
    | ok _ => rintro ⟨⟩
    | error fault => exact not_endsWithValues_unwind _ _ _ _ _
  | loneStep | loneReceive | outside => exact hi.elim

theorem not_endsWithValues_counting {probe : Probe} {stack : List (Frame U N)}
    {callers : List (Caller (Frame U N))}
    (hstep : step lib c w ⟨.counting probe stack,callers⟩ = .ran s' w') :
    ¬ s'.phase.EndsWithValues := by
  cases transition_of_step hstep with
  | ticking => rintro ⟨⟩
  | ticked => exact not_endsWithValues_afterCount _ _

theorem not_endsWithValues_checking {probe : Probe} {role : Role (Frame U N)}
    {k : Bool → Act role.Report} {callers : List (Caller (Frame U N))} (hi : role.IsInner)
    (hstep : step lib c w ⟨.checking probe role k,callers⟩ = .ran s' w') :
    ¬ s'.phase.EndsWithValues := by
  cases transition_of_step hstep with
  | checking => rintro ⟨⟩
  | checked => exact not_endsWithValues_inner hi _

theorem not_endsWithValues_step (hs : Called s) (hstop : (w.context c).stopping = true)
    (hw : ¬ s.phase.EndsWithValues) (hstep : s.step lib c w = .ran s' w') :
    ¬ s'.phase.EndsWithValues := by
  cases hs with
  | start f arguments =>
    cases transition_of_step hstep with
    | uncalled => rintro ⟨⟩
    | unloaded role k callers hgo | calls role k callers hgo => exact absurd hstop hgo
  | finished outcome =>
    cases transition_of_step hstep with
    | reports =>
      rintro ⟨⟩
      exact hw (.finished _)
  | exit e callers => cases hstep
  | turn t hr =>
    cases transition_of_step hstep with
    | counted => exact not_endsWithValues_afterCount _ _
    | countedOut | due | plainStep | offers | escapes => rintro ⟨⟩
    | returns outcome left =>
      cases hr with
      | root =>
        rintro ⟨⟩
        exact hw (.ended _ _)
      | inner hi hr => exact not_endsWithValues_inner hi _
    | ends => cases hr
  | acting act hi hr =>
    cases transition_of_step hstep with
    | reports role report =>
      rw [hstop]
      exact not_endsWithValues_afterAct hi report
    | asks | unhooked | uncalled => exact not_endsWithValues_inner hi _
    | checks | waits | panics => rintro ⟨⟩
    | unloaded role k callers hgo | calls role k callers hgo => exact absurd hstop hgo
  | counting probe stack hr => exact not_endsWithValues_counting hstep
  | checking probe k hi hr => exact not_endsWithValues_checking hi hstep
  | waiting n deadline k hi hr =>
    cases transition_of_step hstep with
    | notified | expired => exact not_endsWithValues_inner hi _

theorem not_endsWithValues_of_check {at_ : Check} (hs : Called s) (hcheck : s.checkOf h = some at_)
    (hstep : s.step lib c w = .ran s' w') : ¬ s'.phase.EndsWithValues := by
  cases hs with
  | counting probe stack hr => exact not_endsWithValues_counting hstep
  | checking probe k hi hr => exact not_endsWithValues_checking hi hstep
  | start | finished | exit | turn | acting | waiting => cases hcheck

theorem keepsControl_observe (w : World) (c : ContextId) (stopped : Bool) :
    w.KeepsControl h (observe w c stopped) := by
  refine World.keepsControl_setContext w c _ fun hstop => ?_
  unfold Context.observe
  split
  · rfl
  · exact hstop

theorem stopping_observe {c : ContextId} (hc : c < w.contexts.size) :
    ((observe w c true).context c).stopping = true := by
  unfold observe
  rw [World.context_setContext, if_pos ⟨rfl,hc⟩]
  rfl

def withControl (w : World) (h : WorkerId) (control : Control) : World :=
  w.setHandle h { w.handle h with control }

inductive Checks (h : WorkerId) (c : ContextId) (w : World) (s : Strand (Frame U N)) (w' : World)
    (s' : Strand (Frame U N)) : Prop
  | goto (at_ next : Check) (control : Control) (hat : s.checkOf h = some at_)
      (hmove : at_.step (w.pool (w.handle h).pool).requested (w.handle h).control = .goto next control)
      (hnext : s'.checkOf h = some next) (hw : w' = withControl w h control)
  | finish (at_ : Check) (stopped : Bool) (control : Control) (hat : s.checkOf h = some at_)
      (hmove : at_.step (w.pool (w.handle h).pool).requested (w.handle h).control =
        .finish stopped control)
      (hnext : s'.checkOf h = none) (hw : w' = observe (withControl w h control) c stopped)

/-- A strand that is not in a check of the worker leaves its control alone, and a check that it goes
into begins at the beginning. -/
def Passes (h : WorkerId) (w : World) (w' : World) (s' : Strand (Frame U N)) : Prop :=
  w.KeepsControl h w' ∧ ∀ at_, s'.checkOf h = some at_ → ∃ kind, at_ = Check.start kind

theorem passes_of_eq {w' : World} (hw : w.KeepsControl h w') (hs : s'.checkOf h = none) :
    Passes h w w' s' :=
  ⟨hw,fun at_ hat => by rw [hs] at hat; cases hat⟩

theorem checkOf_start {hook : Hook} {kind : CheckKind} {at_ : Check}
    (hat : (Probe.start hook kind).checkOf h = some at_) : at_ = Check.start kind := by
  cases hook with
  | worker i =>
    simp only [Probe.start, Probe.checkOf] at hat
    split at hat
    · exact (Option.some.inj hat).symm
    · cases hat
  | gauge g => cases hat

theorem checkOf_afterAct (stopping : Bool) (role : Role (Frame U N)) (report : role.Report)
    (callers : List (Caller (Frame U N))) :
    checkOf h ⟨afterAct lib stopping role report,callers⟩ = none := by
  cases role with
  | step | receive | loneReceive | outside => rfl
  | loneStep =>
    obtain ⟨frame,move⟩ := report
    cases move <;> rfl

theorem keepsControl_counted (w : World) (c : ContextId) : w.KeepsControl h (w.counted c) :=
  World.keepsControl_setContext w c _ fun hstop => (World.stopping_countInstruction _).trans hstop

/-- A step of a probe: of the check of this worker, or of something else. -/
theorem checks_goto {probe next : Probe} (hp : probe.step w = .goto next w')
    (hs : s.checkOf h = probe.checkOf h) (hs' : s'.checkOf h = next.checkOf h) :
    Checks h c w s w' s' ∨ s.checkOf h = none ∧ Passes h w w' s' := by
  cases probe with
  | gauge g kind => cases hp
  | worker i at_ =>
    simp only [Probe.step] at hp
    split at hp
    · rename_i next' control hmove
      cases hp
      by_cases hi : i = h
      · subst hi
        exact .inl (.goto at_ next' control (hs.trans (if_pos rfl)) hmove (hs'.trans (if_pos rfl)) rfl)
      · have hcontrol : w.KeepsControl h (withControl w i control) :=
          World.keepsControl_setHandle w i _ (fun hi' => absurd hi' hi) fun hi' => absurd hi' hi
        exact .inr ⟨hs.trans (if_neg hi),passes_of_eq hcontrol (hs'.trans (if_neg hi))⟩
    · cases hp
    · cases hp

theorem checks_finish {probe : Probe} {stopped : Bool} {u : World}
    (hp : probe.step w = .finish stopped u) (hs : s.checkOf h = probe.checkOf h)
    (hs' : s'.checkOf h = none) :
    Checks h c w s (observe u c stopped) s' ∨ s.checkOf h = none ∧
    Passes h w (observe u c stopped) s' := by
  have hobserve := keepsControl_observe (h := h) u c stopped
  cases probe with
  | gauge g kind =>
    cases hp
    have hcontrol : w.KeepsControl h (w.setGauge g ((w.gauge g).check kind).2) := .of_eq rfl rfl
    exact .inr ⟨hs,passes_of_eq (hcontrol.trans hobserve) hs'⟩
  | worker i at_ =>
    simp only [Probe.step] at hp
    split at hp
    · cases hp
    · rename_i stopped' control hmove
      cases hp
      by_cases hi : i = h
      · subst hi
        exact .inl (.finish at_ stopped control (hs.trans (if_pos rfl)) hmove hs' rfl)
      · have hcontrol : w.KeepsControl h (withControl w i control) :=
          World.keepsControl_setHandle w i _ (fun hi' => absurd hi' hi) fun hi' => absurd hi' hi
        exact .inr ⟨hs.trans (if_neg hi),passes_of_eq (hcontrol.trans hobserve) hs'⟩
    · cases hp

/-- A strand takes one step of a check of the worker, or leaves its control alone. -/
theorem step_control (hstep : s.step lib c w = .ran s' w') :
    Checks h c w s w' s' ∨ s.checkOf h = none ∧ Passes h w w' s' := by
  cases transition_of_step hstep with
  | ticking stack callers hprobe | checking role k callers hprobe => exact checks_goto hprobe rfl rfl
  | ticked stack callers hprobe | checked role k callers hprobe => exact checks_finish hprobe rfl rfl
  | due stack callers =>
    exact .inr ⟨rfl,keepsControl_counted w c,fun _ hat => ⟨.tick,checkOf_start hat⟩⟩
  | counted stack callers => exact .inr ⟨rfl,passes_of_eq (keepsControl_counted w c) rfl⟩
  | checks role k callers =>
    exact .inr ⟨rfl,.refl h w,fun _ hat => ⟨_,checkOf_start hat⟩⟩
  | asks role q k callers => exact .inr ⟨rfl,passes_of_eq (World.keepsControl_answer w c q) rfl⟩
  | reports role report callers =>
    exact .inr ⟨rfl,passes_of_eq (.refl h w) (checkOf_afterAct _ role report callers)⟩
  | countedOut | plainStep | offers | escapes | returns | ends =>
    exact .inr ⟨rfl,passes_of_eq (.refl h w) rfl⟩
  | unhooked | waits | uncalled | unloaded | calls | panics =>
    exact .inr ⟨rfl,passes_of_eq (.refl h w) rfl⟩
  | notified | expired => exact .inr ⟨rfl,passes_of_eq (.refl h w) rfl⟩

section Check

variable {at_ next : Check} {control : Control} {stopped : Bool}

theorem probe_of_checkOf {probe : Probe} (hat : probe.checkOf h = some at_) : probe = .worker h at_ := by
  cases probe with
  | worker i at' =>
    simp only [Probe.checkOf] at hat
    split at hat
    · rename_i hi
      rw [hi, Option.some.inj hat]
    · cases hat
  | gauge g kind => cases hat

theorem exit_of_checkOf (hat : s.checkOf h = some at_) : s.exit? = none := by
  obtain ⟨phase,callers⟩ := s
  cases phase with
  | counting | checking => rfl
  | turn | acting | waiting | exit => cases hat

/-- A check that can go on does, whatever the code around it. -/
theorem step_of_goto (lib : Library U N) (c : ContextId) (w : World) (hat : s.checkOf h = some at_)
    (hmove : at_.step (w.pool (w.handle h).pool).requested (w.handle h).control = .goto next control) :
    ∃ s', s.step lib c w = .ran s' (withControl w h control) ∧ s'.checkOf h = some next := by
  obtain ⟨phase,callers⟩ := s
  cases phase with
  | counting probe stack =>
    obtain rfl := probe_of_checkOf hat
    refine ⟨⟨.counting (.worker h next) stack,callers⟩,?_,if_pos rfl⟩
    simp only [step, Probe.step, hmove]
    rfl
  | checking probe role k =>
    obtain rfl := probe_of_checkOf hat
    refine ⟨⟨.checking (.worker h next) role k,callers⟩,?_,if_pos rfl⟩
    simp only [step, Probe.step, hmove]
    rfl
  | turn | acting | waiting | exit => cases hat

theorem step_of_finish (lib : Library U N) (c : ContextId) (w : World)
    (hat : s.checkOf h = some at_)
    (hmove : at_.step (w.pool (w.handle h).pool).requested (w.handle h).control =
      .finish stopped control) :
    ∃ s', s.step lib c w = .ran s' (observe (withControl w h control) c stopped) ∧
    s'.checkOf h = none := by
  obtain ⟨phase,callers⟩ := s
  cases phase with
  | counting probe stack =>
    obtain rfl := probe_of_checkOf hat
    refine ⟨⟨.turn (Turn.afterCount stopped stack),callers⟩,?_,rfl⟩
    simp only [step, Probe.step, hmove]
    rfl
  | checking probe role k =>
    obtain rfl := probe_of_checkOf hat
    refine ⟨⟨.acting role (k stopped),callers⟩,?_,rfl⟩
    simp only [step, Probe.step, hmove]
    rfl
  | turn | acting | waiting | exit => cases hat

end Check

end Strand

end Workers
