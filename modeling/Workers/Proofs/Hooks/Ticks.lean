import Workers.Proofs.Control.Latency
import Workers.Proofs.Call.Logged
/-! # How often a hook ticks

A context counts instructions modulo the step of its hook, and asks for a tick when the count comes
round.  Of the ticks that its code makes, one in so many instructions is therefore due, and the
others are yields.  Nothing that is done besides, by this code or by others, adds a tick or takes
one away, until a call is answered with a stop.
-/
namespace Workers

variable {U N : Type}

structure Context.Counted (hook : Hook) (step : UInt32) (n : ℕ) (context : Context) : Prop where
  hook : context.hook = some hook
  hookStep : context.hookStep = step
  executed : context.executed.toNat = n % step.toNat

namespace Context

variable {hook : Hook} {step : UInt32} {n : ℕ} {context : Context}

theorem counted_setHook (context : Context) (hook : Hook) (step : UInt32) :
    (context.setHook hook step).Counted hook step 0 := ⟨rfl,rfl,(Nat.zero_mod _).symm⟩

theorem Counted.executed_lt (h : context.Counted hook step n) (hpos : 0 < step) :
    context.executed < step := by
  rw [UInt32.lt_iff_toNat_lt, h.executed]
  exact Nat.mod_lt _ (UInt32.lt_iff_toNat_lt.mp hpos)

theorem toNat_executed_add_one (hlt : context.executed < step) :
    (context.executed + 1).toNat = context.executed.toNat + 1 := by
  have hlt' := UInt32.lt_iff_toNat_lt.mp hlt
  have hbound := step.toNat_lt
  have hone : (1 : UInt32).toNat = 1 := rfl
  rw [UInt32.toNat_add]
  omega

/-- One more instruction passes, or it brings the count round and a tick is due. -/
theorem Counted.count (h : context.Counted hook step n) (hpos : 0 < step)
    (hgo : context.stopping = false) :
    context.countInstruction.2.Counted hook step (n + 1) ∧
      (context.countInstruction.1 = .pass ∧ (n + 1) / step.toNat = n / step.toNat ∨
        context.countInstruction.1 = .tick ∧ (n + 1) / step.toNat = n / step.toNat + 1) := by
  have hlt := h.executed_lt hpos
  have hnext := toNat_executed_add_one hlt
  obtain ⟨hhook,rfl,hexecuted⟩ := h
  have hpos' : 0 < context.hookStep.toNat := UInt32.lt_iff_toNat_lt.mp hpos
  have hlt' := UInt32.lt_iff_toNat_lt.mp hlt
  have hne : context.hookStep ≠ 0 := (UInt32.lt_iff_toNat_lt.mp hpos).ne' ∘ congrArg UInt32.toNat
  have hdiv := Nat.div_add_mod n context.hookStep.toNat
  unfold countInstruction
  simp only [hgo, Bool.false_eq_true, if_false, if_neg hne]
  by_cases hpass : context.executed + 1 < context.hookStep
  · simp only [if_pos hpass]
    have hpass' := UInt32.lt_iff_toNat_lt.mp hpass
    obtain ⟨hquotient,hrest⟩ : (n + 1) / context.hookStep.toNat = n / context.hookStep.toNat ∧
        (n + 1) % context.hookStep.toNat = n % context.hookStep.toNat + 1 :=
      (Nat.div_mod_unique hpos').mpr ⟨by omega,by omega⟩
    exact ⟨⟨hhook,rfl,by rw [hnext, hexecuted, hrest]⟩,.inl ⟨trivial,hquotient⟩⟩
  · simp only [if_neg hpass]
    have hround : context.hookStep.toNat ≤ context.executed.toNat + 1 := by
      rw [← hnext]
      exact Nat.not_lt.mp fun hlt => hpass (UInt32.lt_iff_toNat_lt.mpr hlt)
    obtain ⟨hquotient,hrest⟩ : (n + 1) / context.hookStep.toNat = n / context.hookStep.toNat + 1 ∧
        (n + 1) % context.hookStep.toNat = 0 :=
      (Nat.div_mod_unique hpos').mpr ⟨by rw [Nat.mul_succ]; omega,hpos'⟩
    exact ⟨⟨hhook,rfl,hrest.symm⟩,.inr ⟨trivial,hquotient⟩⟩

theorem Counted.observe (h : context.Counted hook step n) (stopped : Bool) :
    (context.observe stopped).Counted hook step n := by
  unfold Context.observe
  split
  · exact ⟨h.hook,h.hookStep,h.executed⟩
  · exact h

end Context

def Probe.isTick : Probe → Bool
  | .gauge _ .tick | .worker _ .tickShutdown => true
  | _ => false

inductive HookUse where
  | count
  | ask
  | tick
  | other
  deriving DecidableEq

namespace Phase

variable {F : Type}

def hookUse : Phase F → HookUse
  | .turn (.count _) | .acting _ (.query .count _) => .count
  | .acting _ (.check .tick _) => .ask
  | .counting probe _ | .checking probe .. => if probe.isTick then .tick else .other
  | _ => .other

def Prompt : Phase F → Prop
  | .acting _ act => act.TicksWhenDue
  | .checking _ _ k => ∀ stopped, (k stopped).TicksWhenDue
  | .waiting _ _ _ k => ∀ notified, (k notified).TicksWhenDue
  | .turn _ | .counting .. | .exit _ => True

end Phase

structure Strand.Prompt {F : Type} (s : Strand F) : Prop where
  phase : s.phase.Prompt
  callers : ∀ caller ∈ s.callers, ∀ outcome, (caller.resume outcome).TicksWhenDue

/-- The instructions that have been counted, the yields, and the ticks that have begun.  The tick
that code has been told is due still belongs to the instruction that it has counted, and is no
yield. -/
structure Tally where
  counted : ℕ := 0
  yielded : ℕ := 0
  ticked : ℕ := 0
  due : Bool := false

namespace Tally

def add {F : Type} (t : Tally) (context : Context) (phase : Phase F) : Tally :=
  match phase.hookUse with
  | .count => { t with counted := t.counted + 1, due := context.countInstruction.1 = .tick }
  | .ask => { t with yielded := if t.due then t.yielded else t.yielded + 1, due := false }
  | .tick => { t with ticked := t.ticked + 1, due := false }
  | .other => { t with due := false }

section Add

variable {F : Type} {phase : Phase F} (t : Tally) (context : Context)

theorem add_count (h : phase.hookUse = .count) : t.add context phase =
    { t with counted := t.counted + 1, due := context.countInstruction.1 = .tick } := by
  simp only [add, h]

theorem add_ask (h : phase.hookUse = .ask) : t.add context phase =
    { t with yielded := if t.due then t.yielded else t.yielded + 1, due := false } := by
  simp only [add, h]

theorem add_tick (h : phase.hookUse = .tick) : t.add context phase =
    { t with ticked := t.ticked + 1, due := false } := by
  simp only [add, h]

theorem add_other (h : phase.hookUse = .other) : t.add context phase = { t with due := false } := by
  simp only [add, h]

end Add

def pending {F : Type} (t : Tally) (phase : Phase F) : ℕ :=
  if t.due || phase.hookUse = .tick then 1 else 0

end Tally

def tally (c : ContextId) (log : List (LogEntry U N)) : Tally :=
  log.foldl (fun t entry => match entry with
    | .own w s => t.add (w.context c) s.phase
    | .others .. => t) {}

def LogEntry.stops (c : ContextId) : LogEntry U N → Bool
  | .own w s =>
    match s.phase with
    | .turn (.count _) | .acting _ (.query .count _) => (w.context c).stopping
    | .counting probe _ | .checking probe .. =>
      match probe.step w with
      | .finish stopped _ => stopped
      | _ => false
    | _ => false
  | .others .. => false

theorem Probe.isTick_start (hook : Hook) (kind : CheckKind) :
    (Probe.start hook kind).isTick = true ↔ kind = .tick := by
  cases hook <;> cases kind <;> simp [start, Check.start, isTick]

theorem Check.ne_tickShutdown_of_goto {at_ next : Check} {shutdown : Bool} {control control' : Control}
    (hmove : at_.step shutdown control = .goto next control') : next ≠ .tickShutdown := by
  rintro rfl
  cases at_ <;> simp only [Check.step] at hmove <;> grind

theorem Probe.isTick_goto {probe next : Probe} {w w' : World} (hprobe : probe.step w = .goto next w') :
    next.isTick = false := by
  cases probe with
  | gauge g kind => cases hprobe
  | worker h at_ =>
    simp only [Probe.step] at hprobe
    split at hprobe <;> cases hprobe
    rename_i next _ hmove
    have hnext : next ≠ .tickShutdown := Check.ne_tickShutdown_of_goto hmove
    cases next <;> first | rfl | exact absurd rfl hnext

theorem Phase.TicksWhenDue.prompt {F : Type} {h : WorkerId} {phase : Phase F}
    (hphase : phase.TicksWhenDue h) :
    phase.Prompt := by
  cases phase with
  | acting => exact hphase
  | checking => exact hphase.2
  | waiting => exact hphase
  | turn | counting | exit => trivial

namespace Strand

variable {lib : Library U N} {c : ContextId} {w w' : World} {s s' : Strand (Frame U N)}
  {callers : List (Caller (Frame U N))}

theorem Prompt.step (hs : s.Prompt) (hlib : lib.TicksWhenDue)
    (hstep : s.step lib c w = .ran s' w') : s'.Prompt := by
  obtain ⟨hphase,hcallers⟩ := hs
  cases transition_of_step hstep with
  | countedOut | due | counted | escapes | ticking | ticked => exact ⟨trivial,hcallers⟩
  | plainStep r => exact ⟨hlib.advance r,hcallers⟩
  | offers r below outcome => exact ⟨hlib.accept outcome r,hcallers⟩
  | returns outcome left caller callers =>
    obtain ⟨hcaller,hrest⟩ := List.forall_mem_cons.mp hcallers
    exact ⟨hcaller outcome,hrest⟩
  | ends | panics => exact ⟨trivial,nofun⟩
  | reports role report => exact ⟨(ticksWhenDue_afterAct (h := 0) hlib _ role report).prompt,hcallers⟩
  | asks role q k => exact ⟨(Act.TicksWhenDue.answer hphase _).2,hcallers⟩
  | unhooked | uncalled | unloaded => exact ⟨hphase _,hcallers⟩
  | checks | waits | checking => exact ⟨hphase,hcallers⟩
  | calls => exact ⟨trivial,List.forall_mem_cons.mpr ⟨hphase,hcallers⟩⟩
  | checked | notified | expired => exact ⟨hphase _,hcallers⟩

structure Tallied (c : ContextId) (hook : Hook) (step : UInt32) (t : Tally) (w : World)
    (s : Strand (Frame U N)) :
    Prop where
  context : (w.context c).Counted hook step t.counted
  prompt : s.Prompt
  due : t.due = true → s.phase.hookUse = .ask ∨ s.phase.hookUse = .tick
  total : t.ticked + t.pending s.phase = t.counted / step.toNat + t.yielded

variable {hook : Hook} {step : UInt32} {t : Tally}

theorem Tallied.not_due (h : Tallied c hook step t w s) (hask : s.phase.hookUse ≠ .ask)
    (htick : s.phase.hookUse ≠ .tick) :
    t.due = false :=
  Bool.eq_false_iff.mpr fun hdue => (h.due hdue).elim hask htick

/-- One more instruction is counted, and if a tick is due it comes next. -/
theorem Tallied.count (h : Tallied c hook step t w s) (hpos : 0 < step) (hprompt : s'.Prompt)
    (huse : s.phase.hookUse = .count) (hgo : (w.context c).stopping = false)
    (hcontext : w'.context c = (w.context c).countInstruction.2)
    (hdue : (w.context c).countInstruction.1 = .tick → s'.phase.hookUse = .ask ∨
      s'.phase.hookUse = .tick)
    (hpass : (w.context c).countInstruction.1 = .pass → s'.phase.hookUse ≠ .tick) :
    Tallied c hook step (t.add (w.context c) s.phase) w' s' := by
  obtain ⟨hcounted,hround⟩ := h.context.count hpos hgo
  have hnone : t.due = false := h.not_due (by simp [huse]) (by simp [huse])
  have htotal : t.ticked = t.counted / step.toNat + t.yielded := by
    simpa [Tally.pending, hnone, huse] using h.total
  rw [Tally.add_count t _ huse]
  refine ⟨hcontext ▸ hcounted,hprompt,fun htick => hdue (of_decide_eq_true htick),?_⟩
  rcases hround with ⟨hcount,hsame⟩ | ⟨hcount,hmore⟩
  · simp [Tally.pending, hcount, hpass hcount, hsame, htotal]
  · simp only [Tally.pending, hcount, hmore, htotal, decide_true, Bool.true_or, if_true]
    omega

/-- A tick is asked for that is due, or that the code wants on its own account. -/
theorem Tallied.ask (h : Tallied c hook step t w s) (hprompt : s'.Prompt) (huse : s.phase.hookUse = .ask)
    (htick : s'.phase.hookUse = .tick) (hcontext : w'.context c = w.context c) :
    Tallied c hook step (t.add (w.context c) s.phase) w' s' := by
  have htotal := h.total
  rw [Tally.add_ask t _ huse]
  refine ⟨hcontext ▸ h.context,hprompt,nofun,?_⟩
  cases hdue : t.due with
  | true =>
    -- the tick that was due is the one that begins
    simpa [Tally.pending, hdue, htick] using htotal
  | false =>
    have hnone : t.ticked = t.counted / step.toNat + t.yielded := by
      simpa [Tally.pending, hdue, huse] using htotal
    simp [Tally.pending, htick, hnone, Nat.add_assoc]

theorem Tallied.tick (h : Tallied c hook step t w s) (hprompt : s'.Prompt)
    (huse : s.phase.hookUse = .tick) (htick : s'.phase.hookUse ≠ .tick)
    (hcontext : (w'.context c).Counted hook step t.counted) :
    Tallied c hook step (t.add (w.context c) s.phase) w' s' := by
  have htotal := h.total
  rw [Tally.add_tick t _ huse]
  refine ⟨hcontext,hprompt,nofun,?_⟩
  simpa [Tally.pending, huse, htick] using htotal

theorem Tallied.other (h : Tallied c hook step t w s) (hprompt : s'.Prompt)
    (huse : s.phase.hookUse = .other) (htick : s'.phase.hookUse ≠ .tick)
    (hcontext : (w'.context c).Counted hook step t.counted) :
    Tallied c hook step (t.add (w.context c) s.phase) w' s' := by
  have hnone : t.due = false := h.not_due (by simp [huse]) (by simp [huse])
  have htotal := h.total
  rw [Tally.add_other t _ huse]
  refine ⟨hcontext,hprompt,nofun,?_⟩
  simpa [Tally.pending, huse, htick, hnone] using htotal

theorem hookUse_turn_ne_tick (turn : Turn (Frame U N)) : (Phase.turn turn).hookUse ≠ .tick := by
  cases turn <;> nofun

theorem hookUse_acting_ne_tick (role : Role (Frame U N)) (act : Act role.Report) :
    (Phase.acting role act).hookUse ≠ .tick := by
  cases act with
  | query q k => cases q <;> nofun
  | check kind k => cases kind <;> nofun
  | done | wait | call | panic => nofun

theorem hookUse_afterAct_ne_tick (stopping : Bool) (role : Role (Frame U N)) (report : role.Report) :
    (afterAct lib stopping role report).hookUse ≠ .tick := by
  cases role with
  | step | receive => exact hookUse_turn_ne_tick _
  | loneStep =>
    obtain ⟨frame,move⟩ := report
    cases move with
    | again => exact hookUse_acting_ne_tick _ _
    | proceed | launch | finish | fault | stop => nofun
  | loneReceive | outside => nofun

theorem Tallied.look (h : Tallied c hook step t w s) (hprompt : s'.Prompt) {probe : Probe}
    (huse : s.phase.hookUse = if probe.isTick then .tick else .other) (htick : s'.phase.hookUse ≠ .tick)
    (hcontext : (w'.context c).Counted hook step t.counted) :
    Tallied c hook step (t.add (w.context c) s.phase) w' s' := by
  cases hprobe : probe.isTick with
  | true => exact h.tick hprompt (by simp [huse, hprobe]) htick hcontext
  | false => exact h.other hprompt (by simp [huse, hprobe]) htick hcontext

/-- A scheduler counts, and goes on to the tick if one is due. -/
theorem Tallied.counting (h : Tallied c hook step t w s) (hpos : 0 < step) (hprompt : s'.Prompt)
    {stack : List (Frame U N)} (hs : s = ⟨.turn (.count stack),callers⟩)
    (hgo : (w.context c).stopping = false) (hstep : s.step lib c w = .ran s' w') :
    Tallied c hook step (t.add (w.context c) s.phase) w' s' := by
  subst hs
  have hself := World.context_setContext_self (World.lt_of_hook h.context.hook)
    (w.context c).countInstruction.2
  obtain ⟨hcounted,hround⟩ := h.context.count hpos hgo
  rcases hcount : (w.context c).countInstruction with ⟨count,context⟩
  rw [hcount] at hself hround hcounted
  have hhook : context.hook = some hook := hcounted.hook
  simp only [Strand.step, stepTurn, hcount, hhook] at hstep
  rcases hround with ⟨rfl,_⟩ | ⟨rfl,_⟩
  · cases hstep
    refine h.count hpos hprompt rfl hgo (hcount ▸ hself) (fun htick => ?_) fun _ =>
      hookUse_turn_ne_tick _
    rw [hcount] at htick
    cases htick
  · cases hstep
    refine h.count hpos hprompt rfl hgo (hcount ▸ hself) (fun _ => .inr ?_) fun hpass => ?_
    · simp [Phase.hookUse, (Probe.isTick_start hook .tick).mpr rfl]
    · rw [hcount] at hpass
      cases hpass

/-- Code counts an instruction, and if a tick is due it asks for it. -/
theorem Tallied.asked (h : Tallied c hook step t w s) (hpos : 0 < step) {role : Role (Frame U N)}
    {k : Count → Act role.Report} (hs : s = ⟨.acting role (.query .count k),callers⟩)
    (hgo : (w.context c).stopping = false) (hprompt : s'.Prompt) (hstep : s.step lib c w = .ran s' w') :
    Tallied c hook step (t.add (w.context c) s.phase) w' s' := by
  subst hs
  have hself := World.context_setContext_self (World.lt_of_hook h.context.hook)
    (w.context c).countInstruction.2
  obtain ⟨_,g,hg⟩ := h.prompt.phase
  cases hstep
  refine h.count hpos hprompt rfl hgo hself (fun htick => .inl ?_) fun _ => hookUse_acting_ne_tick _ _
  change (Phase.acting role (k (w.context c).countInstruction.1)).hookUse = .ask
  rw [htick, hg]
  rfl

theorem Tallied.goes (h : Tallied c hook step t w s) (hpos : 0 < step) (hlib : lib.TicksWhenDue)
    (hgo : LogEntry.stops c (.own w s) = false) (hstep : s.step lib c w = .ran s' w') :
    Tallied c hook step (t.add (w.context c) s.phase) w' s' := by
  have hprompt := h.prompt.step hlib hstep
  have hcontext := h.context
  have hprobed : ∀ {u : World}, Probe.Writes w u → (u.context c).Counted hook step t.counted :=
    fun hwrites => by rwa [World.context, contexts_writes hwrites]
  have hobserved : ∀ {u : World} (stopped : Bool), Probe.Writes w u →
      ((observe u c stopped).context c).Counted hook step t.counted := fun {u} stopped hwrites => by
    have hu : (u.context c).Counted hook step t.counted := by
      rwa [World.context, contexts_writes hwrites]
    rw [observe, World.context_setContext_self (World.lt_of_hook hu.hook)]
    exact hu.observe stopped
  cases transition_of_step hstep with
  | countedOut stack callers | due stack callers | counted stack callers =>
    exact h.counting hpos hprompt rfl hgo hstep
  | plainStep | offers | returns | uncalled | unloaded | notified | expired =>
    exact h.other hprompt rfl (hookUse_acting_ne_tick _ _) hcontext
  | escapes | calls => exact h.other hprompt rfl (hookUse_turn_ne_tick _) hcontext
  | ends | panics | waits => exact h.other hprompt rfl (by simp [Phase.hookUse]) hcontext
  | reports role report => exact h.other hprompt rfl (hookUse_afterAct_ne_tick _ role report) hcontext
  | asks role q k callers =>
    by_cases hcount : q = .count
    · subst hcount
      exact h.asked hpos rfl hgo hprompt hstep
    · have hdestroy : q ≠ .destroy := (Act.TicksWhenDue.answer h.prompt.phase (w.answer c q).1).1
      obtain ⟨references,hsame⟩ := World.context_answer w c hdestroy hcount
      have hother : (Phase.acting role (.query q k)).hookUse = .other := by
        cases q <;> first | rfl | exact absurd rfl hcount
      refine h.other hprompt hother (hookUse_acting_ne_tick _ _) ?_
      rw [hsame]
      exact ⟨hcontext.hook,hcontext.hookStep,hcontext.executed⟩
  | unhooked role k callers hhook =>
    rw [hcontext.hook] at hhook
    cases hhook
  | @checks kind other role k callers hhook =>
    cases kind with
    | tick =>
      exact h.ask hprompt rfl (by simp [Phase.hookUse, (Probe.isTick_start other .tick).mpr rfl])
        rfl
    | point =>
      have hpoint : (Probe.start other .point).isTick = false := by
        simp [Bool.eq_false_iff, Probe.isTick_start]
      exact h.other hprompt rfl (by simp [Phase.hookUse, hpoint]) hcontext
  | ticking stack callers hprobe | checking role k callers hprobe =>
    exact h.look hprompt rfl (by simp [Phase.hookUse, Probe.isTick_goto hprobe])
      (hprobed (Probe.writes_goto hprobe))
  | ticked stack callers hprobe =>
    exact h.look hprompt rfl (hookUse_turn_ne_tick _) (hobserved _ (Probe.writes_finish hprobe))
  | checked role k callers hprobe =>
    exact h.look hprompt rfl (hookUse_acting_ne_tick _ _) (hobserved _ (Probe.writes_finish hprobe))

theorem tally_own (log : List (LogEntry U N)) (w : World) (s : Strand (Frame U N)) :
    tally c (log ++ [.own w s]) = (tally c log).add (w.context c) s.phase := by
  simp [tally]

theorem tally_others (log : List (LogEntry U N)) (w w' : World) :
    tally c (log ++ [.others w w']) = tally c log := by
  simp [tally]

theorem LoggedRun.tallied {x y : World × Strand (Frame U N)} {log : List (LogEntry U N)}
    (h : LoggedRun lib c x log y) (hpos : 0 < step) (hlib : lib.TicksWhenDue)
    (hx : Tallied c hook step {} x.1 x.2) (hgo : ∀ entry ∈ log, entry.stops c = false) :
    Tallied c hook step (tally c log) y.1 y.2 := by
  induction h with
  | refl => exact hx
  | @own log w w' s s' _ hstep ih =>
    have hbefore := ih fun entry hmem => hgo entry (List.mem_append_left _ hmem)
    rw [tally_own]
    exact hbefore.goes hpos hlib (hgo _ (List.mem_append_right _ List.mem_cons_self)) hstep
  | @others log w w' s _ hbeside ih =>
    have hbefore := ih fun entry hmem => hgo entry (List.mem_append_left _ hmem)
    rw [tally_others]
    exact ⟨by rw [hbeside.context]; exact hbefore.context,hbefore.prompt,hbefore.due,hbefore.total⟩

end Strand

structure World.Shows (g : GaugeId) (w : World) (more : ℕ) (w' : World) : Prop where
  size : w'.gauges.size = w.gauges.size
  ticks : (w'.gauge g).ticks = (w.gauge g).ticks + more

namespace World

variable {g i : GaugeId} {w w' w'' : World} {more more' : ℕ}

theorem shows_of_gauges (h : w'.gauges = w.gauges) : w.Shows g 0 w' :=
  ⟨congrArg Array.size h,by rw [World.gauge, h]; rfl⟩

theorem Shows.trans (h : w.Shows g more w') (h' : w'.Shows g more' w'') : w.Shows g (more + more') w'' :=
  ⟨h'.size.trans h.size,by rw [h'.ticks, h.ticks, Nat.add_assoc]⟩

theorem Shows.kept (h : w.Shows g more w') (hgauges : w''.gauges = w'.gauges) : w.Shows g more w'' :=
  h.trans (shows_of_gauges hgauges)

theorem size_setGauge (w : World) (i : GaugeId) (gauge : Gauge) :
    (w.setGauge i gauge).gauges.size = w.gauges.size :=
  Array.size_modify

/-- Another gauge, or the same with as many ticks. -/
theorem shows_setGauge {gauge : Gauge} (hsame : i = g → gauge.ticks = (w.gauge g).ticks) :
    w.Shows g 0 (w.setGauge i gauge) := by
  refine ⟨size_setGauge w i gauge,?_⟩
  unfold setGauge World.gauge at *
  simp only [Array.getElem?_modify]
  split
  · rename_i hi
    have hticks := hsame hi
    cases hread : w.gauges[g]? with
    | none => rfl
    | some _ => simpa [hread] using hticks
  · rfl

theorem shows_setGauge_self {gauge : Gauge} (hg : g < w.gauges.size)
    (hticks : gauge.ticks = (w.gauge g).ticks + more) :
    w.Shows g more (w.setGauge g gauge) := by
  refine ⟨size_setGauge w g gauge,?_⟩
  rw [← hticks, setGauge, World.gauge]
  simp [hg, Array.getElem_modify_self]

theorem shows_retarget (w : World) (hook : Option Hook) (target : Option NotifierId) :
    w.Shows g 0 (w.retarget hook target).2 := by
  unfold retarget
  split
  · exact shows_of_gauges rfl
  · exact shows_setGauge fun hi => by rw [hi]
  · exact shows_of_gauges rfl

theorem shows_answer (w : World) (c : ContextId) {q : Query} (hq : q ≠ .destroy) :
    w.Shows g 0 (w.answer c q).2 := by
  cases q with
  | destroy => exact absurd rfl hq
  | retarget target => exact shows_retarget w _ target
  | share value =>
    refine shows_of_gauges ?_
    change (w.share c value).2.gauges = w.gauges
    unfold share
    dsimp only
    split
    · rfl
    · split <;> rfl
  | newTable | newShared | get | set | length | paths | hookStep | count | notify | isNotified
  | newNotifier =>
    exact shows_of_gauges rfl

end World

def HookUse.ticks : HookUse → ℕ
  | .tick => 1
  | _ => 0

theorem Probe.shows_goto {g : GaugeId} {w w' : World} {probe next : Probe}
    (hprobe : probe.step w = .goto next w') (htick : probe.isTick = true → probe = .gauge g .tick) :
    w.Shows g (if probe.isTick then HookUse.tick else .other).ticks w' := by
  cases probe with
  | gauge i kind => cases hprobe
  | worker h at_ =>
    have hother : (Probe.worker h at_).isTick = false :=
      Bool.eq_false_iff.mpr fun hat => nomatch htick hat
    simp only [Probe.step] at hprobe
    split at hprobe <;> cases hprobe
    rw [hother]
    exact World.shows_of_gauges rfl

theorem Probe.shows_finish {g : GaugeId} {w w' : World} {probe : Probe} {stopped : Bool}
    (hg : g < w.gauges.size) (hprobe : probe.step w = .finish stopped w')
    (htick : probe.isTick = true → probe = .gauge g .tick) :
    w.Shows g (if probe.isTick then HookUse.tick else .other).ticks w' := by
  cases probe with
  | gauge i kind =>
    cases hprobe
    cases kind with
    | tick =>
      obtain rfl : i = g := (Probe.gauge.inj (htick rfl)).1
      exact World.shows_setGauge_self hg rfl
    | point => exact World.shows_setGauge fun hi => by rw [hi]; rfl
  | worker h at_ =>
    have hother : (Probe.worker h at_).isTick = false :=
      Bool.eq_false_iff.mpr fun hat => nomatch htick hat
    simp only [Probe.step] at hprobe
    split at hprobe <;> cases hprobe
    rw [hother]
    exact World.shows_of_gauges rfl

def Phase.TicksAt {F : Type} (g : GaugeId) : Phase F → Prop
  | .counting probe _ | .checking probe .. => probe.isTick = true → probe = .gauge g .tick
  | _ => True

theorem Phase.ticksAt_of_hookUse {F : Type} {g : GaugeId} {phase : Phase F} (h : phase.hookUse ≠ .tick) :
    phase.TicksAt g := by
  cases phase with
  | counting | checking => exact fun htick => absurd (if_pos htick) h
  | turn | acting | waiting | exit => trivial

namespace Strand

variable {lib : Library U N} {c : ContextId} {g : GaugeId} {step : UInt32} {w w' : World}
  {s s' : Strand (Frame U N)} {t : Tally}

theorem ticked_add (t : Tally) (context : Context) (phase : Phase (Frame U N)) :
    (t.add context phase).ticked = t.ticked + phase.hookUse.ticks := by
  unfold Tally.add
  cases phase.hookUse <;> rfl

theorem ticksAt_step (hhook : (w.context c).hook = some (.gauge g)) (hs : s.phase.TicksAt g)
    (hstep : s.step lib c w = .ran s' w') : s'.phase.TicksAt g := by
  cases transition_of_step hstep with
  | due stack callers _ hsome =>
    obtain rfl := Option.some.inj (hsome.symm.trans hhook)
    exact fun _ => rfl
  | @checks kind hook role k callers hsome =>
    obtain rfl := Option.some.inj (hsome.symm.trans hhook)
    intro htick
    rw [(Probe.isTick_start _ kind).mp htick]
    rfl
  | ticking stack callers hprobe | checking role k callers hprobe =>
    intro htick
    rw [Probe.isTick_goto hprobe] at htick
    cases htick
  | reports role report => exact Phase.ticksAt_of_hookUse (hookUse_afterAct_ne_tick _ role report)
  | countedOut | counted | plainStep | offers | escapes | returns | ends | asks | unhooked | waits
  | uncalled | unloaded | calls | panics | ticked | checked | notified | expired => trivial

/-- The gauge of the context shows the ticks that begin, and no others. -/
theorem shows_step (hs : s.Prompt) (hg : g < w.gauges.size) (hphase : s.phase.TicksAt g)
    (hstep : s.step lib c w = .ran s' w') : w.Shows g s.phase.hookUse.ticks w' := by
  cases transition_of_step hstep with
  | asks role q k =>
    have hother : (Phase.acting role (.query q k)).hookUse.ticks = 0 := by cases q <;> rfl
    rw [hother]
    exact World.shows_answer w c (Act.TicksWhenDue.answer hs.phase (w.answer c q).1).1
  | @checks kind =>
    cases kind <;> exact World.shows_of_gauges rfl
  | @unhooked kind =>
    cases kind <;> exact World.shows_of_gauges rfl
  | ticking stack callers hprobe | checking role k callers hprobe => exact Probe.shows_goto hprobe hphase
  | ticked stack callers hprobe | checked role k callers hprobe =>
    exact (Probe.shows_finish hg hprobe hphase).kept rfl
  | countedOut | due | counted | plainStep | offers | escapes | returns | ends | reports | waits
  | uncalled | unloaded | calls | panics | notified | expired => exact World.shows_of_gauges rfl

theorem LoggedRun.shows {x y : World × Strand (Frame U N)} {log : List (LogEntry U N)}
    (h : LoggedRun lib c x log y) (hpos : 0 < step) (hlib : lib.TicksWhenDue)
    (hx : Tallied c (.gauge g) step {} x.1 x.2) (hphase : x.2.phase.TicksAt g)
    (hg : g < x.1.gauges.size) (hgo : ∀ entry ∈ log, entry.stops c = false)
    (hothers : ∀ u u', .others u u' ∈ log → u'.gauges = u.gauges) :
    y.2.phase.TicksAt g ∧ x.1.Shows g (tally c log).ticked y.1 := by
  induction h with
  | refl => exact ⟨hphase,World.shows_of_gauges rfl⟩
  | @own log w w' s s' hbefore hstep ih =>
    have hgo' : ∀ entry ∈ log, entry.stops c = false :=
      fun entry hmem => hgo entry (List.mem_append_left _ hmem)
    obtain ⟨hticks,hshows⟩ := ih hgo' fun u u' hmem => hothers u u' (List.mem_append_left _ hmem)
    have hw := hbefore.tallied hpos hlib hx hgo'
    rw [tally_own, ticked_add]
    exact ⟨ticksAt_step hw.context.hook hticks hstep,
      hshows.trans (shows_step hw.prompt (hshows.size ▸ hg) hticks hstep)⟩
  | @others log w w' s _ _ ih =>
    obtain ⟨hticks,hshows⟩ := ih (fun entry hmem => hgo entry (List.mem_append_left _ hmem))
      fun u u' hmem => hothers u u' (List.mem_append_left _ hmem)
    rw [tally_others]
    exact ⟨hticks,hshows.kept (hothers w w' (List.mem_append_right _ List.mem_cons_self))⟩

end Strand

end Workers
