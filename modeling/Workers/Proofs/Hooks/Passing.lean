import Workers.Proofs.Control.Latency
import Workers.Proofs.Control.PlainSteps
import Workers.Proofs.Hooks.Unseen
/-! # Hooks that let everything pass

A hook may ask for no stop and still keep its context waiting for long, as a worker does that is paused
and resumed.  One that asks for nothing does not even keep the context waiting.  Then a run without a
hook is also a run with it, since every check comes to its end by itself.
-/
namespace Workers

variable {U N : Type}

namespace World

/-- The hook of a context asks for no stop, and somebody else keeps the worker that it may be. -/
structure HookAsksNoStop (w : World) (c : ContextId) : Prop where
  gauge : ∀ g, (w.context c).hook = some (.gauge g) → (w.gauge g).limit = none ∧
      (w.gauge g).cancelled = false
  worker : ∀ h, (w.context c).hook = some (.worker h) →
    (w.handle h).control.command ≠ .cancel ∧ (w.pool (w.handle h).pool).requested = false
  shared : w.Shared c

structure HookAsksNothing (w : World) (c : ContextId) : Prop where
  hookAsksNoStop : w.HookAsksNoStop c
  running : ∀ h, (w.context c).hook = some (.worker h) → (w.handle h).control.command = .run

variable {c : ContextId} {w w' : World}

/-- What a change has to leave of the hook, if it leaves the hook. -/
theorem HookAsksNothing.of_kept (hw : w.HookAsksNothing c) (hpools : w'.pools = w.pools)
    (hgauge : ∀ g, (w'.context c).hook = some (.gauge g) → (w.context c).hook = some (.gauge g) ∧
      (w'.gauge g).limit = (w.gauge g).limit ∧ (w'.gauge g).cancelled = (w.gauge g).cancelled)
    (hworker : ∀ h, (w'.context c).hook = some (.worker h) → (w.context c).hook = some (.worker h) ∧
      (w'.handle h).control.command = (w.handle h).control.command ∧
      (w'.handle h).pool = (w.handle h).pool ∧ (w'.handle h).owners = (w.handle h).owners) :
    w'.HookAsksNothing c where
  hookAsksNoStop.gauge g hg := by
    obtain ⟨hhook,hlimit,hcancelled⟩ := hgauge g hg
    rw [hlimit, hcancelled]
    exact hw.hookAsksNoStop.gauge g hhook
  hookAsksNoStop.worker h hh := by
    obtain ⟨hhook,hcommand,hpool,_⟩ := hworker h hh
    rw [hcommand, hpool, World.pool, hpools]
    exact hw.hookAsksNoStop.worker h hhook
  hookAsksNoStop.shared h hh := by
    obtain ⟨hhook,_,_,howners⟩ := hworker h hh
    rw [howners]
    exact hw.hookAsksNoStop.shared h hhook
  running h hh := by
    obtain ⟨hhook,hcommand,_⟩ := hworker h hh
    rw [hcommand]
    exact hw.running h hhook

theorem HookAsksNothing.of_eq (hw : w.HookAsksNothing c)
    (hhook : (w'.context c).hook = (w.context c).hook) (hhandles : w'.handles = w.handles)
    (hgauges : w'.gauges = w.gauges) (hpools : w'.pools = w.pools) : w'.HookAsksNothing c := by
  refine hw.of_kept hpools (fun g hg => ⟨hhook.symm.trans hg,?_⟩) fun h hh => ⟨hhook.symm.trans hh,?_⟩
  · rw [World.gauge, hgauges]
    exact ⟨rfl,rfl⟩
  · rw [World.handle, hhandles]
    exact ⟨rfl,rfl,rfl⟩

theorem gauge_setGauge (w : World) (g j : GaugeId) (gauge : Gauge) :
    (w.setGauge g gauge).gauge j = gauge ∨
    (w.setGauge g gauge).gauge j = w.gauge j := by
  unfold setGauge World.gauge
  simp only [Array.getElem?_modify]
  by_cases hgj : g = j
  · subst hgj
    cases w.gauges[g]? with
    | none => exact .inr (by simp)
    | some _ => exact .inl (by simp)
  · exact .inr (by simp [hgj])

theorem HookAsksNothing.setGauge (hw : w.HookAsksNothing c) {g : GaugeId} {gauge : Gauge}
    (hlimit : gauge.limit = (w.gauge g).limit)
    (hcancelled : gauge.cancelled = (w.gauge g).cancelled)
    (hhook : (w.context c).hook = some (.gauge g)) :
    (w.setGauge g gauge).HookAsksNothing c := by
  refine hw.of_kept rfl (fun j hj => ⟨hj,?_⟩) fun h hh => ⟨hh,rfl,rfl,rfl⟩
  obtain rfl : g = j := Hook.gauge.inj (Option.some.inj (hhook.symm.trans hj))
  rcases gauge_setGauge w g g gauge with hg | hg
  · rw [hg]
    exact ⟨hlimit,hcancelled⟩
  · rw [hg]
    exact ⟨rfl,rfl⟩

theorem HookAsksNothing.setHandle (hw : w.HookAsksNothing c) {h : WorkerId}
    {handle : WorkerHandle} (hcommand : handle.control.command = (w.handle h).control.command)
    (hpool : handle.pool = (w.handle h).pool) (howners : handle.owners = (w.handle h).owners) :
    (w.setHandle h handle).HookAsksNothing c := by
  refine hw.of_kept rfl (fun g hg => ⟨hg,rfl,rfl⟩) fun i hi => ⟨hi,?_⟩
  rw [handle_setHandle]
  split
  · rename_i hhi
    obtain ⟨rfl,_⟩ := hhi
    exact ⟨hcommand,hpool,howners⟩
  · exact ⟨rfl,rfl,rfl⟩

theorem HookAsksNothing.setContext (hw : w.HookAsksNothing c) {context : Context}
    (hhook : context.hook = (w.context c).hook) :
    (w.setContext c context).HookAsksNothing c := by
  refine hw.of_eq ?_ rfl rfl rfl
  rw [context_setContext]
  split
  · exact hhook
  · rfl

theorem hook_destroy (hshared : w.Shared c) (hdead : ¬ (w.context c).destroyed = true) :
    ((w.destroy c).context c).hook = none := by
  have hgone : w.destroy c = (w.clearHook c).destroyUnhooked c := by
    simp only [World.destroy, if_neg hdead]
    rfl
  have hclear := hook_clearHook hshared
  rw [hgone, Option.eq_none_iff_forall_ne_some]
  intro k hk
  rw [World.destroyUnhooked, context_setContext] at hk
  split at hk
  · rw [Context.hook_destroy hk] at hclear
    cases hclear
  · change ((w.clearHook c).context c).hook = some k at hk
    rw [hclear] at hk
    cases hk

theorem HookAsksNothing.answer (hw : w.HookAsksNothing c) (q : Query) :
    (w.answer c q).2.HookAsksNothing c := by
  by_cases hdestroy : q = .destroy
  · subst hdestroy
    by_cases hdead : (w.context c).destroyed = true
    · have hsame : (w.answer c .destroy).2 = w := by
        simp only [World.answer, World.destroy, if_pos hdead]
      rwa [hsame]
    · have hnone := hook_destroy hw.hookAsksNoStop.shared hdead
      have hno : ∀ k, ((w.answer c .destroy).2.context c).hook ≠ some k := fun k hk => by
        change ((w.destroy c).context c).hook = some k at hk
        rw [hnone] at hk
        cases hk
      exact ⟨⟨fun g hg => absurd hg (hno _),fun h hh => absurd hh (hno _),fun h hh => absurd hh (hno _)⟩,
        fun h hh => absurd hh (hno _)⟩
  · have hhook := (keepsHook_answer (c := c) w c hdestroy).hook
    cases q with
    | destroy => exact absurd rfl hdestroy
    | retarget target =>
      simp only [World.answer, World.retarget]
      split
      · exact hw
      · rename_i g hg
        exact hw.setGauge rfl rfl hg
      · exact hw.setHandle rfl rfl rfl
    | share value =>
      refine hw.of_eq hhook ?_ ?_ ?_ <;>
      · simp only [World.answer, World.share]
        split
        · rfl
        · split <;> rfl
    | newTable | newShared | get | set | length | paths | hookStep | count | notify | isNotified
    | newNotifier =>
      exact hw.of_eq hhook rfl rfl rfl

end World

namespace Check

variable {at_ next : Check} {control control' : Control} {stopped : Bool}

theorem start_ne_stop (kind : CheckKind) : start kind ≠ .stop := by
  cases kind <;> nofun

/-- Only a cancellation or a shutdown leads to the stop. -/
theorem goto_ne_stop (hcommand : control.command ≠ .cancel)
    (hmove : at_.step false control = .goto next control') :
    next ≠ .stop := by
  cases at_ with
  | tickShutdown | acknowledge | pointShutdown =>
    cases hmove
    simp
  | tickCommand | reconsider | pointCommand =>
    cases hc : control.command with
    | cancel => exact absurd hc hcommand
    | run | pause =>
      simp only [step, hc] at hmove
      cases hmove <;> simp
  | awaitCommand =>
    simp only [step] at hmove
    split at hmove <;> cases hmove
    simp
  | resume | stop => cases hmove

theorem finish_ne_true (hat : at_ ≠ .stop) {shutdown : Bool}
    (hmove : at_.step shutdown control = .finish stopped control') :
    stopped = false := by
  cases at_ with
  | tickCommand | reconsider | pointCommand =>
    simp only [step] at hmove
    split at hmove <;> cases hmove <;> rfl
  | awaitCommand =>
    simp only [step] at hmove
    split at hmove <;> cases hmove
  | resume =>
    cases hmove
    rfl
  | stop => exact absurd rfl hat
  | tickShutdown | acknowledge | pointShutdown => cases hmove

def Quick : Check → Prop
  | .tickShutdown | .tickCommand | .pointShutdown | .pointCommand => True
  | _ => False

theorem quick_start (kind : CheckKind) : (start kind).Quick := by
  cases kind <;> trivial

/-- Without a command to heed, a check looks once at the flag and once at the command. -/
theorem Quick.step (hat : at_.Quick) (hcommand : control.command = .run) :
    (∃ next, next.Quick ∧ at_.step false control = .goto next control ∧
        (at_ = .tickShutdown ∧ next = .tickCommand ∨ at_ = .pointShutdown ∧ next = .pointCommand)) ∨
      at_.step false control = .finish false control := by
  cases at_ with
  | tickShutdown => exact .inl ⟨.tickCommand,trivial,rfl,.inl ⟨rfl,rfl⟩⟩
  | pointShutdown => exact .inl ⟨.pointCommand,trivial,rfl,.inr ⟨rfl,rfl⟩⟩
  | tickCommand | pointCommand =>
    refine .inr ?_
    simp only [Check.step, hcommand]
  | acknowledge | awaitCommand | reconsider | resume | stop => exact hat.elim

end Check

namespace Probe

variable {probe next : Probe} {P : Check → Prop} {w w' : World} {c : ContextId} {stopped : Bool}

def At (P : Check → Prop) : Probe → Prop
  | .gauge .. => True
  | .worker _ at_ => P at_

theorem at_start (hstart : ∀ kind, P (Check.start kind)) (hook : Hook) (kind : CheckKind) :
    (start hook kind).At P := by
  cases hook with
  | gauge g => trivial
  | worker h => exact hstart kind

theorem hook_start (hook : Hook) (kind : CheckKind) : (start hook kind).hook = hook := by
  cases hook <;> rfl

theorem hook_goto (hprobe : probe.step w = .goto next w') : next.hook = probe.hook := by
  cases probe with
  | gauge g kind => cases hprobe
  | worker h at_ =>
    simp only [step] at hprobe
    split at hprobe <;> cases hprobe
    rfl

variable (hhook : (w.context c).hook = some probe.hook)

include hhook in
theorem at_goto (hl : w.HookAsksNoStop c) (hprobe : probe.step w = .goto next w') :
    next.At (· ≠ .stop) := by
  cases probe with
  | gauge g kind => cases hprobe
  | worker h at_ =>
    obtain ⟨hcommand,hrequested⟩ := hl.worker h hhook
    simp only [step, hrequested] at hprobe
    split at hprobe <;> cases hprobe
    rename_i hmove
    exact Check.goto_ne_stop hcommand hmove

include hhook in
theorem finish_false (hl : w.HookAsksNoStop c) (hat : probe.At (· ≠ .stop))
    (hprobe : probe.step w = .finish stopped w') :
    stopped = false := by
  cases probe with
  | gauge g kind =>
    obtain ⟨hlimit,hcancelled⟩ := hl.gauge g hhook
    cases hprobe
    cases kind with
    | tick => exact congrArg (Option.any _) hlimit
    | point => exact hcancelled
  | worker h at_ =>
    simp only [step] at hprobe
    split at hprobe <;> cases hprobe
    rename_i hmove
    exact Check.finish_ne_true hat hmove

def left : Probe → ℕ
  | .worker _ .tickShutdown | .worker _ .pointShutdown => 2
  | _ => 1

theorem left_le (probe : Probe) : 1 ≤ probe.left ∧ probe.left ≤ 2 := by
  unfold left
  split <;> omega

include hhook in
/-- A check that is waived goes on, or comes to its end, and leaves what the hook says as it is. -/
theorem step_of_hookAsksNothing (hw : w.HookAsksNothing c) (hat : probe.At Check.Quick) :
    (∃ next w', probe.step w = .goto next w' ∧ next.At Check.Quick ∧ next.left < probe.left ∧
      w'.HookAsksNothing c) ∨
      ∃ w', probe.step w = .finish false w' ∧ w'.HookAsksNothing c := by
  cases probe with
  | gauge g kind =>
    obtain ⟨hlimit,hcancelled⟩ := hw.hookAsksNoStop.gauge g hhook
    refine .inr ⟨w.setGauge g ((w.gauge g).check kind).2,?_,?_⟩
    · cases kind <;> simp [Probe.step, Gauge.check, Gauge.tick, Gauge.point, hlimit, hcancelled]
    · cases kind <;> exact hw.setGauge rfl rfl hhook
  | worker h at_ =>
    obtain ⟨_,hrequested⟩ := hw.hookAsksNoStop.worker h hhook
    have hkept : (w.setHandle h { w.handle h with control := (w.handle h).control }).HookAsksNothing
      c := hw.setHandle rfl rfl rfl
    rcases Check.Quick.step hat (hw.running h hhook) with ⟨next,hnext,hmove,hpoints⟩ | hmove
    · refine .inl ⟨.worker h next,_,?_,hnext,?_,hkept⟩
      · simp only [Probe.step, hrequested, hmove]
      · rcases hpoints with ⟨rfl,rfl⟩ | ⟨rfl,rfl⟩ <;> exact Nat.one_lt_two
    · refine .inr ⟨_,?_,hkept⟩
      simp only [Probe.step, hrequested, hmove]

end Probe

def Act.lag {α : Type} : Act α → ℕ
  | .check _ k => (k false).lag + 1
  | _ => 0

def Phase.rank {F : Type} : Phase F → ℕ
  | .turn (.count _) => 3
  | .counting probe _ => probe.left
  | .acting _ act => 3 * act.lag
  | .checking probe _ k => 3 * (k false).lag + probe.left
  | _ => 0

namespace Strand

variable {lib : Library U N} {c : ContextId} {w w' w₀ w₁ : World} {s s' s₀ s₁ : Strand (Frame U N)}
    {P : Check → Prop}

def Probes (c : ContextId) (P : Check → Prop) (w : World) (s : Strand (Frame U N)) : Prop :=
  ∀ probe, s.phase.probe? = some probe → (w.context c).hook = some probe.hook ∧ probe.At P

theorem probe?_afterAct (stopping : Bool) (role : Role (Frame U N)) (report : role.Report) :
    (afterAct lib stopping role report).probe? = none := by
  cases role with
  | loneStep =>
    obtain ⟨frame,move⟩ := report
    cases move <;> rfl
  | step | receive | loneReceive | outside => rfl

theorem probes_of_none (hnone : s.phase.probe? = none) : Probes c P w s := by
  intro probe hprobe
  rw [hnone] at hprobe
  cases hprobe

/-- Checks begin where a check begins, and go on from where they are. -/
theorem Probes.step (hp : Probes c P w s) (hstart : ∀ kind, P (Check.start kind))
    (hgoto : ∀ probe next u, s.phase.probe? = some probe → probe.step w = .goto next u → next.At P)
    (hstep : s.step lib c w = .ran s' w') : Probes c P w' s' := by
  have hnext : ∀ {probe next : Probe} {u : World} {s₂ : Strand (Frame U N)}, s.phase.probe? =
    some probe →
      probe.step w = .goto next u → s₂.phase.probe? = some next → Probes c P u s₂ := by
    intro probe next u s₂ hprobe hmove hs₂ probe' hprobe'
    obtain rfl : next = probe' := Option.some.inj (hs₂.symm.trans hprobe')
    refine ⟨?_,hgoto probe next u hprobe hmove⟩
    rw [World.context, contexts_writes (Probe.writes_goto hmove), Probe.hook_goto hmove]
    exact (hp probe hprobe).1
  cases transition_of_step hstep with
  | @due hook stack callers _ hhook =>
    rintro probe ⟨⟩
    refine ⟨?_,Probe.at_start hstart hook .tick⟩
    rw [World.counted, World.context_setContext_self (World.lt_of_hook hhook), Probe.hook_start]
    exact (Context.hook_countInstruction _).trans hhook
  | @checks kind hook role k callers hhook =>
    rintro probe ⟨⟩
    exact ⟨by rw [Probe.hook_start, hhook],Probe.at_start hstart hook kind⟩
  | ticking stack callers hmove | checking role k callers hmove => exact hnext rfl hmove rfl
  | reports role report callers => exact probes_of_none (probe?_afterAct _ role report)
  | countedOut | counted | plainStep | offers | escapes | returns | ends => exact probes_of_none rfl
  | asks | unhooked | waits | uncalled | unloaded | calls | panics => exact probes_of_none rfl
  | ticked | checked | notified | expired => exact probes_of_none rfl

theorem Probes.others (hp : Probes c P w s) (hcontext : w'.context c = w.context c) :
    Probes c P w' s := by
  intro probe hprobe
  rw [hcontext]
  exact hp probe hprobe

theorem harmless_of_hookAsksNoStop (hl : w.HookAsksNoStop c) (hp : Probes c (· ≠ .stop) w s) :
    Harmless c w s where
  passes hstops := by
    cases hstops with
    | @counting probe u stack callers hprobe =>
      obtain ⟨hhook,hat⟩ := hp probe rfl
      cases Probe.finish_false hhook hl hat hprobe
    | @checking probe u role k callers hprobe =>
      obtain ⟨hhook,hat⟩ := hp probe rfl
      cases Probe.finish_false hhook hl hat hprobe
  shared _ := hl.shared

/-- Whatever a hook without a stop makes its context wait for, no check of it stops the run. -/
theorem Goes.harmless {tr : List (Observation U N)} (hp : Probes c (· ≠ .stop) w s)
    (hgoes : Goes lib c (fun u _ => u.HookAsksNoStop c) w s tr w' s') :
    Goes lib c (Harmless c) w s tr w' s' ∧ Probes c (· ≠ .stop) w' s' := by
  induction hgoes with
  | refl => exact ⟨.refl,hp⟩
  | own _ hl hstep ih =>
    obtain ⟨hrun,hp'⟩ := ih
    refine ⟨hrun.own (harmless_of_hookAsksNoStop hl hp') hstep,
      hp'.step Check.start_ne_stop (fun probe next u hprobe hmove => ?_) hstep⟩
    exact Probe.at_goto (hp' probe hprobe).1 hl hmove
  | others _ v hcontext hsize ih =>
    obtain ⟨hrun,hp'⟩ := ih
    exact ⟨hrun.others v hcontext hsize,hp'.others hcontext⟩

/-- A run of a strand may be cut in two. -/
theorem Goes.trans {may : World → Strand (Frame U N) → Prop} {u v : World}
    {s₂ s₃ : Strand (Frame U N)} {tr tr' : List (Observation U N)}
    (h : Goes lib c may w s tr u s₂) (h' : Goes lib c may u s₂ tr' v s₃) :
    Goes lib c may w s (tr ++ tr') v s₃ := by
  induction h' with
  | refl => rwa [List.append_nil]
  | own _ hmay hstep ih =>
    rw [← List.append_assoc]
    exact ih.own hmay hstep
  | others _ v hcontext hsize ih =>
    rw [← List.append_assoc]
    exact ih.others v hcontext hsize

section Waived

variable (hw : w.HookAsksNothing c) (hp : Probes c Check.Quick w s)

include hw hp in
/-- A step of a check leaves fewer of them. -/
theorem rank_lt (hchecks : Phase.Checks w s.phase s'.phase) : s'.phase.rank < s.phase.rank := by
  have hgoto : ∀ {probe next : Probe} {u : World}, s.phase.probe? = some probe →
    probe.step w = .goto next u →
      next.left < probe.left := by
    intro probe next u hprobe hmove
    obtain ⟨hhook,hat⟩ := hp probe hprobe
    rcases Probe.step_of_hookAsksNothing hhook hw hat with ⟨next',u',hmove',_,hlt,_⟩ | ⟨u',hmove',_⟩
    · rw [hmove] at hmove'
      cases hmove'
      exact hlt
    · rw [hmove] at hmove'
      cases hmove'
  obtain ⟨phase,callers⟩ := s
  obtain ⟨phase',callers'⟩ := s'
  cases hchecks with
  | count hook stack => exact Nat.lt_succ_of_le (Probe.left_le _).2
  | counting hmove stack => exact hgoto rfl hmove
  | begin hook kind role k =>
    have hle := (Probe.left_le (Probe.start hook kind)).2
    simp only [Phase.rank, Act.lag]
    omega
  | skip kind role k =>
    simp only [Phase.rank, Act.lag]
    omega
  | checking hmove role k => exact Nat.add_lt_add_left (hgoto rfl hmove) _
  | finish probe role k => exact Nat.lt_add_of_pos_right (Probe.left_le probe).1

include hw hp in
theorem probes_step (hstep : s.step lib c w = .ran s' w') : Probes c Check.Quick w' s' := by
  refine hp.step Check.quick_start (fun probe next u hprobe hmove => ?_) hstep
  obtain ⟨hhook,hat⟩ := hp probe hprobe
  rcases Probe.step_of_hookAsksNothing hhook hw hat with ⟨next',u',hmove',hnext,_⟩ | ⟨u',hmove',_⟩
  · rw [hmove] at hmove'
    cases hmove'
    exact hnext
  · rw [hmove] at hmove'
    cases hmove'

include hw hp in
theorem hookAsksNothing_step (hstep : s.step lib c w = .ran s' w') : w'.HookAsksNothing c := by
  have hprobes : ∀ {probe : Probe}, s.phase.probe? = some probe →
      (∀ next u, probe.step w = .goto next u → u.HookAsksNothing c) ∧
        ∀ stopped u, probe.step w = .finish stopped u → (observe u c stopped).HookAsksNothing c := by
    intro probe hprobe
    obtain ⟨hhook,hat⟩ := hp probe hprobe
    rcases Probe.step_of_hookAsksNothing hhook hw hat with ⟨next',u',hmove',_,_,hu⟩ | ⟨u',hmove',hu⟩
    · rw [hmove']
      exact ⟨fun _ _ h => by cases h; exact hu,nofun⟩
    · rw [hmove']
      exact ⟨nofun,fun _ _ h => by cases h; exact hu.setContext (Context.hook_observe _ _)⟩
  cases transition_of_step hstep with
  | due | counted => exact hw.setContext (Context.hook_countInstruction _)
  | asks role q k callers => exact hw.answer q
  | ticking stack callers hmove | checking role k callers hmove => exact (hprobes rfl).1 _ _ hmove
  | ticked stack callers hmove | checked role k callers hmove => exact (hprobes rfl).2 _ _ hmove
  | countedOut | plainStep | offers | escapes | returns | ends => exact hw
  | reports | unhooked | checks | waits | uncalled | unloaded | calls | panics => exact hw
  | notified | expired => exact hw

/-- Where the strand without a hook can go on, so can the one with it, unless a check keeps it
waiting. -/
theorem goes_on (hm : Matches c w s w₀ s₀) (hstep₀ : s₀.step lib c w₀ = .ran s₁ w₁) :
    (∃ s' w', s.step lib c w = .ran s' w') ∨ ∃ probe, s.phase.probe? = some probe ∧
    probe.step w = .blocked := by
  obtain ⟨hworld,hphase,_,_⟩ := hm
  obtain ⟨phase,callers⟩ := s
  obtain ⟨phase₀,callers₀⟩ := s₀
  cases hphase with
  | turn | acting => exact .inl ⟨_,_,rfl⟩
  | counting probe | checking probe =>
    simp only [step]
    split
    · exact .inl ⟨_,_,rfl⟩
    · exact .inl ⟨_,_,rfl⟩
    · rename_i hblocked
      exact .inr ⟨probe,rfl,hblocked⟩
  | waiting n deadline role h =>
    have hnotified : w₀.isNotified n = w.isNotified n := by
      rw [World.isNotified, World.isNotified, hworld.notifiers]
    simp only [step, hnotified, hworld.clock] at hstep₀
    simp only [step]
    split
    · exact .inl ⟨_,_,rfl⟩
    · rename_i hn
      rw [if_neg hn] at hstep₀
      split
      · exact .inl ⟨_,_,rfl⟩
      · rename_i hlate
        rw [if_neg hlate] at hstep₀
        cases hstep₀
  | exit => cases hstep₀

include hw hp in
theorem hookAsksNothing_goes_on (hm : Matches c w s w₀ s₀) (hstep₀ : s₀.step lib c w₀ = .ran s₁ w₁) :
    ∃ s' w', s.step lib c w = .ran s' w' := by
  rcases goes_on hm hstep₀ with hran | ⟨probe,hprobe,hblocked⟩
  · exact hran
  · obtain ⟨hhook,hat⟩ := hp probe hprobe
    rcases Probe.step_of_hookAsksNothing hhook hw hat with ⟨_,_,hmove,_⟩ | ⟨_,hmove,_⟩ <;>
    · rw [hblocked] at hmove
      cases hmove

end Waived

/-- Every step without a hook is taken with it too, once the checks before it have come to their end. -/
theorem Matches.catches (hlib : lib.IgnoresHook) (hw : w.HookAsksNothing c)
    (hp : Probes c Check.Quick w s) (hm : Matches c w s w₀ s₀)
    (hstep₀ : s₀.step lib c w₀ = .ran s₁ w₁) :
    ∃ w' s', Goes lib c (Harmless c) w s (s₀.calls lib c w₀ s₁ w₁) w' s' ∧ Matches c w' s' w₁ s₁ ∧
    w'.HookAsksNothing c ∧
      Probes c Check.Quick w' s' := by
  induction hrank : s.phase.rank using Nat.strongRecOn generalizing w s with
  | ind rank ih =>
    obtain ⟨s₂,w₂,hstep⟩ := hookAsksNothing_goes_on hw hp hm hstep₀
    have hw₂ := hookAsksNothing_step hw hp hstep
    have hp₂ := probes_step hw hp hstep
    have hquick : Probes c (· ≠ .stop) w s := fun probe hprobe => by
      obtain ⟨hhook,hat⟩ := hp probe hprobe
      refine ⟨hhook,?_⟩
      cases probe with
      | gauge => trivial
      | worker h at_ =>
        rintro rfl
        exact hat.elim
    have hone : Goes lib c (Harmless c) w s ([] ++ s.calls lib c w s₂ w₂) w₂ s₂ :=
      .own .refl (harmless_of_hookAsksNoStop hw.hookAsksNoStop hquick) hstep
    rcases hm.follows hlib (harmless_of_hookAsksNoStop hw.hookAsksNoStop hquick)
      hstep with ⟨hcalls,hchecks,hm₂⟩ | ⟨w₃,s₃,hstep₁,hcalls,hm₂⟩
    · obtain ⟨w',s',hrun,hend⟩ := ih _ (hrank ▸ rank_lt hw hp hchecks) hw₂ hp₂ hm₂ rfl
      rw [hcalls] at hone
      exact ⟨w',s',hone.trans hrun,hend⟩
    · rw [hstep₀] at hstep₁
      cases hstep₁
      rw [hcalls]
      exact ⟨w₂,s₂,hone,hm₂,hw₂,hp₂⟩

/-- A run without a hook is a run with one that asks for nothing. -/
theorem Goes.catches (hlib : lib.IgnoresHook) (hw : w.HookAsksNothing c)
    (hp : Probes c Check.Quick w s) (hm : Matches c w s w₀ s₀) {tr : List (Observation U N)}
    (hgoes : Goes lib c (fun _ _ => True) w₀ s₀ tr w₁ s₁) :
    ∃ w' s', Goes lib c (Harmless c) w s tr w' s' ∧ Matches c w' s' w₁ s₁ := by
  suffices h : ∃ w' s', Goes lib c (Harmless c) w s tr w' s' ∧ Matches c w' s' w₁ s₁ ∧
    w'.HookAsksNothing c ∧
      Probes c Check.Quick w' s' by
    obtain ⟨w',s',hrun,hm',_⟩ := h
    exact ⟨w',s',hrun,hm'⟩
  induction hgoes with
  | refl => exact ⟨w,s,.refl,hm,hw,hp⟩
  | own _ _ hstep ih =>
    obtain ⟨w',s',hrun,hm',hw',hp'⟩ := ih
    obtain ⟨w'',s'',hnext,hend⟩ := hm'.catches hlib hw' hp' hstep
    exact ⟨w'',s'',hrun.trans hnext,hend⟩
  | others _ v hcontext hsize ih =>
    obtain ⟨w',s',hrun,hm',hw',hp'⟩ := ih
    have hworld : World.Hookless c
        { w' with memory := v.memory, notifiers := v.notifiers, clock := v.clock } v :=
      ⟨rfl,rfl,rfl,hm'.world.lt,hm'.world.lt'.trans_le hsize,hcontext.trans hm'.world.context⟩
    exact ⟨_,s',
      hrun.others { w' with memory := v.memory, notifiers := v.notifiers, clock := v.clock } rfl
      le_rfl,
      ⟨hworld,hm'.phase,hm'.callers,hm'.going⟩,hw'.of_eq rfl rfl rfl rfl,hp'.others rfl⟩

/-- Checks of the hook are not seen.  Take any world in which a context reports to some hook, at
whatever pace, and the same world with nobody to report to.  Then whatever a call comes to in the
one as long as no check signals stop, it comes to in the other: the same calls of runnables and
handlers between the same doings of others, the same end, and the same tables; and only a check can
keep the one waiting where the other goes on.  If the hook waives its checks, every run without it
is a run with it.  A hook that is lenient, whatever it makes its context wait for, never has a check
signal stop. -/
theorem hook_unseen (hlib : lib.IgnoresHook) {hook : Hook}
    (hhook : (w.context c).hook = some hook) (f : Routine) (arguments : List Value) :
    (∀ tr w' s', Goes lib c (Harmless c) w (ofCall f arguments) tr w' s' →
      ∃ w₁ s₁, Goes lib c (fun _ _ => True) (w.setContext c (w.context c).hookless)
        (ofCall f arguments) tr w₁ s₁ ∧
        s'.exit? = s₁.exit? ∧ w'.Hookless c w₁ ∧ ∀ s₂ w₂, s₁.step lib c w₁ = .ran s₂ w₂ →
          (∃ s'' w'', s'.step lib c w' = .ran s'' w'') ∨ ∃ probe, s'.phase.probe? = some probe ∧
          probe.step w' = .blocked) ∧
    (w.HookAsksNothing c → ∀ tr w₁ s₁,
      Goes lib c (fun _ _ => True) (w.setContext c (w.context c).hookless)
        (ofCall f arguments) tr w₁ s₁ →
        ∃ w' s', Goes lib c (Harmless c) w (ofCall f arguments) tr w' s' ∧ s'.exit? = s₁.exit? ∧
        w'.Hookless c w₁) ∧
    ∀ tr w' s', Goes lib c (fun u _ => u.HookAsksNoStop c) w (ofCall f arguments) tr w' s' →
      Goes lib c (Harmless c) w (ofCall f arguments) tr w' s' := by
  have hm : Matches c w (ofCall f arguments) (w.setContext c (w.context c).hookless)
      (ofCall f arguments : Strand (Frame U N)) :=
    ⟨w.hookless_setContext (World.lt_of_hook hhook),.acting .outside (.call fun _ => .done _),.nil,nofun⟩
  have hidle : ∀ P, Probes c P w (ofCall f arguments : Strand (Frame U N)) :=
    fun _ _ hprobe => by cases hprobe
  refine ⟨fun tr w' s' hgoes => ?_,fun hw tr w₁ s₁ hgoes => ?_,fun tr w' s' hgoes => ?_⟩
  · obtain ⟨w₁,s₁,hrun,hm₁⟩ := hgoes.follows hlib hm
    exact ⟨w₁,s₁,hrun,exit_eq hm₁.phase,hm₁.world,fun s₂ w₂ hstep => goes_on hm₁ hstep⟩
  · obtain ⟨w',s',hrun,hm'⟩ := hgoes.catches hlib hw (hidle _) hm
    exact ⟨w',s',hrun,exit_eq hm'.phase,hm'.world⟩
  · exact (hgoes.harmless (hidle _)).1

open WorkerState (tickingTwice reportingEachStep put)

theorem ignoresHook_tickingTwice : tickingTwice.IgnoresHook :=
  ⟨fun _ => .check (.check (.done _)),fun _ _ => .done _,fun _ => .done _⟩

def drive : ℕ → World × Strand (Frame Unit Unit) → World × Strand (Frame Unit Unit)
  | 0, x => x
  | n + 1, x =>
    match (drive n x).2.step tickingTwice 0 (drive n x).1 with
    | .ran s w => (w,s)
    | .blocked _ => drive n x

theorem Goes.drive {x : World × Strand (Frame Unit Unit)} {w : World}
    {s : Strand (Frame Unit Unit)} {tr : List (Observation Unit Unit)}
    (hgoes : Goes tickingTwice 0 (fun u _ => u.HookAsksNoStop 0) w s tr x.1 x.2) {n : ℕ}
    (hasks : ∀ k < n, ((drive k x).1.context 0).hook = some (.worker 0) ∧
      ((drive k x).1.handle 0).control.command ≠ .cancel ∧
      ((drive k x).1.pool ((drive k x).1.handle 0).pool).requested = false ∧
      1 < ((drive k x).1.handle 0).owners) :
    ∃ tr, Goes tickingTwice 0 (fun u _ => u.HookAsksNoStop 0) w s tr (drive n x).1
      (drive n x).2 := by
  induction n with
  | zero => exact ⟨tr,hgoes⟩
  | succ n ih =>
    obtain ⟨tr',hrun⟩ := ih fun k hk => hasks k (Nat.lt_succ_of_lt hk)
    obtain ⟨hhook,hcommand,hrequested,howners⟩ := hasks n (Nat.lt_succ_self n)
    have honly : ∀ k, ((Strand.drive n x).1.context 0).hook = some k → k = .worker 0 := fun k hk =>
      Option.some.inj (hk.symm.trans hhook)
    have hl : (Strand.drive n x).1.HookAsksNoStop 0 := by
      refine ⟨fun g hg => ?_,fun h hh => ?_,fun h hh => ?_⟩
      · cases honly _ hg
      · cases honly _ hh
        exact ⟨hcommand,hrequested⟩
      · cases honly _ hh
        exact howners
    rw [Strand.drive]
    split
    · rename_i hstep
      exact ⟨_,hrun.own hl hstep⟩
    · exact ⟨tr',hrun⟩

def held : World := (put .pause reportingEachStep).world

def waits : World × Strand (Frame Unit Unit) := drive 5 (held,ofCall ⟨"",0⟩ [])

def resumed : World × Strand (Frame Unit Unit) := (waits.1.putCommand 0 .run,waits.2)

theorem goes_resumed :
    ∃ tr, Goes tickingTwice 0 (fun u _ => u.HookAsksNoStop 0) held
      (ofCall ⟨"",0⟩ []) tr resumed.1 resumed.2 := by
  have hstart : Goes tickingTwice 0 (fun u _ => u.HookAsksNoStop 0) held (ofCall ⟨"",0⟩ []) [] held
    (ofCall ⟨"",0⟩ []) := .refl
  obtain ⟨tr,hwaits⟩ := Goes.drive (x := (held,ofCall ⟨"",0⟩ [])) hstart (n := 5) (by decide)
  have hput : ∀ w : World, (w.putCommand 0 .run).context 0 = w.context 0 ∧
      w.contexts.size ≤ (w.putCommand 0 .run).contexts.size := fun _ => ⟨rfl,le_rfl⟩
  exact ⟨_,hwaits.others (waits.1.putCommand 0 .run) (hput waits.1).1 (hput waits.1).2⟩

/-- A call that was paused and resumed ends as it does with nobody to report to. -/
theorem hook_unseen_resumed :
    (tickingTwice.IgnoresHook ∧ (held.context 0).hook = some (.worker 0)) ∧
    ∃ tr w' s', Goes tickingTwice 0 (fun u _ => u.HookAsksNoStop 0) held
      (ofCall ⟨"",0⟩ []) tr w' s' ∧
      s'.exit? = some (.ended (.ok []) []) ∧ ∃ w₁ s₁,
        Goes tickingTwice 0 (fun _ _ => True) (held.setContext 0 (held.context 0).hookless)
          (ofCall ⟨"",0⟩ []) tr w₁ s₁ ∧
          s₁.exit? = some (.ended (.ok []) []) ∧ w₁.memory = w'.memory := by
  have hhook : (held.context 0).hook = some (.worker 0) := rfl
  have hexit : (drive 14 resumed).2.exit? = some (.ended (.ok []) []) := rfl
  obtain ⟨tr,hresumed⟩ := goes_resumed
  obtain ⟨tr',hrun⟩ := Goes.drive hresumed (n := 14) (by decide)
  obtain ⟨hseen,_,hasks⟩ := hook_unseen ignoresHook_tickingTwice hhook ⟨"",0⟩ []
  obtain ⟨w₁,s₁,hrun₁,hexit₁,hworld,_⟩ := hseen _ _ _ (hasks _ _ _ hrun)
  exact ⟨⟨ignoresHook_tickingTwice,hhook⟩,tr',_,_,hrun,hexit,w₁,s₁,hrun₁,hexit₁.symm.trans hexit,
    hworld.memory⟩

end Strand

end Workers
