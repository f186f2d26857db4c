import Workers.Proofs.Call.Sleep
import Workers.Proofs.Hooks.Ticks
/-! # The calls of code on its context

Code that counts instructions, yields and comes to interruption points, in any order, has made every
one of these calls when it comes to its end.  With them a hook ticks once every step of the
instructions, and once at each yield.
-/
namespace Workers

inductive Visit where
  | count
  | yield
  | point
  deriving DecidableEq

namespace Act

def visit : Visit → Act Bool
  | .count => countInstruction
  | .yield => yieldNow
  | .point => interruptionPoint

def visits : List Visit → Act Bool
  | [] => done false
  | v :: rest => (visit v).bind fun stopped => if stopped then done true else visits rest

def reported (a : Act Bool) : Act Outcome :=
  a.bind fun stopped => done (if stopped then .error .stop else .ok [])

def reportedAfter (rest : List Visit) (stopped : Bool) : Act Outcome :=
  reported (if stopped then done true else visits rest)

theorem reported_visits (v : Visit) (rest : List Visit) :
    reported (visits (v :: rest)) = (visit v).bind (reportedAfter rest) := bind_assoc _ _ _

theorem ticksWhenDue_visits (calls : List Visit) : (visits calls).TicksWhenDue := by
  induction calls with
  | nil => trivial
  | cons v rest ih =>
    refine TicksWhenDue.bind ?_ fun stopped => ?_
    · cases v with
      | count => exact ticksWhenDue_countInstruction
      | yield | point => exact fun _ => trivial
    · cases stopped with
      | true => trivial
      | false => exact ih

theorem ticksWhenDue_reported (calls : List Visit) : (reported (visits calls)).TicksWhenDue :=
  (ticksWhenDue_visits calls).bind fun _ => trivial

end Act

namespace Strand

variable {U N : Type} {lib : Library U N} {c : ContextId} {w w' : World} {s s' : Strand (Frame U N)}

def ofVisits (calls : List Visit) : Strand (Frame U N) := ofAct (Act.visits calls).orStop

theorem ofVisits_eq (calls : List Visit) :
    (ofVisits calls : Strand (Frame U N)) = ⟨.acting .outside (Act.reported (Act.visits calls)),[]⟩ := by
  have hassoc : (ofVisits calls : Strand (Frame U N)) =
      ⟨.acting .outside ((Act.visits calls).bind _),[]⟩ :=
    congrArg (fun act => (⟨.acting .outside act,[]⟩ : Strand (Frame U N)))
      (Act.bind_assoc (Act.visits calls) _ _)
  rw [hassoc, Act.reported]
  congr
  funext stopped
  cases stopped <;> rfl

theorem prompt_ofVisits (calls : List Visit) : (ofVisits calls : Strand (Frame U N)).Prompt := by
  rw [ofVisits_eq]
  exact ⟨Act.ticksWhenDue_reported calls,nofun⟩

theorem hookUse_ofVisits_ne_tick (calls : List Visit) :
    (ofVisits calls : Strand (Frame U N)).phase.hookUse ≠ .tick := by
  rw [ofVisits_eq]
  exact hookUse_acting_ne_tick _ _

inductive Walks (rest : List Visit) : Bool → Strand (Frame U N) → Prop
  | next : Walks rest false ⟨.acting .outside (Act.reported (Act.visits rest)),[]⟩
  | due : Walks rest true ⟨.acting .outside (.check .tick (Act.reportedAfter rest)),[]⟩
  | looking (probe : Probe) : Walks rest false ⟨.checking probe .outside (Act.reportedAfter rest),[]⟩
  | done (e : Exit (Frame U N)) (hrest : rest = []) : Walks rest false ⟨.exit e,[]⟩

structure Walked (calls : List Visit) (t : Tally) (s : Strand (Frame U N)) (rest : List Visit) :
    Prop where
  walks : Walks rest t.due s
  counted : t.counted + rest.count .count = calls.count .count
  yielded : t.yielded + rest.count .yield = calls.count .yield

variable {calls rest : List Visit} {t : Tally}

theorem walked_ofVisits (calls : List Visit) :
    Walked calls {} (ofVisits calls : Strand (Frame U N)) calls := by
  rw [ofVisits_eq]
  exact ⟨.next,Nat.zero_add _,Nat.zero_add _⟩

theorem Walked.visit {v : Visit} {t' : Tally} (h : Walked calls t s (v :: rest))
    (hwalks : Walks rest t'.due s') (hcounted : t'.counted = t.counted + [v].count .count)
    (hyielded : t'.yielded = t.yielded + [v].count .yield) :
    Walked calls t' s' rest := by
  have hsplit : ∀ a, ([v] ++ rest).count a = [v].count a + rest.count a := fun _ => List.count_append
  refine ⟨hwalks,?_,?_⟩
  · rw [hcounted, Nat.add_assoc, ← hsplit]
    exact h.counted
  · rw [hyielded, Nat.add_assoc, ← hsplit]
    exact h.yielded

theorem Walked.asks (h : Walked calls t s rest) {context : Context}
    (huse : s.phase.hookUse = .ask) (hdue : t.due = true) (hwalks : Walks rest false s') :
    Walked calls (t.add context s.phase) s' rest := by
  rw [Tally.add_ask t _ huse, hdue]
  exact ⟨hwalks,h.counted,h.yielded⟩

theorem Walked.runsPlain (h : Walked calls t s rest) {context : Context}
    (huse : s.phase.hookUse = .tick ∨ s.phase.hookUse = .other) (hwalks : Walks rest false s') :
    Walked calls (t.add context s.phase) s' rest := by
  rcases huse with huse | huse
  · rw [Tally.add_tick t _ huse]
    exact ⟨hwalks,h.counted,h.yielded⟩
  · rw [Tally.add_other t _ huse]
    exact ⟨hwalks,h.counted,h.yielded⟩

theorem Walked.counts (h : Walked calls t s (.count :: rest)) (hgo : (w.context c).stopping = false)
    (hs : s = ⟨.acting .outside (Act.reported (Act.visits (.count :: rest))),[]⟩)
    (hstep : s.step lib c w = .ran s' w') : Walked calls (t.add (w.context c) s.phase) s' rest := by
  rw [Tally.add_count t _ (by rw [hs]; rfl)]
  refine h.visit ?_ rfl rfl
  have hstop : (w.context c).countInstruction.1 ≠ .stop := fun hstop => by
    rw [Context.countInstruction_eq_stop, hgo] at hstop
    cases hstop
  rw [hs, Act.reported_visits] at hstep
  cases hstep
  change Walks rest _ ⟨.acting .outside (Act.bind (match (w.context c).countInstruction.1 with
    | .stop => .done true
    | .pass => .done false
    | .tick => Act.yieldNow) (Act.reportedAfter rest)),[]⟩
  -- the instruction passes, or the code has been told that a tick is due
  cases hcount : (w.context c).countInstruction.1 with
  | stop => exact absurd hcount hstop
  | pass => exact .next
  | tick => exact .due

theorem walks_check {kind : CheckKind}
    (hs : s = ⟨.acting .outside (.check kind (Act.reportedAfter rest)),[]⟩)
    (hstep : s.step lib c w = .ran s' w') : Walks rest false s' := by
  subst hs
  cases transition_of_step hstep with
  | unhooked => exact .next
  | checks => exact .looking _

theorem Walked.yields (h : Walked calls t s (.yield :: rest)) (hdue : t.due = false)
    (hs : s = ⟨.acting .outside (Act.reported (Act.visits (.yield :: rest))),[]⟩)
    (hstep : s.step lib c w = .ran s' w') : Walked calls (t.add (w.context c) s.phase) s' rest := by
  rw [Act.reported_visits] at hs
  rw [Tally.add_ask t _ (by rw [hs]; rfl), hdue]
  exact h.visit (walks_check hs hstep) rfl rfl

theorem Walked.points (h : Walked calls t s (.point :: rest))
    (hs : s = ⟨.acting .outside (Act.reported (Act.visits (.point :: rest))),[]⟩)
    (hstep : s.step lib c w = .ran s' w') : Walked calls (t.add (w.context c) s.phase) s' rest := by
  rw [Act.reported_visits] at hs
  rw [Tally.add_other t _ (by rw [hs]; rfl)]
  exact h.visit (walks_check hs hstep) rfl rfl

theorem Walked.goes (h : Walked calls t s rest) (hgo : LogEntry.stops c (.own w s) = false)
    (hstep : s.step lib c w = .ran s' w') :
    ∃ rest', Walked calls (t.add (w.context c) s.phase) s' rest' := by
  have hwalks := h.walks
  generalize hdue : t.due = due at hwalks
  cases hwalks with
  | next =>
    cases rest with
    | nil =>
      cases hstep
      exact ⟨[],h.runsPlain (.inr rfl) (.done _ rfl)⟩
    | cons v rest =>
      cases v with
      | count => exact ⟨rest,h.counts hgo rfl hstep⟩
      | yield => exact ⟨rest,h.yields hdue rfl hstep⟩
      | point => exact ⟨rest,h.points rfl hstep⟩
  | due => exact ⟨rest,h.asks rfl hdue (walks_check rfl hstep)⟩
  | looking probe =>
    refine ⟨rest,h.runsPlain (ite_eq_or_eq _ _ _) ?_⟩
    cases transition_of_step hstep with
    | checking => exact .looking _
    | @checked _ stopped _ _ _ _ hprobe =>
      obtain rfl : stopped = false := by simpa [LogEntry.stops, hprobe] using hgo
      exact .next
  | done e => cases hstep

theorem LoggedRun.walked {x y : World × Strand (Frame U N)} {log : List (LogEntry U N)}
    (h : LoggedRun lib c x log y) (hx : x.2 = ofVisits calls)
    (hgo : ∀ entry ∈ log, entry.stops c = false) :
    ∃ rest, Walked calls (tally c log) y.2 rest := by
  induction h with
  | refl => exact ⟨calls,hx ▸ walked_ofVisits calls⟩
  | own _ hstep ih =>
    obtain ⟨rest,hrest⟩ := ih fun entry hmem => hgo entry (List.mem_append_left _ hmem)
    rw [tally_own]
    exact hrest.goes (hgo _ (List.mem_append_right _ List.mem_cons_self)) hstep
  | others _ _ ih =>
    rw [tally_others]
    exact ih fun entry hmem => hgo entry (List.mem_append_left _ hmem)

theorem Walked.all (h : Walked calls t s rest) (hexit : s.exit?.isSome) :
    t.counted = calls.count .count ∧ t.yielded = calls.count .yield := by
  obtain ⟨hwalks,hcounted,hyielded⟩ := h
  generalize t.due = due at hwalks
  cases hwalks with
  | done e hrest =>
    subst hrest
    exact ⟨hcounted,hyielded⟩
  | next | due | looking => cases hexit

variable {hook : Hook} {step : UInt32}

theorem Tallied.pending_of_exit (h : Tallied c hook step t w s) (hexit : s.exit?.isSome) :
    t.pending s.phase = 0 := by
  obtain ⟨phase,callers⟩ := s
  cases phase with
  | exit e =>
    simp [Tally.pending, Phase.hookUse, h.not_due (by simp [Phase.hookUse])
      (by simp [Phase.hookUse])]
  | turn | acting | counting | checking | waiting => cases hexit

/-- From when the hook was set, and as long as no call is answered with a stop, the ticks are one
for every step of the instructions and one for every yield; one of them may be about to begin.  The
counter is what is left of the instructions, and there is always room in it for one more.  If the
hook is a gauge that nobody else ticks, this is what it shows.  For code that counts, yields and
comes to interruption points in any order, the instructions and the yields are these calls of it. -/
theorem ticks_every_step {old : Context} {log : List (LogEntry U N)} (hpos : 0 < step)
    (hlib : lib.TicksWhenDue) (hs : s.Prompt) (hset : w.context c = old.setHook hook step)
    (hstart : s.phase.hookUse ≠ .tick) (h : LoggedRun lib c (w,s) log (w',s'))
    (hgo : ∀ entry ∈ log, entry.stops c = false) :
    (tally c log).ticked + (tally c log).pending s'.phase =
        (tally c log).counted / step.toNat + (tally c log).yielded ∧
      (w'.context c).executed.toNat = (tally c log).counted % step.toNat ∧
      (w'.context c).executed < step ∧
      (∀ u t, .own u t ∈ log → (u.context c).executed < step ∧
        ((u.context c).executed + 1).toNat = (u.context c).executed.toNat + 1) ∧
      (∀ g, hook = .gauge g → g < w.gauges.size →
        (∀ u u', .others u u' ∈ log → u'.gauges = u.gauges) →
        (w'.gauge g).ticks = (w.gauge g).ticks + (tally c log).ticked) ∧
      ∀ calls, s = ofVisits calls → s'.exit?.isSome →
        (tally c log).ticked = calls.count .count / step.toNat + calls.count .yield ∧
        (w'.context c).executed.toNat = calls.count .count % step.toNat := by
  have hx : Tallied c hook step {} w s :=
    ⟨hset ▸ Context.counted_setHook old hook step,hs,nofun,by simp [Tally.pending, hstart]⟩
  have hy := h.tallied hpos hlib hx hgo
  refine ⟨hy.total,hy.context.executed,hy.context.executed_lt hpos,fun u t hmem => ?_,?_,?_⟩
  · obtain ⟨log₁,log₂,_,_,rfl,hfirst,_,_⟩ := h.split hmem
    have hu := hfirst.tallied hpos hlib hx fun entry hmem => hgo entry (List.mem_append_left _ hmem)
    have hlt := hu.context.executed_lt hpos
    exact ⟨hlt,Context.toNat_executed_add_one hlt⟩
  · rintro g rfl hg hothers
    exact (h.shows hpos hlib hx (Phase.ticksAt_of_hookUse hstart) hg hgo hothers).2.ticks
  · rintro calls rfl hexit
    obtain ⟨rest,hrest⟩ := h.walked rfl hgo
    obtain ⟨hcounted,hyielded⟩ := hrest.all hexit
    have htotal := hy.total
    rw [hy.pending_of_exit hexit, hcounted, hyielded] at htotal
    exact ⟨htotal,hcounted ▸ hy.context.executed⟩

def gauged : World where
  gauges := #[{}]
  contexts := #[({ number := 0, registry := 0 } : Context).setHook (.gauge 0) 2]

def mixed : List Visit := [.count,.point,.count,.yield,.count,.count,.count]

open WorkerState (tickingTwice ticksWhenDue_tickingTwice)

/-- Two ticks for the instructions and one for the yield; one instruction is left. -/
theorem ticks_every_step_mixed :
    ((gauged.context 0) = (gauged.context 0).setHook (.gauge 0) 2 ∧ tickingTwice.TicksWhenDue) ∧
    ∃ log w' s', LoggedRun tickingTwice 0 (gauged,ofVisits mixed) log (w',s') ∧ s'.exit?.isSome ∧
      (w'.gauge 0).ticks = 3 ∧ (w'.context 0).executed.toNat = 1 := by
  have hrun := loggedRun_alone tickingTwice 0 30 (gauged,ofVisits mixed)
  have hgo : ∀ entry ∈ (alone tickingTwice 0 30 (gauged,ofVisits mixed)).1, entry.stops 0 = false :=
    fun entry hmem => Bool.eq_false_iff.mpr fun hstops => by
      have hany : (alone tickingTwice 0 30 (gauged,ofVisits mixed)).1.any (LogEntry.stops 0) = true :=
        List.any_eq_true.mpr ⟨entry,hmem,hstops⟩
      have hnone : (alone tickingTwice 0 30 (gauged,ofVisits mixed)).1.any (LogEntry.stops 0) =
        false := rfl
      rw [hnone] at hany
      cases hany
  have hset : gauged.context 0 = (gauged.context 0).setHook (.gauge 0) 2 := rfl
  obtain ⟨_,_,_,_,hgauge,hcalls⟩ :=
    ticks_every_step (by decide) ticksWhenDue_tickingTwice (prompt_ofVisits mixed) hset
    (hookUse_ofVisits_ne_tick mixed) hrun hgo
  obtain ⟨hticked,hexecuted⟩ := hcalls mixed rfl rfl
  refine ⟨⟨hset,ticksWhenDue_tickingTwice⟩,_,_,_,hrun,rfl,?_,hexecuted⟩
  rw [hgauge 0 rfl (by decide) fun u u' hmem => absurd hmem (others_notMem_alone _ _ _ _ u u'), hticked]
  rfl

end Strand

end Workers
