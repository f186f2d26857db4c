import Workers.Proofs.Call.Endings
/-! # Stops that are passed over

A scheduler whose context is stopping ends with a stop, whatever its runnables make of the signal,
with one exception: a reception at the bottom of the stack may refuse what it is offered after the
stop was seen.  Its fault escapes, through the error handler.  As long as no check signals stop
during a reception, that does not happen.
-/
namespace Workers

variable {U N : Type}

def Role.isReceive {F : Type} : Role F → Bool
  | .receive .. => true
  | _ => false

def Phase.isReceive {F : Type} : Phase F → Bool
  | .acting role _ | .checking _ role _ | .waiting _ _ role _ => role.isReceive
  | _ => false

def Phase.ReceivesNothing {F : Type} : Phase F → Prop
  | .turn (.offer ..) | .turn (.escape ..) => False
  | phase => phase.isReceive = false

namespace Strand

/-- What was offered to a runnable at the bottom of its stack is refused, although the context has seen a
stop. -/
inductive RefusesAfterStop (c : ContextId) (w : World) : Strand (Frame U N) → Prop
  | mk (r : Frame U N) (fault : Fault) (unwound : List String) (callers : List (Caller (Frame U N)))
      (hstop : (w.context c).stopping = true) :
      RefusesAfterStop c w ⟨.acting (.receive [] unwound) (.done (r,.error fault)),callers⟩

def Receives {F : Type} (s : Strand F) : Prop :=
  s.phase.isReceive = true ∨ ∃ caller ∈ s.callers, caller.role.isReceive = true

structure ReceivesNothing {F : Type} (s : Strand F) : Prop where
  phase : s.phase.ReceivesNothing
  callers : ∀ caller ∈ s.callers, caller.role.isReceive = false

variable {lib : Library U N} {c : ContextId} {w w' u : World} {s s' t t' : Strand (Frame U N)}
  {callers base : List (Caller (Frame U N))} {outcome : Outcome} {stack left : List (Frame U N)}
  {log : List (LogEntry U N)} {x y : World × Strand (Frame U N)}

theorem RefusesAfterStop.escapes (hs : s.RefusesAfterStop c w) (hstep : s.step lib c w = .ran s' w') :
    w' = w ∧ ∃ fault unwound, s' = ⟨.turn (.escape fault unwound),s.callers⟩ := by
  cases hs
  cases hstep
  exact ⟨rfl,_,_,rfl⟩

/-- In a stopping context a fault escapes only from a reception. -/
theorem LoggedRun.refusesAfterStop_of_escape {fault : Fault} {unwound : List String}
    (h : LoggedRun lib c x log (u,s)) (hs : s = ⟨.turn (.escape fault unwound),callers⟩)
    (hx : x.2 ≠ s) (hstop : (u.context c).stopping = true) :
    ∃ v t, .own v t ∈ log ∧ t.callers = callers ∧ t.RefusesAfterStop c v ∧
    v.context c = u.context c := by
  subst hs
  rcases h.last with ⟨hsame,_⟩ | ⟨v,⟨phase,rest⟩,v',hmem,hstep,hcontext⟩
  · exact absurd hsame.symm hx
  · obtain ⟨rfl,rfl,⟨r,_,hgo⟩ | ⟨r,unwound,rfl⟩⟩ := escape_of_step hstep
    · rw [← hcontext, hstop] at hgo
      cases hgo
    · have hstopping : (v'.context c).stopping = true := by rw [← hcontext, hstop]
      exact ⟨v',_,hmem,rfl,.mk r fault unwound _ hstopping,hcontext.symm⟩

/-- A refusal in a stopping context is followed by an escape, unless the run has not come so far. -/
theorem LoggedRun.escape_of_refusesAfterStop (h : LoggedRun lib c x log y) (hmem : .own u s ∈ log)
    (hs : s.RefusesAfterStop c u)
    (hy : ∀ fault unwound, y.2 ≠ ⟨.turn (.escape fault unwound),s.callers⟩) :
    ∃ v fault unwound, .own v ⟨.turn (.escape fault unwound),s.callers⟩ ∈ log ∧
    v.context c = u.context c := by
  obtain ⟨log₁,log₂,s',u',rfl,_,hstep,hrest⟩ := h.split hmem
  obtain ⟨rfl,fault,unwound,rfl⟩ := hs.escapes hstep
  rcases hrest.first with ⟨hsame,_⟩ | ⟨v,hv,hcontext⟩
  · exact absurd hsame (hy fault unwound)
  · exact ⟨v,fault,unwound,List.mem_append_right _ (List.mem_cons_of_mem _ hv),hcontext⟩

theorem receivesNothing_afterAct {role : Role (Frame U N)} (hrole : role.isReceive = false)
    (report : role.Report) :
    (afterAct lib true role report).ReceivesNothing := by
  cases role with
  | step below =>
    obtain ⟨r,move⟩ := report
    cases move <;> rfl
  | loneStep =>
    obtain ⟨r,move⟩ := report
    cases move <;> rfl
  | receive => cases hrole
  | loneReceive | outside => rfl

/-- In a stopping context nothing is received any more if nothing is being received. -/
theorem ReceivesNothing.stopping (hs : s.ReceivesNothing) (hstop : (w.context c).stopping = true)
    (hstep : s.step lib c w = .ran s' w') :
    s'.ReceivesNothing := by
  obtain ⟨hphase,hcallers⟩ := hs
  cases transition_of_step hstep with
  | due stack callers hgo => exact absurd hstop hgo
  | counted stack callers hgo => exact absurd hstop hgo
  | unloaded role k callers hgo => exact absurd hstop hgo
  | calls role k callers hgo => exact absurd hstop hgo
  | offers | escapes => exact hphase.elim
  | returns outcome left caller callers =>
    exact ⟨hcallers caller List.mem_cons_self,fun other hmem => hcallers other
      (List.mem_cons_of_mem _ hmem)⟩
  | reports role report callers =>
    rw [hstop]
    exact ⟨receivesNothing_afterAct hphase report,hcallers⟩
  | panics => exact ⟨rfl,fun other hmem => absurd hmem List.not_mem_nil⟩
  | @ticked _ stopped _ stack => exact ⟨by cases stopped <;> cases stack <;> rfl,hcallers⟩
  | countedOut | plainStep | ends | ticking => exact ⟨rfl,hcallers⟩
  | asks | unhooked | checks | waits | uncalled | checking | checked | notified | expired =>
    exact ⟨hphase,hcallers⟩

/-- A stop that is not signalled during a reception leaves no code that was to receive anything. -/
theorem receivesNothing_of_stops (hs : ¬ s.Receives) (hstops : s.Stops w)
    (hstep : s.step lib c w = .ran s' w') :
    s'.ReceivesNothing := by
  have hcallers : ∀ caller ∈ s.callers, caller.role.isReceive = false := fun caller hmem =>
    Bool.eq_false_iff.mpr fun hreceive => hs (.inr ⟨caller,hmem,hreceive⟩)
  cases hstops with
  | counting stack callers hprobe =>
    simp only [step, hprobe] at hstep
    cases hstep
    exact ⟨rfl,hcallers⟩
  | checking role k callers hprobe =>
    simp only [step, hprobe] at hstep
    cases hstep
    exact ⟨Bool.eq_false_iff.mpr fun hreceive => hs (.inl hreceive),hcallers⟩

theorem receivesNothing_step (hs : (w.context c).stopping = true → s.ReceivesNothing)
    (hquiet : s.Stops w → ¬ s.Receives) (hstep : s.step lib c w = .ran s' w')
    (hstop : (w'.context c).stopping = true) : s'.ReceivesNothing := by
  rcases addsNothing_step hstep with hadds | ⟨hstops,_⟩
  · have hbefore : (w.context c).stopping = true := hadds.stopping.symm.trans hstop
    exact (hs hbefore).stopping hbefore hstep
  · exact receivesNothing_of_stops (hquiet hstops) hstops hstep

/-- All along, code in a context that is stopping can only come to an end. -/
theorem LoggedRun.endsStopped (h : LoggedRun lib c x log y) (hx : x.2.phase.EndsStopped) :
    ((y.1.context c).stopping = true → y.2.phase.EndsStopped) ∧
      ∀ u s, .own u s ∈ log → (u.context c).stopping = true → s.phase.EndsStopped := by
  have hown : ∀ w s w' s', .own w s ∈ log → ((w.context c).stopping = true → s.phase.EndsStopped) →
      s.step lib c w = .ran s' w' → (w'.context c).stopping = true → s'.phase.EndsStopped := by
    intro w s w' s' _ hs hstep hstop
    rcases addsNothing_step hstep with hadds | ⟨hstops,_⟩
    · have hbefore : (w.context c).stopping = true := hadds.stopping.symm.trans hstop
      exact endsStopped_step hbefore (hs hbefore) hstep
    · cases hstops with
      | counting stack callers hprobe | checking role k callers hprobe =>
        simp only [step, hprobe] at hstep
        cases hstep
        trivial
  have hothers : ∀ (w : World) (s : Strand (Frame U N)) (w' : World),
      ((w.context c).stopping = true → s.phase.EndsStopped) → w.KeepsContext c w' →
      (w'.context c).stopping = true → s.phase.EndsStopped :=
    fun w s w' hs hbeside hstop => hs (by rw [← hbeside.context, hstop])
  exact ⟨h.keeps (P := fun w s => (w.context c).stopping = true → s.phase.EndsStopped)
    (fun _ => hx) hown hothers,
    fun u s hmem => h.keeps_own (P := fun w s => (w.context c).stopping = true → s.phase.EndsStopped)
      (fun _ => hx) hown hothers hmem⟩

theorem stopping_of_step (hstep : s.step lib c w = .ran s' w') (hstop : (w'.context c).stopping = true) :
    (w.context c).stopping = true ∨ s.Stops w := by
  rcases addsNothing_step hstep with hadds | ⟨hstops,_⟩
  · exact .inl (hadds.stopping.symm.trans hstop)
  · exact .inr hstops

/-- A scheduler that ends in a stopping context ends with a stop, or a fault escapes. -/
theorem ending_stopping (hending : s.phase.Ending c w outcome left)
    (hends : (w.context c).stopping = true → s.phase.EndsStopped)
    (hstep : s.step lib c w = .ran s' w') (hstop : (w'.context c).stopping = true) :
    outcome = .error .stop ∨ (w.context c).stopping = true ∧
      ∃ fault frames, s.phase = .turn (.escape fault frames) := by
  obtain ⟨phase,callers⟩ := s
  rcases stopping_of_step hstep hstop with hbefore | hstops
  · cases hending with
    | countedOut | stopping | stop => exact .inl rfl
    | empty hgo | finish r values hgo => exact absurd hbefore hgo
    | passed hprobe => exact (hends hbefore).elim
    | escape fault frames => exact .inr ⟨hbefore,fault,frames,rfl⟩
  · cases hstops with
    | counting stack callers hstopped =>
      cases hending with
      | countedOut => exact .inl rfl
      | passed hprobe =>
        rw [hprobe] at hstopped
        cases hstopped
    | checking => cases hending with | countedOut h => exact .inl rfl

namespace SchedulerRun

/-- A scheduler comes to its end in a stopping context with a stop, unless it is defied. -/
theorem stop_iff (h : SchedulerRun lib c stack callers w log outcome left w')
    (hstop : (w'.context c).stopping = true) :
    outcome = .error .stop ↔ ∀ u s, .own u s ∈ log → s.callers = callers →
    ¬ s.RefusesAfterStop c u := by
  constructor
  · rintro rfl u s hmem rfl hrefuses
    obtain ⟨v,fault,unwound,hv,_⟩ := h.loggedRun.escape_of_refusesAfterStop hmem hrefuses nofun
    -- the fault escapes as the outcome of this scheduler
    have hend : (.error (.fault ((v.context c).handleFault fault unwound)) : Outcome) =
        .error .stop ∧ [] = left :=
      h.eq_of_returned hv fun s' u' hstep => by
        cases hstep
        rfl
    cases hend.1
  · intro hnever
    obtain ⟨u,s,hmem,hcallers,hending,u',hstep,hcontext⟩ := h.last
    have hends := (h.loggedRun.endsStopped trivial).2 u s hmem
    rcases ending_stopping hending hends hstep (by rw [← hcontext, hstop]) with hout | ⟨hbefore,
      fault,frames,hphase⟩
    · exact hout
    · obtain ⟨log₁,log₂,_,_,rfl,hfirst,_,_⟩ := h.loggedRun.split hmem
      have hs : s = ⟨.turn (.escape fault frames),callers⟩ := by rw [← hphase, ← hcallers]
      obtain ⟨v,t,hv,ht,hrefuses,_⟩ := hfirst.refusesAfterStop_of_escape hs (by rw [hs]; nofun) hbefore
      exact absurd hrefuses (hnever v t (List.mem_append_left _ hv) ht)

/-- The error handler is called after a stop was seen only when a scheduler is defied. -/
theorem handlerCall_iff (h : SchedulerRun lib c stack callers w log outcome left w') :
    (∀ u s, .own u s ∈ log → (u.context c).stopping = true → s.handlerCall? lib c u = none) ↔
      ∀ u s, .own u s ∈ log → s.RefusesAfterStop c u → (u.context c).handler = none := by
  constructor
  · intro hnever u s hmem hrefuses
    have hstop : (u.context c).stopping = true := by
      cases hrefuses with | mk _ _ _ _ hstop => exact hstop
    have hend : ∀ fault unwound, (⟨.turn (.ended outcome left),callers⟩ : Strand (Frame U N)) ≠
        ⟨.turn (.escape fault unwound),s.callers⟩ := by
      intro fault unwound heq
      cases heq
    obtain ⟨v,fault,unwound,hv,hcontext⟩ := h.loggedRun.escape_of_refusesAfterStop hmem hrefuses hend
    have hnone := hnever v _ hv (by rw [hcontext, hstop])
    rw [← hcontext]
    by_contra hsome
    simp [handlerCall?, hsome] at hnone
  · intro hnever u s hmem hstop
    by_contra hsome
    obtain ⟨⟨fault,frames⟩,hcall⟩ := Option.ne_none_iff_exists'.mp hsome
    obtain ⟨phase,rest⟩ := s
    cases phase with
    | turn t =>
      cases t with
      | escape fault frames =>
        obtain ⟨log₁,log₂,_,_,rfl,hfirst,_,_⟩ := h.loggedRun.split hmem
        have hbegun : (⟨.turn (.count stack),callers⟩ : Strand (Frame U N)) ≠
            ⟨.turn (.escape fault frames),rest⟩ := by
          intro heq
          cases heq
        obtain ⟨v,t,hv,_,hrefuses,hcontext⟩ := hfirst.refusesAfterStop_of_escape rfl hbegun hstop
        have hnone := hnever v t (List.mem_append_left _ hv) hrefuses
        rw [hcontext] at hnone
        simp [handlerCall?, hnone] at hcall
      | count | step | offer | ended => simp [handlerCall?] at hcall
    | acting role act => cases act <;> simp [handlerCall?, hstop] at hcall
    | counting | checking | waiting | exit => simp [handlerCall?] at hcall

/-- Nobody defies a scheduler when no stop is signalled during a reception. -/
theorem not_refusesAfterStop (h : SchedulerRun lib c stack callers w log outcome left w')
    (hquiet : ∀ u (t : Strand (Frame U N)), .own u (t.under callers) ∈ log → t.Stops u → ¬ t.Receives)
    (hmem : .own u s ∈ log) : ¬ s.RefusesAfterStop c u := by
  obtain ⟨t,hinner,rfl,hreceivesnothing⟩ :=
    h.keeps (P := fun u t => (u.context c).stopping = true → t.ReceivesNothing)
    (fun _ => ⟨rfl,nofun⟩) (fun u t u' t' hmem _ ht hstep => receivesNothing_step ht
      (hquiet u t hmem) hstep)
    (fun u t u' ht hbeside hstop => ht (by rw [← hbeside.context, hstop])) hmem
  rw [under_eq hinner.phase]
  obtain ⟨phase,rest⟩ := t
  intro hrefuses
  cases hrefuses with
  | mk r fault unwound _ hstop => cases (hreceivesnothing hstop).phase

/-- When a scheduler returns in a stopping context it never returns values, and it returns a stop
unless a reception at the bottom of its stack refuses what it is offered after the stop was seen.
The error handler is called after that only for such a fault.  Neither happens when no check signals
stop during a reception. -/
theorem ends_in_stop (h : SchedulerRun lib c stack callers w log outcome left w')
    (hstop : (w'.context c).stopping = true) :
    (∀ values, outcome ≠ .ok values) ∧
      (outcome = .error .stop ↔ ∀ u s, .own u s ∈ log → s.callers = callers → ¬ s.RefusesAfterStop c u) ∧
      ((∀ u s, .own u s ∈ log → (u.context c).stopping = true → s.handlerCall? lib c u = none) ↔
        ∀ u s, .own u s ∈ log → s.RefusesAfterStop c u → (u.context c).handler = none) ∧
      ((∀ u (t : Strand (Frame U N)), .own u (t.under callers) ∈ log → t.Stops u → ¬ t.Receives) →
        outcome = .error .stop ∧
          ∀ u s, .own u s ∈ log → (u.context c).stopping = true → s.handlerCall? lib c u = none) := by
  refine ⟨fun values hvalues => ?_,h.stop_iff hstop,h.handlerCall_iff,fun hquiet => ?_⟩
  · have hends := (h.loggedRun.endsStopped trivial).1 hstop
    rw [hvalues] at hends
    exact hends
  · exact ⟨(h.stop_iff hstop).mpr fun u s hmem _ => h.not_refusesAfterStop hquiet hmem,
      h.handlerCall_iff.mpr fun u s hmem hrefuses => absurd hrefuses
      (h.not_refusesAfterStop hquiet hmem)⟩

end SchedulerRun

/-- A runnable whose child fails; when it is offered the fault it checks the hook, drops what that
signals, and passes the fault on. -/
def droppingStop : Library Bool Unit where
  load _ _ := .ok (.own true)
  step
    | true => .done (true,.launch (.own false))
    | false => .done (false,.fault (.detailed "boom"))
  receive u outcome := .check .point fun _ => .done (u,refuse outcome)
  describe _ := ""
  body _ := .done ((),.finish [])

def cancelled : World where
  gauges := #[{ cancelled := true }]
  contexts := #[{ number := 0, registry := 0, hook := some (.gauge 0), handler := some traceback }]

theorem ends_in_stop_tickingTwice :
    ∃ log w', SchedulerRun WorkerState.tickingTwice 0 [.own ()] [] stoppingAtSecondTick log
      (.error .stop) [] w' ∧
    (w'.context 0).stopping = true ∧ ∀ u s, .own u s ∈ log → s.callers = [] →
    ¬ s.RefusesAfterStop 0 u := by
  have hrun : SchedulerRun WorkerState.tickingTwice 0 [.own ()] [] stoppingAtSecondTick
      _ (.error .stop) [] _ :=
    schedulerRun_alone (n := 8) rfl rfl
  exact ⟨_,_,hrun,rfl,(hrun.ends_in_stop rfl).2.1.mp rfl⟩

/-- The fault that was refused after the stop escapes. -/
theorem stop_passed_over : ¬ ∀ (w w' : World) (log : List (LogEntry Bool Unit)) (outcome : Outcome)
    (left : List (Frame Bool Unit)), SchedulerRun droppingStop 0 [.own true] [] w log outcome left w' →
      (w'.context 0).stopping = true → outcome = .error .stop := by
  intro hstops
  have hrun : SchedulerRun droppingStop 0 [.own true] [] cancelled _ (.error (.fault _)) [] _ :=
    schedulerRun_alone (n := 11) rfl rfl
  cases hstops _ _ _ _ _ hrun rfl

end Strand

end Workers
