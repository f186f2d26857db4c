import Workers.Proofs.Call.Logged
import Workers.Proofs.Hooks.Passing
import Workers.Proofs.Roundtrip.Tokens
/-! # What strands come to

A strand comes to an end for the first time, with others at work in the meantime.  Another one comes
to the same if it keeps up with each step by some of its own, in a world that differs in no more
than the instructions that the context has counted; whatever others find is the same then, and they
may do the same to it.
-/
namespace Workers

variable {U N : Type}

def Context.recount (context : Context) (executed : UInt32) : Context := { context with executed }

theorem Context.countInstruction_recount (context : Context) :
    ∃ executed, context.countInstruction.2 = context.recount executed := by
  unfold countInstruction
  split
  · exact ⟨_,rfl⟩
  · split
    · exact ⟨_,rfl⟩
    · dsimp only
      split <;> exact ⟨_,rfl⟩

namespace World

variable {c : ContextId} {w v u w' v' : World}

/-- The worlds differ in no more than the instructions that a context has counted. -/
def Recounts (c : ContextId) (w v : World) : Prop :=
  ∃ executed, v = w.setContext c ((w.context c).recount executed)

/-- Nothing is written to a context that is not there. -/
theorem setContext_of_le (hc : w.contexts.size ≤ c) (context : Context) :
    w.setContext c context = w := by
  have hmodify : (w.contexts.modify c fun _ => context) = w.contexts := by
    apply Array.ext_getElem?
    intro i
    rw [Array.getElem?_modify]
    split
    · rename_i hi
      rw [← hi, Array.getElem?_eq_none hc]
      rfl
    · rfl
  rw [setContext, hmodify]

theorem setContext_cases (w : World) (c : ContextId) :
    (∀ context, (w.setContext c context).context c = context) ∨
    w.contexts.size ≤ c ∧ ∀ context, w.setContext c context = w :=
  (Nat.lt_or_ge c w.contexts.size).imp (fun hc => context_setContext_self hc) fun hc =>
    ⟨hc,setContext_of_le hc⟩

theorem Recounts.refl (c : ContextId) (w : World) : w.Recounts c w :=
  ⟨(w.context c).executed,(World.setContext_self w c).symm⟩

theorem Recounts.context (h : w.Recounts c v) :
    ∃ executed, v.context c = (w.context c).recount executed := by
  obtain ⟨executed,rfl⟩ := h
  rcases w.setContext_cases c with hset | ⟨_,hsame⟩
  · exact ⟨executed,hset _⟩
  · exact ⟨(w.context c).executed,by rw [hsame]; rfl⟩

theorem Recounts.hook (h : w.Recounts c v) : (v.context c).hook = (w.context c).hook := by
  obtain ⟨executed,hcontext⟩ := h.context
  rw [hcontext]
  rfl

theorem Recounts.stopping (h : w.Recounts c v) : (v.context c).stopping = (w.context c).stopping := by
  obtain ⟨executed,hcontext⟩ := h.context
  rw [hcontext]
  rfl

theorem Recounts.setContext (h : w.Recounts c v) (context : Context) (executed : UInt32) :
    (w.setContext c context).Recounts c (v.setContext c (context.recount executed)) := by
  obtain ⟨_,rfl⟩ := h
  refine ⟨executed,?_⟩
  rw [setContext_setContext, setContext_setContext]
  rcases w.setContext_cases c with hset | ⟨_,hsame⟩
  · rw [hset]
  · rw [hsame, hsame]

theorem Recounts.symm (h : w.Recounts c v) : v.Recounts c w := by
  obtain ⟨executed,rfl⟩ := h
  refine ⟨(w.context c).executed,?_⟩
  rw [setContext_setContext]
  rcases w.setContext_cases c with hset | ⟨_,hsame⟩
  · rw [hset]
    exact (World.setContext_self w c).symm
  · rw [hsame]

theorem Recounts.trans (h : w.Recounts c v) (h' : v.Recounts c u) : w.Recounts c u := by
  obtain ⟨executed,rfl⟩ := h
  obtain ⟨executed',rfl⟩ := h'
  refine ⟨executed',?_⟩
  rw [setContext_setContext]
  rcases w.setContext_cases c with hset | ⟨_,hsame⟩
  · rw [hset]
    rfl
  · rw [hsame, hsame]

theorem recounts_counted (w : World) (c : ContextId) : w.Recounts c (w.counted c) := by
  obtain ⟨executed,hcount⟩ := (w.context c).countInstruction_recount
  exact ⟨executed,by rw [counted, hcount]⟩

theorem Recounts.keepsContext (h : w.Recounts c v) (hbeside : w.KeepsContext c w') :
    ∃ v', v.KeepsContext c v' ∧ w'.Recounts c v' := by
  obtain ⟨executed,hcontext⟩ := h.context
  obtain ⟨_,rfl⟩ := h
  refine ⟨w'.setContext c ((w.setContext c _).context c),⟨?_,?_⟩,executed,
    by rw [hcontext, hbeside.context]⟩
  · rcases w'.setContext_cases c with hset | ⟨hc,hsame⟩
    · exact hset _
    · rw [hsame, setContext_of_le (hbeside.contexts.trans hc), hbeside.context]
  · simpa using hbeside.contexts

end World

structure World.Bare (c : ContextId) (stopping : Bool) (w : World) : Prop where
  hook : (w.context c).hook = none
  handler : (w.context c).handler = none
  stopping : (w.context c).stopping = stopping

namespace World.Bare

variable {c : ContextId} {stopping : Bool} {w v : World}

theorem recounts (h : w.Bare c stopping) (hsame : w.Recounts c v) : v.Bare c stopping := by
  obtain ⟨executed,hcontext⟩ := hsame.context
  exact ⟨hsame.hook.trans h.hook,by rw [hcontext]; exact h.handler,hsame.stopping.trans h.stopping⟩

theorem keepsContext (h : w.Bare c stopping) (hbeside : w.KeepsContext c v) : v.Bare c stopping :=
  ⟨by rw [hbeside.context]; exact h.hook,by rw [hbeside.context]; exact h.handler,
    by rw [hbeside.context]; exact h.stopping⟩

theorem of_addsNothing (h : w.Bare c stopping) (hadds : (w.context c).AddsNothing (v.context c)) :
    v.Bare c stopping where
  hook := by
    rcases hadds.hook with hsame | hnone
    · rw [hsame, h.hook]
    · exact hnone
  handler := by
    rcases hadds.handler with hsame | hnone
    · rw [hsame, h.handler]
    · exact hnone
  stopping := hadds.stopping.trans h.stopping

end World.Bare

namespace Strand

variable {lib : Library U N} {c : ContextId} {stopping : Bool} {w v w' : World}
    {s s' t : Strand (Frame U N)}
  {x y z : World × Strand (Frame U N)} {log log' : List (LogEntry U N)}

/-- Without a hook no check is ever under way, and nothing can stop the context. -/
theorem bare_step (hw : w.Bare c stopping) (hnone : s.phase.probe? = none)
    (hstep : s.step lib c w = .ran s' w') :
    w'.Bare c stopping ∧ s'.phase.probe? = none := by
  have hprobes : Probes c (fun _ => True) w' s' :=
    (probes_of_none hnone).step (fun _ => trivial)
      (fun probe next u _ _ => by cases next <;> trivial) hstep
  have hw' : w'.Bare c stopping := by
    rcases addsNothing_step hstep with hadds | ⟨hstops,_⟩
    · exact hw.of_addsNothing hadds
    · cases hstops <;> cases hnone
  refine ⟨hw',Option.eq_none_iff_forall_ne_some.mpr fun probe hprobe => ?_⟩
  have hhook := (hprobes probe hprobe).1
  rw [hw'.hook] at hhook
  cases hhook

def otherSteps (log : List (LogEntry U N)) : List (World × World) :=
  log.filterMap fun
    | .own .. => none
    | .others found left => some (found,left)

@[simp] theorem otherSteps_append (log log' : List (LogEntry U N)) :
    otherSteps (log ++ log') = otherSteps log ++ otherSteps log' :=
  List.filterMap_append

def SameOtherSteps (c : ContextId) : List (World × World) → List (World × World) → Prop :=
  List.Forall₂ fun p q => p.1.Recounts c q.1 ∧ p.2.Recounts c q.2

variable {met met' met'' : List (World × World)}

theorem SameOtherSteps.symm (h : SameOtherSteps c met met') : SameOtherSteps c met' met :=
  List.Forall₂.flip (h.imp fun _ _ hpq => ⟨hpq.1.symm,hpq.2.symm⟩)

theorem SameOtherSteps.trans (h : SameOtherSteps c met met') (h' : SameOtherSteps c met' met'') :
    SameOtherSteps c met met'' := by
  induction h generalizing met'' with
  | nil => exact h'
  | cons hpq _ ih =>
    cases h' with
    | cons hqr hrest => exact .cons ⟨hpq.1.trans hqr.1,hpq.2.trans hqr.2⟩ (ih hrest)

def Open (ends : RunnableOutcome → Strand (Frame U N) → Prop) (s : Strand (Frame U N)) : Prop :=
  ∀ outcome, ¬ ends outcome s

def ComesTo (lib : Library U N) (c : ContextId) (x : World × Strand (Frame U N))
    (ends : RunnableOutcome → Strand (Frame U N) → Prop)
    (outcome : RunnableOutcome) (met : List (World × World)) (w' : World) : Prop :=
  ∃ log u s, LoggedRun lib c x log (u,s) ∧ ends outcome s ∧ (∀ v t, .own v t ∈ log → Open ends t) ∧
    SameOtherSteps c (otherSteps log) met ∧ u.Recounts c w'

variable {ends ends' : RunnableOutcome → Strand (Frame U N) → Prop} {outcome : RunnableOutcome}

def Alone (lib : Library U N) (c : ContextId) (ends : RunnableOutcome → Strand (Frame U N) → Prop)
    (x y : World × Strand (Frame U N)) : Prop :=
  ∃ log, LoggedRun lib c x log y ∧ otherSteps log = [] ∧ ∀ v t, .own v t ∈ log → Open ends t

theorem Alone.refl : Alone lib c ends x x := ⟨[],.refl,rfl,fun _ _ hmem => absurd hmem List.not_mem_nil⟩

theorem Alone.head (hopen : Open ends s) (hstep : s.step lib c w = .ran s' w')
    (h : Alone lib c ends (w',s') y) :
    Alone lib c ends (w,s) y := by
  obtain ⟨log,hrun,hnone,hbefore⟩ := h
  refine ⟨_,(LoggedRun.single hstep).trans hrun,hnone,fun v t hmem => ?_⟩
  rcases List.mem_cons.mp hmem with hhere | hmem
  · cases hhere
    exact hopen
  · exact hbefore v t hmem

theorem Alone.trans (h : Alone lib c ends x y) (h' : Alone lib c ends y z) : Alone lib c ends x z := by
  obtain ⟨log,hrun,hnone,hbefore⟩ := h
  obtain ⟨log',hrun',hnone',hbefore'⟩ := h'
  refine ⟨_,hrun.trans hrun',?_,fun v t hmem => (List.mem_append.mp hmem).elim (hbefore v t)
    (hbefore' v t)⟩
  rw [otherSteps_append, hnone, hnone']
  rfl

/-- A relation between two strands and their worlds that makes the second one keep up with the first. -/
structure Simulates (lib : Library U N) (c : ContextId)
    (ends ends' : RunnableOutcome → Strand (Frame U N) → Prop)
    (R : World × Strand (Frame U N) → World × Strand (Frame U N) → Prop) : Prop where
  worlds : ∀ {x y}, R x y → x.1.Recounts c y.1
  own : ∀ {w s w' s' y}, R (w,s) y → Open ends s → s.step lib c w = .ran s' w' →
    ∃ y', Alone lib c ends' y y' ∧ R (w',s') y'
  others : ∀ {w s w' v t}, R (w,s) (v,t) → w.KeepsContext c w' → ∃ v', v.KeepsContext c v' ∧
      R (w',s) (v',t)
  arrives : ∀ {x y outcome}, R x y → ends outcome x.2 → ∃ y', Alone lib c ends' y y' ∧
      ends' outcome y'.2 ∧ x.1.Recounts c y'.1

variable {R : World × Strand (Frame U N) → World × Strand (Frame U N) → Prop}

/-- The second strand keeps up all along, and others meet with the same beside it. -/
theorem Simulates.loggedRun (hR : Simulates lib c ends ends' R) (h : LoggedRun lib c x log y)
    (hbefore : ∀ v t, .own v t ∈ log → Open ends t) (hx : R x z) :
    ∃ log' z', LoggedRun lib c z log' z' ∧ R y z' ∧
      (∀ v t, .own v t ∈ log' → Open ends' t) ∧ SameOtherSteps c (otherSteps log)
        (otherSteps log') := by
  induction h with
  | refl => exact ⟨[],z,.refl,hx,fun _ _ hmem => absurd hmem List.not_mem_nil,.nil⟩
  | @own log w w' s s' _ hstep ih =>
    obtain ⟨log₁,z₁,hrun₁,hz₁,hbefore₁,hmet₁⟩ :=
      ih fun v t hmem => hbefore v t (List.mem_append_left _ hmem)
    have hopen := hbefore w s (List.mem_append_right _ List.mem_cons_self)
    obtain ⟨z₂,⟨log₂,hrun₂,hnone,hbefore₂⟩,hz₂⟩ := hR.own hz₁ hopen hstep
    refine ⟨_,z₂,hrun₁.trans hrun₂,hz₂,fun v t hmem => ?_,?_⟩
    · exact (List.mem_append.mp hmem).elim (hbefore₁ v t) (hbefore₂ v t)
    · rw [otherSteps_append, otherSteps_append, hnone]
      exact List.rel_append hmet₁ .nil
  | @others log w w' s _ hbeside ih =>
    obtain ⟨log₁,⟨v,t⟩,hrun₁,hz₁,hbefore₁,hmet₁⟩ :=
      ih fun v t hmem => hbefore v t (List.mem_append_left _ hmem)
    obtain ⟨v',hbeside',hz'⟩ := hR.others hz₁ hbeside
    refine ⟨_,_,hrun₁.others hbeside',hz',fun u r hmem => ?_,?_⟩
    · exact (List.mem_append.mp hmem).elim (hbefore₁ u r) nofun
    · rw [otherSteps_append, otherSteps_append]
      exact List.rel_append hmet₁ (.cons ⟨hR.worlds hz₁,hR.worlds hz'⟩ .nil)

theorem Simulates.comesTo (hR : Simulates lib c ends ends' R) (hxy : R x y)
    (hx : ComesTo lib c x ends outcome met w') :
    ComesTo lib c y ends' outcome met w' := by
  obtain ⟨log,u,s,hrun,hend,hbefore,hmet,hworld⟩ := hx
  obtain ⟨log₁,z₁,hrun₁,hz₁,hbefore₁,hmet₁⟩ := hR.loggedRun hrun hbefore hxy
  obtain ⟨⟨v,t⟩,⟨log₂,hrun₂,hnone,hbefore₂⟩,hend₂,hworld₂⟩ := hR.arrives hz₁ hend
  refine ⟨_,v,t,hrun₁.trans hrun₂,hend₂,fun u r hmem => ?_,?_,hworld₂.symm.trans hworld⟩
  · exact (List.mem_append.mp hmem).elim (hbefore₁ u r) (hbefore₂ u r)
  · rw [otherSteps_append, hnone, List.append_nil]
    exact hmet₁.symm.trans hmet

inductive Returns : RunnableOutcome → Strand (Frame U N) → Prop
  | ok (values : List Value) (left : List (Frame U N)) (callers : List (Caller (Frame U N))) :
      Returns (.ok values) ⟨.exit (.ended (.ok values) left),callers⟩
  | failure (fault : Fault) (left : List (Frame U N)) (callers : List (Caller (Frame U N))) :
      Returns (.failure fault []) ⟨.exit (.ended (.error (.fault fault)) left),callers⟩
  | stop (left : List (Frame U N)) (callers : List (Caller (Frame U N))) :
      Returns .stop ⟨.exit (.ended (.error .stop) left),callers⟩
  | panic (text : String) (callers : List (Caller (Frame U N))) :
      Returns (.panic text) ⟨.exit (.panicked text),callers⟩

theorem open_returns (hphase : s.exit? = none) : Open Returns s := by
  rintro outcome ⟨⟩ <;> cases hphase

/-- Without a hook, an instruction is counted and nothing else comes of it. -/
theorem step_count_unhooked (hhook : (w.context c).hook = none) (stack : List (Frame U N))
    (callers : List (Caller (Frame U N))) :
    (⟨.turn (.count stack),callers⟩ : Strand (Frame U N)).step lib c w =
      .ran ⟨.turn (Turn.afterCount (w.context c).stopping stack),callers⟩ (w.counted c) := by
  have hstop := Context.countInstruction_eq_stop (w.context c)
  have hnone : (w.context c).countInstruction.2.hook = none :=
    (Context.hook_countInstruction _).trans hhook
  simp only [step, stepTurn, World.counted]
  cases hcount : (w.context c).countInstruction with
  | mk count context =>
    rw [hcount] at hstop hnone
    obtain rfl | hgo : count = .stop ∨ count ≠ .stop := em _
    · simp [hstop.mp rfl]
    · have hgoing : (w.context c).stopping = false := Bool.eq_false_iff.mpr fun h => hgo (hstop.mpr h)
      rw [hgoing]
      cases count with
      | stop => exact absurd rfl hgo
      | pass => rfl
      | tick =>
        dsimp only at hnone ⊢
        rw [hnone]

end Strand

end Workers
