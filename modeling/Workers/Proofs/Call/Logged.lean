import Workers.Proofs.Control.Stop
import Workers.Proofs.Control.PlainSteps
import Workers.Proofs.Call.Transitions
/-! # What happens in a context

A logged run of a context tells where each step of its code was taken, and what others left in
between.  The others have no access to the context.  Its own code can give its hook and its error
handler up, but get no others; and code within a scheduler does not look at whoever waits below for
the scheduler to end.
-/
namespace Workers

variable {U N : Type}

/-- Others have been at work, and have left a context alone. -/
structure World.KeepsContext (c : ContextId) (w w' : World) : Prop where
  context : w'.context c = w.context c
  contexts : w.contexts.size ≤ w'.contexts.size

/-- A step of the code in a context, by where it was taken, or what others found and what they left. -/
inductive LogEntry (U N : Type) where
  | own (w : World) (s : Strand (Frame U N))
  | others (found left : World)

namespace Strand

inductive LoggedRun (lib : Library U N) (c : ContextId) (x : World × Strand (Frame U N)) :
    List (LogEntry U N) → World × Strand (Frame U N) → Prop
  | refl : LoggedRun lib c x [] x
  | own {log : List (LogEntry U N)} {w w' : World} {s s' : Strand (Frame U N)}
      (h : LoggedRun lib c x log (w,s)) (hstep : s.step lib c w = .ran s' w') :
      LoggedRun lib c x (log ++ [.own w s]) (w',s')
  | others {log : List (LogEntry U N)} {w w' : World} {s : Strand (Frame U N)}
      (h : LoggedRun lib c x log (w,s)) (hbeside : w.KeepsContext c w') :
      LoggedRun lib c x (log ++ [.others w w']) (w',s)

variable {lib : Library U N} {c : ContextId} {log log' : List (LogEntry U N)} {w w' u : World}
  {s s' t : Strand (Frame U N)} {x y z : World × Strand (Frame U N)}

namespace LoggedRun

theorem trans (h : LoggedRun lib c x log y) (h' : LoggedRun lib c y log' z) :
    LoggedRun lib c x (log ++ log') z := by
  induction h' with
  | refl => rwa [List.append_nil]
  | own _ hstep ih =>
    rw [← List.append_assoc]
    exact ih.own hstep
  | others _ hbeside ih =>
    rw [← List.append_assoc]
    exact ih.others hbeside

theorem single (hstep : s.step lib c w = .ran s' w') : LoggedRun lib c (w,s) [.own w s] (w',s') :=
  .own .refl hstep

/-- A logged run, divided at one of its steps. -/
theorem split (h : LoggedRun lib c x log y) (hmem : .own u t ∈ log) :
    ∃ log₁ log₂ s' u', log = log₁ ++ .own u t :: log₂ ∧
    LoggedRun lib c x log₁ (u,t) ∧ t.step lib c u = .ran s' u' ∧ LoggedRun lib c (u',s') log₂ y := by
  induction h with
  | refl => cases hmem
  | @own log w w' s s' h hstep ih =>
    rcases List.mem_append.mp hmem with hmem | hmem
    · obtain ⟨log₁,log₂,s₁,u₁,rfl,hfirst,hown,hrest⟩ := ih hmem
      exact ⟨log₁,log₂ ++ [.own w s],s₁,u₁,by simp,hfirst,hown,hrest.own hstep⟩
    · cases List.mem_singleton.mp hmem
      exact ⟨log,[],s',w',rfl,h,hstep,.refl⟩
  | @others log w w' s h hbeside ih =>
    rcases List.mem_append.mp hmem with hmem | hmem
    · obtain ⟨log₁,log₂,s₁,u₁,rfl,hfirst,hown,hrest⟩ := ih hmem
      exact ⟨log₁,log₂ ++ [.others w w'],s₁,u₁,by simp,hfirst,hown,hrest.others hbeside⟩
    · cases List.mem_singleton.mp hmem

/-- The code is where it was, or where its last step has led it; the context has not changed since. -/
theorem last (h : LoggedRun lib c x log y) : y.2 = x.2 ∧ y.1.context c = x.1.context c ∨
    ∃ u t u', .own u t ∈ log ∧ t.step lib c u = .ran y.2 u' ∧ y.1.context c = u'.context c := by
  induction h with
  | refl => exact .inl ⟨rfl,rfl⟩
  | own _ hstep _ => exact .inr ⟨_,_,_,List.mem_append_right _ List.mem_cons_self,hstep,rfl⟩
  | others _ hbeside ih =>
    rcases ih with ⟨hs,hcontext⟩ | ⟨u,t,u',hmem,hstep,hcontext⟩
    · exact .inl ⟨hs,hbeside.context.trans hcontext⟩
    · exact .inr ⟨u,t,u',List.mem_append_left _ hmem,hstep,hbeside.context.trans hcontext⟩

/-- The code is where it was, or its first step was taken there, before the context has changed. -/
theorem first (h : LoggedRun lib c x log y) : y.2 = x.2 ∧ y.1.context c = x.1.context c ∨
    ∃ u, .own u x.2 ∈ log ∧ u.context c = x.1.context c := by
  induction h with
  | refl => exact .inl ⟨rfl,rfl⟩
  | @own log w w' s s' _ hstep ih =>
    rcases ih with ⟨hs,hcontext⟩ | ⟨u,hmem,hcontext⟩
    · obtain rfl : s = x.2 := hs
      exact .inr ⟨w,List.mem_append_right _ List.mem_cons_self,hcontext⟩
    · exact .inr ⟨u,List.mem_append_left _ hmem,hcontext⟩
  | others _ hbeside ih =>
    rcases ih with ⟨hs,hcontext⟩ | ⟨u,hmem,hcontext⟩
    · exact .inl ⟨hs,hbeside.context.trans hcontext⟩
    · exact .inr ⟨u,List.mem_append_left _ hmem,hcontext⟩

/-- What each step keeps, and the work of others beside the context, is kept all along. -/
theorem keeps {P : World → Strand (Frame U N) → Prop} (h : LoggedRun lib c x log y) (hx : P x.1 x.2)
    (hown : ∀ w s w' s', .own w s ∈ log → P w s → s.step lib c w = .ran s' w' → P w' s')
    (hothers : ∀ w s w', P w s → w.KeepsContext c w' → P w' s) : P y.1 y.2 := by
  induction h with
  | refl => exact hx
  | own _ hstep ih =>
    have hbefore := ih fun w s w' s' hmem => hown w s w' s' (List.mem_append_left _ hmem)
    exact hown _ _ _ _ (List.mem_append_right _ List.mem_cons_self) hbefore hstep
  | others _ hbeside ih =>
    have hbefore := ih fun w s w' s' hmem => hown w s w' s' (List.mem_append_left _ hmem)
    exact hothers _ _ _ hbefore hbeside

theorem keeps_own {P : World → Strand (Frame U N) → Prop} (h : LoggedRun lib c x log y) (hx : P x.1 x.2)
    (hown : ∀ w s w' s', .own w s ∈ log → P w s → s.step lib c w = .ran s' w' → P w' s')
    (hothers : ∀ w s w', P w s → w.KeepsContext c w' → P w' s) (hmem : .own u t ∈ log) : P u t := by
  obtain ⟨log₁,log₂,s',u',rfl,hfirst,_,_⟩ := h.split hmem
  exact hfirst.keeps hx (fun w s w' s' hmem => hown w s w' s' (List.mem_append_left _ hmem)) hothers

end LoggedRun

def alone (lib : Library U N) (c : ContextId) : ℕ → World × Strand (Frame U N) →
    List (LogEntry U N) × (World × Strand (Frame U N))
  | 0, x => ([],x)
  | n + 1, x =>
    match x.2.step lib c x.1 with
    | .ran s w => (.own x.1 x.2 :: (alone lib c n (w,s)).1,(alone lib c n (w,s)).2)
    | .blocked _ => ([],x)

theorem loggedRun_alone (lib : Library U N) (c : ContextId) (n : ℕ) (x : World × Strand (Frame U N)) :
    LoggedRun lib c x (alone lib c n x).1 (alone lib c n x).2 := by
  induction n generalizing x with
  | zero => exact .refl
  | succ n ih =>
    rw [alone]
    split
    · rename_i s w hstep
      exact (LoggedRun.single hstep).trans (ih (w,s))
    · exact .refl

theorem others_notMem_alone (lib : Library U N) (c : ContextId) (n : ℕ) (x : World × Strand (Frame U N))
    (u u' : World) : .others u u' ∉ (alone lib c n x).1 := by
  induction n generalizing x with
  | zero => exact List.not_mem_nil
  | succ n ih =>
    rw [alone]
    split
    · exact fun hmem => (List.mem_cons.mp hmem).elim nofun (ih _)
    · exact List.not_mem_nil

end Strand

structure Context.AddsNothing (context context' : Context) : Prop where
  hook : context'.hook = context.hook ∨ context'.hook = none
  handler : context'.handler = context.handler ∨ context'.handler = none
  stopping : context'.stopping = context.stopping

namespace Context

variable {a b d : Context}

theorem AddsNothing.refl (a : Context) : a.AddsNothing a := ⟨.inl rfl,.inl rfl,rfl⟩

theorem AddsNothing.trans (h : a.AddsNothing b) (h' : b.AddsNothing d) : a.AddsNothing d where
  hook := by
    rcases h'.hook with hb | hb
    · rw [hb]
      exact h.hook
    · exact .inr hb
  handler := by
    rcases h'.handler with hb | hb
    · rw [hb]
      exact h.handler
    · exact .inr hb
  stopping := h'.stopping.trans h.stopping

theorem AddsNothing.of_record (h : b = { a with references := b.references }) : a.AddsNothing b := by
  rw [h]
  exact ⟨.inl rfl,.inl rfl,rfl⟩

theorem addsNothing_countInstruction (a : Context) : a.AddsNothing a.countInstruction.2 := by
  unfold countInstruction
  split
  · exact .refl a
  · split
    · exact .refl a
    · dsimp only
      split <;> exact ⟨.inl rfl,.inl rfl,rfl⟩

theorem addsNothing_destroy (a : Context) (s : Store) : a.AddsNothing (a.destroy s).1 := by
  unfold destroy
  split
  · exact .refl a
  · exact ⟨.inr rfl,.inr rfl,rfl⟩

end Context

namespace World

variable {c : ContextId} {w w' : World}

theorem addsNothing_of_contexts (h : w'.contexts = w.contexts) :
    (w.context c).AddsNothing (w'.context c) := by
  rw [World.context, World.context, h]
  exact .refl _

theorem addsNothing_setContext {i : ContextId} {context : Context}
    (h : (w.context i).AddsNothing context) :
    (w.context c).AddsNothing ((w.setContext i context).context c) := by
  rw [context_setContext]
  split
  · rename_i hi
    rw [← hi.1]
    exact h
  · exact .refl _

theorem addsNothing_destroyUnhooked (w : World) (i : ContextId) :
    (w.context c).AddsNothing ((w.destroyUnhooked i).context c) :=
  addsNothing_setContext (w := w.setStore ((w.context i).destroy w.store).2)
    (Context.addsNothing_destroy _ _)

theorem addsNothing_disown (w : World) (i : WorkerId) :
    (w.context c).AddsNothing ((w.disown i).context c) := by
  unfold disown
  dsimp only
  split
  · split
    · exact addsNothing_destroyUnhooked (w.setStore (w.store.releaseAll _ _ _)) _
    · exact .refl _
  · exact .refl _

theorem addsNothing_destroy (w : World) (i : ContextId) :
    (w.context c).AddsNothing ((w.destroy i).context c) := by
  unfold destroy
  dsimp only
  split
  · exact .refl _
  · have hset : (w.context c).AddsNothing
        ((w.setContext i { w.context i with hook := none }).context c) :=
      addsNothing_setContext ⟨.inr rfl,.inl rfl,rfl⟩
    refine (hset.trans ?_).trans (addsNothing_destroyUnhooked _ i)
    unfold dropHook
    split
    · exact addsNothing_disown _ _
    · exact .refl _

theorem addsNothing_share (w : World) (i : ContextId) (v : Value) :
    (w.context c).AddsNothing ((w.share i v).2.context c) := by
  unfold share
  dsimp only
  split
  · exact .refl _
  · split
    · rename_i hload
      exact addsNothing_setContext (w := w.setStore _) (.of_record (load_record hload))
    · exact .refl _

/-- No answer to running code gives its context anything to report to. -/
theorem addsNothing_answer (w : World) (i : ContextId) (q : Query) :
    (w.context c).AddsNothing ((w.answer i q).2.context c) := by
  cases q with
  | newTable | set | length | paths | hookStep | isNotified | notify | newNotifier => exact .refl _
  | newShared => exact addsNothing_setContext (w := w.setStore _) ⟨.inl rfl,.inl rfl,rfl⟩
  | get table key =>
    exact addsNothing_setContext (w := w.setStore _)
      (.of_record (get_record (w.context i) w.memory table key))
  | share value => exact addsNothing_share w i value
  | count => exact addsNothing_setContext (Context.addsNothing_countInstruction _)
  | destroy => exact addsNothing_destroy w i
  | retarget target =>
    have hcontexts : ∀ hook, (w.retarget hook target).2.contexts = w.contexts := by
      rintro (_ | ⟨h⟩ | ⟨g⟩) <;> rfl
    exact addsNothing_of_contexts (hcontexts _)

end World

namespace Strand

variable {lib : Library U N} {c : ContextId} {w w' : World} {s s' t t' : Strand (Frame U N)}

/-- What a check signals is all that it changes of the context. -/
theorem addsNothing_finish {probe : Probe} {stopped : Bool}
    (hprobe : probe.step w = .finish stopped w') :
    (w.context c).AddsNothing ((observe w' c stopped).context c) ∨
      stopped = true ∧ (observe w' c stopped).context c =
      { w.context c with stopping := true } := by
  have hcontext : w'.context c = w.context c := by
    rw [World.context, contexts_writes (Probe.writes_finish hprobe)]
    rfl
  rw [observe, World.context_setContext]
  split
  · rw [hcontext]
    cases stopped with
    | true => exact .inr ⟨rfl,rfl⟩
    | false => exact .inl (.refl _)
  · rw [hcontext]
    exact .inl (.refl _)

/-- A step leaves the context what it has, unless a check signals stop: then that is all that it
changes. -/
theorem addsNothing_step (hstep : s.step lib c w = .ran s' w') :
    (w.context c).AddsNothing (w'.context c) ∨
    s.Stops w ∧ w'.context c = { w.context c with stopping := true } := by
  cases transition_of_step hstep with
  | due | counted => exact .inl (World.addsNothing_setContext (Context.addsNothing_countInstruction _))
  | asks role q k callers => exact .inl (World.addsNothing_answer w c q)
  | ticking stack callers hprobe | checking role k callers hprobe =>
    exact .inl (World.addsNothing_of_contexts (contexts_writes (Probe.writes_goto hprobe)))
  | ticked stack callers hprobe =>
    obtain hadds | ⟨rfl,hcontext⟩ := addsNothing_finish hprobe
    · exact .inl hadds
    · exact .inr ⟨.counting stack callers hprobe,hcontext⟩
  | checked role k callers hprobe =>
    obtain hadds | ⟨rfl,hcontext⟩ := addsNothing_finish hprobe
    · exact .inl hadds
    · exact .inr ⟨.checking role k callers hprobe,hcontext⟩
  | countedOut | plainStep | offers | escapes | returns | ends => exact .inl (.refl _)
  | reports | unhooked | checks | waits | uncalled | unloaded | calls | panics => exact .inl (.refl _)
  | notified | expired => exact .inl (.refl _)

end Strand

def Phase.IsInner {F : Type} : Phase F → Prop
  | .turn _ | .counting .. => True
  | .acting role _ | .checking _ role _ | .waiting _ _ role _ => role.IsInner
  | .exit _ => False

structure Strand.Inner {F : Type} (s : Strand F) : Prop where
  phase : s.phase.IsInner
  callers : ∀ caller ∈ s.callers, caller.role.IsInner

def Strand.under {F : Type} (base : List (Caller F)) (s : Strand F) : Strand F :=
  match s.phase with
  | .exit _ => s
  | phase => ⟨phase,s.callers ++ base⟩

def Strand.Returned {F : Type} (callers : List (Caller F)) (s : Strand F) : Prop :=
  ∃ outcome left, s = ⟨.turn (.ended outcome left),callers⟩

namespace Strand

variable {lib : Library U N} {c : ContextId} {w w' : World} {s t t' : Strand (Frame U N)}
  {base : List (Caller (Frame U N))}

theorem under_eq (hphase : t.phase.IsInner) : t.under base = ⟨t.phase,t.callers ++ base⟩ := by
  unfold under
  split
  · rename_i e he
    rw [he] at hphase
    exact hphase.elim
  · rfl

theorem afterAct_isInner {stopping : Bool} {role : Role (Frame U N)} (hi : role.IsInner)
    (report : role.Report) :
    (afterAct lib stopping role report).IsInner := by
  cases role with
  | step | receive => trivial
  | loneStep | loneReceive | outside => exact hi.elim

variable (lib c w base)

theorem inner_stepTurn {callers : List (Caller (Frame U N))} {t : Turn (Frame U N)}
    (ht : (⟨.turn t,callers⟩ : Strand (Frame U N)).Inner) (hopen : ¬ Returned [] ⟨.turn t,callers⟩) :
    (stepTurn lib c w callers t).1.Inner ∧
      stepTurn lib c w (callers ++ base) t =
        ((stepTurn lib c w callers t).1.under base,(stepTurn lib c w callers t).2) := by
  have hcallers := ht.callers
  cases t with
  | count stack =>
    unfold stepTurn
    dsimp only
    split <;> exact ⟨⟨trivial,hcallers⟩,rfl⟩
  | step | offer | escape => exact ⟨⟨trivial,hcallers⟩,rfl⟩
  | ended outcome left =>
    cases callers with
    | nil => exact absurd ⟨outcome,left,rfl⟩ hopen
    | cons caller callers =>
      exact ⟨⟨hcallers caller List.mem_cons_self,fun other hmem =>
        hcallers other (List.mem_cons_of_mem _ hmem)⟩,rfl⟩

theorem inner_stepAct {callers : List (Caller (Frame U N))} {role : Role (Frame U N)}
    {act : Act role.Report} (ht : (⟨.acting role act,callers⟩ : Strand (Frame U N)).Inner) :
    ((stepAct lib c w callers role act).1.Inner ∨
        ∃ text, (stepAct lib c w callers role act).1 = ⟨.exit (.panicked text),[]⟩) ∧
      stepAct lib c w (callers ++ base) role act =
        ((stepAct lib c w callers role act).1.under base,(stepAct lib c w callers role act).2) := by
  obtain ⟨hi,hcallers⟩ := ht
  cases act with
  | done report =>
    have hphase : (afterAct lib (w.context c).stopping role report).IsInner := afterAct_isInner hi report
    exact ⟨.inl ⟨hphase,hcallers⟩,by rw [stepAct, stepAct, under_eq hphase]⟩
  | query q k => exact ⟨.inl ⟨hi,hcallers⟩,rfl⟩
  | wait n d k => exact ⟨.inl ⟨hi,hcallers⟩,rfl⟩
  | panic text => exact ⟨.inr ⟨text,rfl⟩,rfl⟩
  | check kind k =>
    unfold stepAct
    dsimp only
    split <;> exact ⟨.inl ⟨hi,hcallers⟩,rfl⟩
  | call f arguments k =>
    unfold stepAct
    dsimp only
    split
    · exact ⟨.inl ⟨hi,hcallers⟩,rfl⟩
    · split
      · exact ⟨.inl ⟨hi,hcallers⟩,rfl⟩
      · exact ⟨.inl ⟨trivial,List.forall_mem_cons.mpr ⟨hi,hcallers⟩⟩,rfl⟩

/-- Until it ends, a scheduler goes on whoever waits for it, unless its code panics. -/
theorem inner_step (ht : t.Inner) (hopen : ¬ t.Returned []) :
    (∀ t' w', t.step lib c w = .ran t' w' → t'.Inner ∨ ∃ text, t' = ⟨.exit (.panicked text),[]⟩) ∧
      (t.under base).step lib c w = (t.step lib c w).map (under base) := by
  rw [under_eq ht.phase]
  obtain ⟨phase,callers⟩ := t
  obtain ⟨hi,hcallers⟩ := ht
  cases phase with
  | turn t =>
    obtain ⟨hinner,heq⟩ := inner_stepTurn lib c w base ⟨hi,hcallers⟩ hopen
    simp only [step, heq, Progress.map, and_true]
    rintro t' w' ⟨⟩
    exact .inl hinner
  | acting role act =>
    have ht : (⟨.acting role act,callers⟩ : Strand (Frame U N)).Inner := ⟨hi,hcallers⟩
    obtain ⟨hinner,heq⟩ := inner_stepAct lib c w base ht
    simp only [step, heq, Progress.map, and_true]
    rintro t' w' ⟨⟩
    exact hinner
  | counting probe stack | checking probe role k =>
    simp only [step]
    split <;> refine ⟨?_,rfl⟩ <;> rintro t' w' ⟨⟩ <;> exact .inl ⟨hi,hcallers⟩
  | waiting n deadline role k =>
    simp only [step]
    split
    · refine ⟨?_,rfl⟩
      rintro t' w' ⟨⟩
      exact .inl ⟨hi,hcallers⟩
    · split <;> refine ⟨?_,rfl⟩ <;> rintro t' w' ⟨⟩
      exact .inl ⟨hi,hcallers⟩
  | exit => exact hi.elim

end Strand

end Workers
