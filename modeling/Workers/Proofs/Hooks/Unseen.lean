import Workers.Proofs.Call.Effects
import Workers.Proofs.Control.Stop
import Workers.Proofs.Hooks.Hookless
import Workers.Proofs.Pool.Within
/-! # Checks of the hook are not seen

A strand with a hook and the same strand without one, step by step: while the one is in a check, the
other stands where the check began, or already where it ends.  As long as no check signals stop,
both call the same runnables and handlers in the same order, find and leave the same tables, and end
alike.
-/
namespace Workers

variable {U N : Type}

def Event.isCall : Event U N → Bool
  | .moment .. => false
  | _ => true

inductive Observation (U N : Type) where
  | call (e : Event U N)
  | others (memory : Memory) (notifiers : Array Notifier) (clock : ℕ)

namespace Strand

variable (lib : Library U N) (c : ContextId)

def calls (w : World) (s s' : Strand (Frame U N)) (w' : World) : List (Observation U N) :=
  ((s.events lib c w s' w').filter Event.isCall).map .call

inductive Goes (may : World → Strand (Frame U N) → Prop) (w : World) (s : Strand (Frame U N)) :
    List (Observation U N) → World → Strand (Frame U N) → Prop
  | refl : Goes may w s [] w s
  | own {tr : List (Observation U N)} {w' w'' : World} {s' s'' : Strand (Frame U N)}
      (h : Goes may w s tr w' s') (hmay : may w' s') (hstep : s'.step lib c w' = .ran s'' w'') :
      Goes may w s (tr ++ s'.calls lib c w' s'' w'') w'' s''
  | others {tr : List (Observation U N)} {w' : World} {s' : Strand (Frame U N)}
      (h : Goes may w s tr w' s') (w'' : World) (hcontext : w''.context c = w'.context c)
      (hsize : w'.contexts.size ≤ w''.contexts.size) :
      Goes may w s (tr ++ [.others w''.memory w''.notifiers w''.clock]) w'' s'

/-- The next step ends no check with a stop, and if it destroys the context, then the worker that this
reports to is kept by somebody else. -/
structure Harmless (w : World) (s : Strand (Frame U N)) : Prop where
  passes : ¬ s.Stops w
  shared : s.phase.destroys = true → w.Shared c

end Strand

inductive Phase.Alike : Phase (Frame U N) → Phase (Frame U N) → Prop
  | turn (t : Turn (Frame U N)) : Alike (.turn t) (.turn t)
  | acting (role : Role (Frame U N)) {act act' : Act role.Report} (h : act.Alike act') :
      Alike (.acting role act) (.acting role act')
  | counting (probe : Probe) (stack : List (Frame U N)) :
      Alike (.counting probe stack) (.turn (.count stack))
  | checking (probe : Probe) (role : Role (Frame U N)) {k : Bool → Act role.Report}
      {act : Act role.Report} (h : (k false).Alike act) :
      Alike (.checking probe role k) (.acting role act)
  | waiting (n : NotifierId) (deadline : ℕ) (role : Role (Frame U N))
      {k k' : Bool → Act role.Report} (h : ∀ notified, (k notified).Alike (k' notified)) :
      Alike (.waiting n deadline role k) (.waiting n deadline role k')
  | exit (e : Exit (Frame U N)) : Alike (.exit e) (.exit e)

inductive Caller.Alike : Caller (Frame U N) → Caller (Frame U N) → Prop
  | mk (role : Role (Frame U N)) {k k' : Outcome → Act role.Report}
      (h : ∀ outcome, (k outcome).Alike (k' outcome)) :
      Alike ⟨role,k⟩ ⟨role,k'⟩

inductive Phase.Checks (w : World) : Phase (Frame U N) → Phase (Frame U N) → Prop
  | count (hook : Hook) (stack : List (Frame U N)) :
      Checks w (.turn (.count stack)) (.counting (Probe.start hook .tick) stack)
  | counting {probe next : Probe} {w' : World} (h : probe.step w = .goto next w')
      (stack : List (Frame U N)) :
      Checks w (.counting probe stack) (.counting next stack)
  | begin (hook : Hook) (kind : CheckKind) (role : Role (Frame U N)) (k : Bool → Act role.Report) :
      Checks w (.acting role (.check kind k)) (.checking (Probe.start hook kind) role k)
  | skip (kind : CheckKind) (role : Role (Frame U N)) (k : Bool → Act role.Report) :
      Checks w (.acting role (.check kind k)) (.acting role (k false))
  | checking {probe next : Probe} {w' : World} (h : probe.step w = .goto next w')
      (role : Role (Frame U N)) (k : Bool → Act role.Report) :
      Checks w (.checking probe role k) (.checking next role k)
  | finish (probe : Probe) (role : Role (Frame U N)) (k : Bool → Act role.Report) :
      Checks w (.checking probe role k) (.acting role (k false))

def Phase.probe? {F : Type} : Phase F → Option Probe
  | .counting probe _ | .checking probe _ _ => some probe
  | _ => none

namespace Strand

structure Matches (c : ContextId) (w : World) (s : Strand (Frame U N)) (w₀ : World)
    (s₀ : Strand (Frame U N)) : Prop where
  world : w.Hookless c w₀
  phase : s.phase.Alike s₀.phase
  callers : List.Forall₂ Caller.Alike s.callers s₀.callers
  /-- Only a context that goes on has to count. -/
  going : ∀ probe stack, s.phase = .counting probe stack → (w.context c).stopping = false

variable {lib : Library U N} {c : ContextId} {w w' w₀ : World} {s s' s₀ : Strand (Frame U N)}

/-- What a step of the strand with a hook comes to: the strand without one takes the same step, or
it is a step of a check, and does not show. -/
def Follows (lib : Library U N) (c : ContextId) (w : World) (s : Strand (Frame U N)) (w' : World)
    (s' : Strand (Frame U N)) (w₀ : World) (s₀ : Strand (Frame U N)) : Prop :=
  s.calls lib c w s' w' = [] ∧ Phase.Checks w s.phase s'.phase ∧ Matches c w' s' w₀ s₀ ∨
    ∃ w₁ s₁, s₀.step lib c w₀ = .ran s₁ w₁ ∧ s₀.calls lib c w₀ s₁ w₁ = s.calls lib c w s' w' ∧
    Matches c w' s' w₁ s₁

theorem exit_eq (h : s.phase.Alike s₀.phase) : s.exit? = s₀.exit? := by
  obtain ⟨phase,callers⟩ := s
  obtain ⟨phase₀,callers₀⟩ := s₀
  cases h <;> rfl

theorem alike_afterAct (hlib : lib.IgnoresHook) (stopping : Bool) (role : Role (Frame U N))
    (report : role.Report) :
    (afterAct lib stopping role report).Alike (afterAct lib stopping role report) := by
  cases role with
  | step | receive => exact .turn _
  | loneStep =>
    obtain ⟨frame,move⟩ := report
    cases move with
    | again => exact .acting .loneStep (hlib.advance frame)
    | proceed | launch | finish | fault | stop => exact .exit _
  | loneReceive | outside => exact .exit _

end Strand

namespace Context

theorem hookless_countInstruction (context : Context) :
    context.countInstruction.2.hookless = context.hookless := by
  unfold countInstruction
  split
  · rfl
  · split
    · rfl
    · dsimp only
      split <;> rfl

end Context

theorem World.Hookless.count {c : ContextId} {w w₀ : World} (hw : w.Hookless c w₀) {context : Context}
    (hcontext : context.hookless = (w.context c).hookless) : (w.setContext c context).Hookless c w₀ where
  memory := hw.memory
  notifiers := hw.notifiers
  clock := hw.clock
  lt := by rw [size_setContext]; exact hw.lt
  lt' := hw.lt'
  context := by rw [context_setContext_self hw.lt, hcontext, hw.context]

theorem World.Hookless.writes {c : ContextId} {w w' w₀ : World} (hw : w.Hookless c w₀)
    (hwrites : Probe.Writes w w') :
    w'.Hookless c w₀ := by
  cases hwrites with
  | control h control => exact hw.setHandle h _
  | gauge g gauge => exact hw.setGauge g gauge

namespace Strand

variable {lib : Library U N} {c : ContextId} {w w' w₀ : World} {s s' s₀ : Strand (Frame U N)}

theorem calls_count (stack : List (Frame U N)) (callers : List (Caller (Frame U N))) :
    calls lib c w ⟨.turn (.count stack),callers⟩ s' w' = s'.phase.opening.map .call := by
  have hopening : s'.phase.opening.filter Event.isCall = s'.phase.opening := by
    unfold Phase.opening
    split <;> rfl
  simp [calls, events, Event.isCall, hopening]

theorem calls_counting (probe : Probe) (stack : List (Frame U N)) (callers : List (Caller (Frame U N))) :
    calls lib c w ⟨.counting probe stack,callers⟩ s' w' = s'.phase.opening.map .call :=
  @calls_count _ _ lib c w w' s' stack callers

section Forward

variable (hlib : lib.IgnoresHook) (hw : w.Hookless c w₀) {callers callers₀ : List (Caller (Frame U N))}
  (hcallers : List.Forall₂ Caller.Alike callers callers₀)

theorem step_count_hookless (hnone : w₀.context c = (w.context c).hookless)
    (stack : List (Frame U N)) (callers : List (Caller (Frame U N))) :
    step lib c w₀ ⟨.turn (.count stack),callers⟩ =
      .ran ⟨.turn (Turn.afterCount (w.context c).stopping stack),callers⟩
        (w₀.setContext c (w.context c).hookless) := by
  simp only [step, stepTurn, hnone, Context.countInstruction_hookless]
  cases (w.context c).stopping <;> rfl

include hw hcallers in
theorem follows_count (stack : List (Frame U N)) :
    Follows lib c w ⟨.turn (.count stack),callers⟩ (stepTurn lib c w callers (.count stack)).2
      (stepTurn lib c w callers (.count stack)).1 w₀ ⟨.turn (.count stack),callers₀⟩ := by
  have hcounted := Context.hookless_countInstruction (w.context c)
  have hstop := Context.countInstruction_eq_stop (w.context c)
  have hkept := World.stopping_countInstruction (w.context c)
  have htogether : ∀ context : Context, context.hookless = (w.context c).hookless →
      Follows lib c w ⟨.turn (.count stack),callers⟩ (w.setContext c context)
        ⟨.turn (Turn.afterCount (w.context c).stopping stack),callers⟩ w₀
        ⟨.turn (.count stack),callers₀⟩ := by
    intro context hcontext
    refine .inr ⟨_,_,step_count_hookless hw.context stack callers₀,?_,?_,.turn _,hcallers,(by simp)⟩
    · rw [calls_count, calls_count]
    · rw [← hcontext]
      exact hw.setContext context
  rcases hcount : (w.context c).countInstruction with ⟨count,context⟩
  rw [hcount] at hcounted hstop hkept
  simp only [stepTurn, hcount]
  cases count with
  | stop =>
    have h := htogether context hcounted
    rwa [hstop.mp rfl] at h
  | pass =>
    have hgoes : (w.context c).stopping = false := Bool.eq_false_iff.mpr fun hs => by cases hstop.mpr hs
    have h := htogether context hcounted
    rwa [hgoes] at h
  | tick =>
    have hgoes : (w.context c).stopping = false := Bool.eq_false_iff.mpr fun hs => by cases hstop.mpr hs
    cases hhook : context.hook with
    | none =>
      have h := htogether context hcounted
      rwa [hgoes] at h
    | some hook =>
      refine .inl ⟨calls_count stack callers,.count hook stack,hw.count hcounted,.counting _ stack,
        hcallers,fun _ _ _ => ?_⟩
      rw [World.context_setContext_self hw.lt]
      exact hkept.trans hgoes

include hlib hw hcallers in
theorem follows_stepTurn (t : Turn (Frame U N)) :
    Follows lib c w ⟨.turn t,callers⟩ (stepTurn lib c w callers t).2 (stepTurn lib c w callers t).1 w₀
      ⟨.turn t,callers₀⟩ := by
  cases t with
  | count stack => exact follows_count hw hcallers stack
  | step active below =>
    exact .inr ⟨w₀,_,rfl,rfl,hw,.acting _ (hlib.advance active),hcallers,nofun⟩
  | offer parent below outcome unwound =>
    exact .inr ⟨w₀,_,rfl,rfl,hw,.acting _ (hlib.accept outcome parent),hcallers,nofun⟩
  | escape fault unwound =>
    refine .inr ⟨w₀,_,rfl,rfl,hw,?_,hcallers,nofun⟩
    rw [hw.context]
    exact .turn _
  | ended outcome left =>
    cases hcallers with
    | nil => exact .inr ⟨w₀,_,rfl,rfl,hw,.exit _,.nil,nofun⟩
    | cons hcaller hrest =>
      cases hcaller with
      | mk role h => exact .inr ⟨w₀,_,rfl,rfl,hw,.acting role (h outcome),hrest,nofun⟩

theorem isCall_of_mem_actEvents {stopping : Bool} {role : Role (Frame U N)}
    {act : Act role.Report} {e : Event U N} (he : e ∈ actEvents lib stopping role act) :
    e.isCall = true := by
  cases act with
  | done report =>
    simp only [actEvents, Role.described] at he
    split at he
    · split at he
      · cases he
      · obtain rfl := List.mem_singleton.mp he
        rfl
    · obtain rfl := List.mem_singleton.mp he
      rfl
    · cases he
  | call f arguments k =>
    simp only [actEvents] at he
    split at he
    · cases he
    · split at he
      · obtain rfl := List.mem_singleton.mp he
        rfl
      · cases he
  | query | check | wait | panic => cases he

theorem calls_acting (role : Role (Frame U N)) (act : Act role.Report)
    (callers : List (Caller (Frame U N))) :
    calls lib c w ⟨.acting role act,callers⟩ s' w' =
    (actEvents lib (w.context c).stopping role act).map .call := by
  have hcalls : (actEvents lib (w.context c).stopping role act).filter Event.isCall =
      actEvents lib (w.context c).stopping role act :=
    List.filter_eq_self.mpr fun e he => isCall_of_mem_actEvents he
  simp [calls, events, Event.isCall, hcalls]

variable {role : Role (Frame U N)} {act act₀ : Act role.Report}

theorem stopping_hookless (hw : w.Hookless c w₀) : (w₀.context c).stopping = (w.context c).stopping := by
  rw [hw.context]
  rfl

theorem hook_hookless (hw : w.Hookless c w₀) : (w₀.context c).hook = none := by
  rw [hw.context]
  rfl

include hw in
theorem follows_acting {w₁ : World} {s₁ : Strand (Frame U N)}
    (hstep₀ : stepAct lib c w₀ callers₀ role act₀ = (s₁,w₁))
    (hevents : actEvents lib (w.context c).stopping role act₀ = actEvents lib
      (w.context c).stopping role act)
    (hm : Matches c w' s' w₁ s₁) :
    Follows lib c w ⟨.acting role act,callers⟩ w' s' w₀ ⟨.acting role act₀,callers₀⟩ := by
  refine .inr ⟨w₁,s₁,?_,?_,hm⟩
  · simp only [step, hstep₀]
  · rw [calls_acting, calls_acting, stopping_hookless hw, hevents]

include hw hcallers in
theorem matches_check {kind : CheckKind} {k : Bool → Act role.Report} (h : (k false).Alike act₀) :
    Matches c (stepAct lib c w callers role (.check kind k)).2
      (stepAct lib c w callers role (.check kind k)).1
      w₀ ⟨.acting role act₀,callers₀⟩ := by
  simp only [stepAct]
  cases (w.context c).hook with
  | none => exact ⟨hw,.acting role h,hcallers,(by simp)⟩
  | some hook => exact ⟨hw,.checking _ role h,hcallers,(by simp)⟩

theorem checks_check (kind : CheckKind) (k : Bool → Act role.Report) :
    Phase.Checks w (.acting role (.check kind k))
      (stepAct lib c w callers role (.check kind k)).1.phase := by
  simp only [stepAct]
  cases (w.context c).hook with
  | none => exact .skip kind role k
  | some hook => exact .begin hook kind role k

include hw hcallers in
theorem follows_call {f : Routine} {arguments : List Value} {k k₀ : Outcome → Act role.Report}
    (hk : ∀ outcome, (k outcome).Alike (k₀ outcome)) :
    Follows lib c w ⟨.acting role (.call f arguments k),callers⟩
      (stepAct lib c w callers role (.call f arguments k)).2
      (stepAct lib c w callers role (.call f arguments k)).1 w₀
        ⟨.acting role (.call f arguments k₀),callers₀⟩ := by
  have hstopping := stopping_hookless hw
  by_cases hstop : (w.context c).stopping = true
  · have hstep₀ : stepAct lib c w₀ callers₀ role (.call f arguments k₀) =
        (⟨.acting role (k₀ (.error .stop)),callers₀⟩,w₀) := by
      simp only [stepAct, if_pos (hstopping.trans hstop)]
    refine follows_acting hw hstep₀ rfl ?_
    simp only [stepAct, if_pos hstop]
    exact ⟨hw,.acting role (hk _),hcallers,(by simp)⟩
  · have hstop₀ : ¬ (w₀.context c).stopping = true := fun h => hstop (hstopping.symm.trans h)
    cases hload : lib.load f arguments with
    | error fault =>
      have hstep₀ : stepAct lib c w₀ callers₀ role (.call f arguments k₀) =
          (⟨.acting role (k₀ (.error (.fault ((w.context c).handleFault fault [])))),callers₀⟩,w₀) := by
        simp only [stepAct, if_neg hstop₀, hload]
        rw [hw.context]
        rfl
      refine follows_acting hw hstep₀ rfl ?_
      simp only [stepAct, if_neg hstop, hload]
      exact ⟨hw,.acting role (hk _),hcallers,(by simp)⟩
    | ok frame =>
      have hstep₀ : stepAct lib c w₀ callers₀ role (.call f arguments k₀) =
          (⟨.turn (.count [frame]),⟨role,k₀⟩ :: callers₀⟩,w₀) := by
        simp only [stepAct, if_neg hstop₀, hload]
      refine follows_acting hw hstep₀ rfl ?_
      simp only [stepAct, if_neg hstop, hload]
      exact ⟨hw,.turn _,.cons (.mk role hk) hcallers,(by simp)⟩

include hw hcallers in
/-- The code of a runnable counts: the one without a hook is told the same, but for a tick. -/
theorem follows_answerCount {k k₀ : Count → Act role.Report} (hstop : (k .stop).Alike (k₀ .stop))
    (hpass : (k .pass).Alike (k₀ .pass)) (htick : (k .tick).Alike (k₀ .pass)) :
    Follows lib c w ⟨.acting role (.query .count k),callers⟩
      (stepAct lib c w callers role (.query .count k)).2
      (stepAct lib c w callers role (.query .count k)).1 w₀
        ⟨.acting role (.query .count k₀),callers₀⟩ := by
  have hcounted := Context.hookless_countInstruction (w.context c)
  have hif := Context.countInstruction_eq_stop (w.context c)
  have hstep₀ : stepAct lib c w₀ callers₀ role (.query .count k₀) =
      (⟨.acting role (k₀ (if (w.context c).stopping then Count.stop else .pass)),callers₀⟩,
        w₀.setContext c (w.context c).hookless) := by
    simp only [stepAct, World.answer, hw.context, Context.countInstruction_hookless]
  refine follows_acting hw hstep₀ rfl ⟨?_,.acting role ?_,hcallers,fun _ _ h => by cases h⟩
  · rw [← hcounted]
    exact hw.setContext _
  · change (k (w.context c).countInstruction.1).Alike _
    cases hcount : (w.context c).countInstruction.1 with
    | stop =>
      rw [if_pos (hif.mp hcount)]
      exact hstop
    | pass =>
      rw [if_neg fun hs => by rw [hif.mpr hs] at hcount; cases hcount]
      exact hpass
    | tick =>
      rw [if_neg fun hs => by rw [hif.mpr hs] at hcount; cases hcount]
      exact htick

include hw hcallers in
theorem follows_retarget {target target₀ : Option NotifierId}
    {k k₀ : Option NotifierId → Act role.Report} (hk : ∀ old old₀, (k old).Alike (k₀ old₀)) :
    Follows lib c w ⟨.acting role (.query (.retarget target) k),callers⟩
      (stepAct lib c w callers role (.query (.retarget target) k)).2
      (stepAct lib c w callers role (.query (.retarget target) k)).1 w₀
      ⟨.acting role (.query (.retarget target₀) k₀),callers₀⟩ := by
  have hstep₀ : stepAct lib c w₀ callers₀ role (.query (.retarget target₀) k₀) =
      (⟨.acting role (k₀ none),callers₀⟩,w₀) := by
    simp only [stepAct, World.answer, World.retarget, hook_hookless hw]
  refine follows_acting hw hstep₀ rfl ⟨?_,.acting role (hk _ _),hcallers,fun _ _ h => by cases h⟩
  change World.Hookless c (w.retarget (w.context c).hook target).2 w₀
  cases (w.context c).hook with
  | none => exact hw
  | some hook =>
    cases hook with
    | gauge g => exact hw.setGauge g _
    | worker h => exact hw.setHandle h _

include hlib hw hcallers in
theorem follows_stepAct (hact : act.Alike act₀)
    (hshared : (Phase.acting role act).destroys = true → w.Shared c) :
    Follows lib c w ⟨.acting role act,callers⟩ (stepAct lib c w callers role act).2
      (stepAct lib c w callers role act).1
      w₀ ⟨.acting role act₀,callers₀⟩ := by
  cases hact with
  | done report =>
    have hafter := alike_afterAct hlib (w.context c).stopping role report
    have hstep₀ : stepAct lib c w₀ callers₀ role (.done report) =
        (⟨afterAct lib (w.context c).stopping role report,callers₀⟩,w₀) := by
      rw [← stopping_hookless hw]
      rfl
    refine follows_acting hw hstep₀ rfl ⟨hw,hafter,hcallers,fun probe stack hcounting => ?_⟩
    change afterAct lib (w.context c).stopping role report = .counting probe stack at hcounting
    rw [hcounting] at hafter
    cases hafter
  | @query q k k₀ hq hk =>
    obtain ⟨hsame,hw'⟩ := hw.answer hq fun hdestroy => hshared (by subst hdestroy; rfl)
    have hstep₀ : stepAct lib c w₀ callers₀ role (.query q k₀) =
        (⟨.acting role (k₀ (w.answer c q).1),callers₀⟩,(w₀.answer c q).2) := by
      rw [← hsame]
      rfl
    exact follows_acting hw hstep₀ rfl ⟨hw',.acting role (hk _),hcallers,fun _ _ h => by cases h⟩
  | count hstop hpass htick => exact follows_answerCount hw hcallers hstop hpass htick
  | retarget hk => exact follows_retarget hw hcallers hk
  | @check kind kind₀ k k₀ hk =>
    have hnone := hook_hookless hw
    have hstep₀ : stepAct lib c w₀ callers₀ role (.check kind₀ k₀) =
        (⟨.acting role (k₀ false),callers₀⟩,w₀) := by
      simp only [stepAct, hnone]
    exact follows_acting hw hstep₀ rfl (matches_check hw hcallers hk)
  | late hk => exact .inl ⟨calls_acting role _ callers,checks_check _ _,matches_check hw hcallers hk⟩
  | @wait n d k k₀ hk =>
    have hstep₀ : stepAct lib c w₀ callers₀ role (.wait n d k₀) =
        (⟨.waiting n (w.after d.millis) role k₀,callers₀⟩,w₀) := by
      simp only [stepAct, World.after, hw.clock]
    exact follows_acting hw hstep₀ rfl ⟨hw,.waiting _ _ role hk,hcallers,fun _ _ h => by cases h⟩
  | call hk => exact follows_call hw hcallers hk
  | panic text => exact .inr ⟨w₀,_,rfl,rfl,hw,.exit _,.nil,fun _ _ h => by cases h⟩

end Forward

section Checks

variable (hw : w.Hookless c w₀) {callers callers₀ : List (Caller (Frame U N))}
  (hcallers : List.Forall₂ Caller.Alike callers callers₀) {probe : Probe}

include hw hcallers in
/-- While the strand counts, the other one still has to count. -/
theorem follows_counting {stack : List (Frame U N)} (hgoes : (w.context c).stopping = false)
    (hpass : ¬ Stops w (⟨.counting probe stack,callers⟩ : Strand (Frame U N)))
    (hstep : step lib c w ⟨.counting probe stack,callers⟩ = .ran s' w') :
    Follows lib c w ⟨.counting probe stack,callers⟩ w' s' w₀ ⟨.turn (.count stack),callers₀⟩ := by
  simp only [step] at hstep
  cases hprobe : probe.step w with
  | blocked =>
    rw [hprobe] at hstep
    cases hstep
  | goto next u =>
    rw [hprobe] at hstep
    cases hstep
    refine .inl ⟨calls_counting probe stack callers,.counting hprobe stack,
      hw.writes (Probe.writes_goto hprobe),
      .counting next stack,hcallers,fun _ _ _ => ?_⟩
    rwa [World.context, contexts_writes (Probe.writes_goto hprobe)]
  | finish stopped u =>
    have hfalse : stopped = false :=
      Bool.eq_false_iff.mpr fun hs => hpass (.counting stack callers (hs ▸ hprobe))
    subst hfalse
    rw [hprobe] at hstep
    cases hstep
    have hcontext : u.context c = w.context c := by
      rw [World.context, contexts_writes (Probe.writes_finish hprobe)]
      rfl
    refine .inr ⟨_,_,step_count_hookless hw.context stack callers₀,?_,?_,?_,hcallers,(by simp)⟩
    · rw [calls_count, calls_counting, hgoes]
    · rw [← hcontext]
      exact (hw.writes (Probe.writes_finish hprobe)).setContext _
    · rw [hgoes]
      exact .turn _

include hw hcallers in
/-- While the strand is in a check of its code, the other one already stands behind it. -/
theorem follows_checking {role : Role (Frame U N)} {k : Bool → Act role.Report}
    {act : Act role.Report} (hk : (k false).Alike act)
    (hpass : ¬ Stops w (⟨.checking probe role k,callers⟩ : Strand (Frame U N)))
    (hstep : step lib c w ⟨.checking probe role k,callers⟩ = .ran s' w') :
    Follows lib c w ⟨.checking probe role k,callers⟩ w' s' w₀ ⟨.acting role act,callers₀⟩ := by
  simp only [step] at hstep
  cases hprobe : probe.step w with
  | blocked =>
    rw [hprobe] at hstep
    cases hstep
  | goto next u =>
    rw [hprobe] at hstep
    cases hstep
    exact .inl ⟨rfl,.checking hprobe role k,hw.writes (Probe.writes_goto hprobe),
      .checking next role hk,hcallers,(by simp)⟩
  | finish stopped u =>
    have hfalse : stopped = false :=
      Bool.eq_false_iff.mpr fun hs => hpass (.checking role k callers (hs ▸ hprobe))
    subst hfalse
    rw [hprobe] at hstep
    cases hstep
    exact .inl ⟨rfl,.finish probe role k,(hw.writes (Probe.writes_finish hprobe)).count rfl,
      .acting role hk,hcallers,
      (by simp)⟩

include hw hcallers in
theorem follows_waiting {n : NotifierId} {deadline : ℕ} {role : Role (Frame U N)}
    {k k₀ : Bool → Act role.Report} (hk : ∀ notified, (k notified).Alike (k₀ notified))
    (hstep : step lib c w ⟨.waiting n deadline role k,callers⟩ = .ran s' w') :
    Follows lib c w ⟨.waiting n deadline role k,callers⟩ w' s' w₀
      ⟨.waiting n deadline role k₀,callers₀⟩ := by
  have hnotified : w₀.isNotified n = w.isNotified n := by
    rw [World.isNotified, World.isNotified, hw.notifiers]
  simp only [step] at hstep
  split at hstep
  · rename_i hn
    cases hstep
    refine .inr ⟨w₀,⟨.acting role (k₀ true),callers₀⟩,?_,rfl,hw,.acting role (hk true),
      hcallers,(by simp)⟩
    simp only [step, if_pos (hnotified.trans hn)]
  · rename_i hn
    split at hstep <;> cases hstep
    rename_i hlate
    refine .inr ⟨w₀,⟨.acting role (k₀ false),callers₀⟩,?_,rfl,hw,.acting role (hk false),
      hcallers,(by simp)⟩
    simp only [step, if_neg fun h => hn (hnotified.symm.trans h), hw.clock, if_pos hlate]

end Checks

/-- One step of the strand with a hook, as long as no check stops it. -/
theorem Matches.follows (hlib : lib.IgnoresHook) (hm : Matches c w s w₀ s₀) (hharmless : Harmless c w s)
    (hstep : s.step lib c w = .ran s' w') : Follows lib c w s w' s' w₀ s₀ := by
  obtain ⟨hw,hphase,hcallers,hgoing⟩ := hm
  obtain ⟨hpass,hshared⟩ := hharmless
  obtain ⟨phase,callers⟩ := s
  obtain ⟨phase₀,callers₀⟩ := s₀
  cases hphase with
  | turn t =>
    have h := follows_stepTurn hlib hw hcallers t
    cases hstep
    exact h
  | acting role hact =>
    have h := follows_stepAct hlib hw hcallers hact hshared
    cases hstep
    exact h
  | counting probe stack => exact follows_counting hw hcallers (hgoing probe stack rfl) hpass hstep
  | checking probe role hk => exact follows_checking hw hcallers hk hpass hstep
  | waiting n deadline role hk => exact follows_waiting hw hcallers hk hstep
  | exit e => cases hstep

/-- Others meet the tables, the notifiers and the clock as they are, and leave the context alone. -/
theorem Matches.others (hm : Matches c w s w₀ s₀) (hcontext : w'.context c = w.context c)
    (hsize : w.contexts.size ≤ w'.contexts.size) :
    Matches c w' s { w₀ with memory := w'.memory, notifiers := w'.notifiers, clock := w'.clock } s₀ where
  world := ⟨rfl,rfl,rfl,hm.world.lt.trans_le hsize,hm.world.lt',by rw [hcontext]; exact hm.world.context⟩
  phase := hm.phase
  callers := hm.callers
  going probe stack hcounting := by rw [hcontext]; exact hm.going probe stack hcounting

/-- A run that no check stops is a run without a hook. -/
theorem Goes.follows (hlib : lib.IgnoresHook) (hm : Matches c w s w₀ s₀) {tr : List (Observation U N)}
    (hgoes : Goes lib c (Harmless c) w s tr w' s') :
    ∃ w₁ s₁, Goes lib c (fun _ _ => True) w₀ s₀ tr w₁ s₁ ∧ Matches c w' s' w₁ s₁ := by
  induction hgoes with
  | refl => exact ⟨w₀,s₀,.refl,hm⟩
  | own _ hharmless hstep ih =>
    obtain ⟨w₁,s₁,hrun,hm₁⟩ := ih
    rcases hm₁.follows hlib hharmless hstep with ⟨hcalls,_,hm'⟩ | ⟨w₂,s₂,hstep₁,hcalls,hm'⟩
    · rw [hcalls, List.append_nil]
      exact ⟨w₁,s₁,hrun,hm'⟩
    · rw [← hcalls]
      exact ⟨w₂,s₂,hrun.own trivial hstep₁,hm'⟩
  | others _ v hcontext hsize ih =>
    obtain ⟨w₁,s₁,hrun,hm₁⟩ := ih
    exact ⟨_,s₁,
      hrun.others { w₁ with memory := v.memory, notifiers := v.notifiers, clock := v.clock } rfl
      le_rfl,
      hm₁.others hcontext hsize⟩

end Strand

end Workers
