import Workers.Proofs.Roundtrip.Service
/-! # Routines that hand back what they are given

A routine returns its arguments unchanged if a call of it comes to an end with the very values that it
was given, and leaves the tables that they lead to as they were, whatever others do beside it in the
meantime.  A native routine that finishes with its arguments is one.
-/
namespace Workers

variable {U N : Type}

structure World.Ready (w : World) (h : WorkerId) (c : ContextId) (r : RegistryId)
    (us : List Value) : Prop where
  range : h < w.handles.size
  dedicated : w.Dedicated h c r
  hook : (w.context c).hook = some (.worker h)
  going : (w.context c).stopping = false
  unstopped : w.Unstopped h
  foreign : ∀ cell, Value.table cell ∉ us
  alive : ∀ id, Value.shared id ∈ us → w.store.isAlive r id = true

inductive Strand.StepAmongOthers (lib : Library U N) (h : WorkerId) (c : ContextId) (Y : Set Address) :
    World × Strand (Frame U N) → World × Strand (Frame U N) → Prop
  | own {w w' : World} {s s' : Strand (Frame U N)} (hstep : s.step lib c w = .ran s' w') :
      StepAmongOthers lib h c Y (w,s) (w',s')
  | other {w w' : World} {s : Strand (Frame U N)} (hothers : w.OthersStep h c Y w') :
      StepAmongOthers lib h c Y (w,s) (w',s)

/-- The routine returns its arguments unchanged.  Wherever a call of it has come to, it can go on to
its end; and there its values are the arguments, and of the tables that they lead to it has left
those as they were that others have left, too. -/
def Library.Echoes (lib : Library U N) (f : Routine) : Prop :=
  ∀ w h c r us, w.Ready h c r us → ∀ Y, w.store.Rooted (Address.named r us) Y → ∀ w' s,
    Relation.ReflTransGen (Strand.StepAmongOthers lib h c Y) (w,.ofCall f us) (w',s) →
      (∃ x e, Relation.ReflTransGen (Strand.StepAmongOthers lib h c Y) (w',s) x ∧ x.2.exit? = some e) ∧
        ∀ e, s.exit? = some e → (∃ left, e = .ended (.ok us) left) ∧ w.store.Preserves Y w'.store

namespace Check

def NoWait (control : Control) : Check → Prop
  | .acknowledge | .awaitCommand => control.commandChanged.latched = true
  | .stop => False
  | _ => True

def ahead : Check → ℕ
  | .tickShutdown | .pointShutdown | .reconsider => 2
  | .tickCommand | .pointCommand | .resume => 1
  | .acknowledge => 4
  | .awaitCommand => 3
  | .stop => 0

variable {at_ : Check} {control : Control}

/-- A check goes on to its end when the worker is to run and the command is news. -/
theorem NoWait.step (hat : at_.NoWait control) (hcommand : control.command = .run) :
    (∃ next, at_.step false control = .goto next control ∧ next.NoWait control ∧
      next.ahead < at_.ahead) ∨
      ∃ control', at_.step false control = .finish false control' := by
  cases at_ with
  | tickShutdown => exact .inl ⟨.tickCommand,rfl,trivial,Nat.one_lt_two⟩
  | pointShutdown => exact .inl ⟨.pointCommand,rfl,trivial,Nat.one_lt_two⟩
  | tickCommand | pointCommand =>
    refine .inr ⟨control,?_⟩
    simp only [Check.step, hcommand]
  | acknowledge =>
    have hsame : control.acknowledgePause = control := by
      simp [Control.acknowledgePause, hcommand]
    exact .inl ⟨.awaitCommand,by rw [Check.step, hsame],hat,Nat.lt_succ_self 3⟩
  | awaitCommand => exact .inl ⟨.reconsider,if_pos hat,trivial,Nat.lt_succ_self 2⟩
  | reconsider =>
    refine .inl ⟨.resume,?_,trivial,Nat.one_lt_two⟩
    simp only [Check.step, hcommand]
  | resume => exact .inr ⟨_,rfl⟩
  | stop => exact hat.elim

theorem noWait_putCommand (hat : at_ ≠ .stop) (hrunning : ¬ control.status.isTerminal = true) :
    at_.NoWait (control.putCommand .run) ∧ (control.putCommand .run).command = .run := by
  rw [Control.putCommand, if_neg hrunning]
  refine ⟨?_,rfl⟩
  cases at_ with
  | stop => exact absurd rfl hat
  | acknowledge | awaitCommand => rfl
  | tickShutdown | tickCommand | reconsider | resume | pointShutdown | pointCommand => trivial

end Check

namespace Strand

variable {lib : Library U N} {h : WorkerId} {c : ContextId} {r : RegistryId} {Y : Set Address}
    {f : Routine}
variable {frame last : Frame U N} {us : List Value} {s s' : Strand (Frame U N)} {w w' : World} {n : ℕ}

inductive Finishing (lib : Library U N) (f : Routine) (frame : Frame U N) (us : List Value) :
    ℕ → Strand (Frame U N) → Prop
  | returned : Finishing lib f frame us 0 ⟨.exit (.ended (.ok us) []),[]⟩
  | resumed : Finishing lib f frame us 1 ⟨.acting .outside (.done (.ok us)),[]⟩
  | ended : Finishing lib f frame us 2 ⟨.turn (.ended (.ok us) []),[⟨.outside,.done⟩]⟩
  | acting : Finishing lib f frame us 3 ⟨.acting (.step []) (lib.advance frame),[⟨.outside,.done⟩]⟩
  | counted : Finishing lib f frame us 4 ⟨.turn (.step frame []),[⟨.outside,.done⟩]⟩
  | counting (probe : Probe) : Finishing lib f frame us 5 ⟨.counting probe [frame],[⟨.outside,.done⟩]⟩
  | loaded : Finishing lib f frame us 6 ⟨.turn (.count [frame]),[⟨.outside,.done⟩]⟩
  | called : Finishing lib f frame us 7 (.ofCall f us)

theorem Finishing.exit_eq (hs : Finishing lib f frame us n s) {e : Exit (Frame U N)}
    (he : s.exit? = some e) :
    e = .ended (.ok us) [] := by
  cases hs <;> cases he
  rfl

structure OnlyCounts (c : ContextId) (w w' : World) : Prop where
  store : w'.store = w.store
  stopping : (w'.context c).stopping = (w.context c).stopping

theorem OnlyCounts.refl (c : ContextId) (w : World) : OnlyCounts c w w := ⟨rfl,rfl⟩

theorem onlyCounts_writes (hwrites : Probe.Writes w w') : OnlyCounts c w w' := by
  cases hwrites <;> exact ⟨rfl,rfl⟩

theorem onlyCounts_count (w : World) (c : ContextId) :
    OnlyCounts c w (w.setContext c (w.context c).countInstruction.2) := by
  refine ⟨rfl,?_⟩
  rw [World.context_setContext]
  split
  · exact World.stopping_countInstruction _
  · rfl

/-- Unless it is in a check or over, the call takes its next step, whatever the world is like. -/
theorem Finishing.next (hs : Finishing lib f frame us n s) (hload : lib.load f us = .ok frame)
    (hadvance : lib.advance frame = .done (last,.finish us))
    (hgoing : (w.context c).stopping = false) (hcounting : n ≠ 5) (hover : n ≠ 0) :
    ∃ s' w' m, s.step lib c w = .ran s' w' ∧ Finishing lib f frame us m s' ∧ m < n ∧
    OnlyCounts c w w' := by
  cases hs with
  | returned => exact absurd rfl hover
  | counting probe => exact absurd rfl hcounting
  | resumed => exact ⟨_,w,0,rfl,.returned,by decide,.refl c w⟩
  | ended => exact ⟨_,w,1,rfl,.resumed,by decide,.refl c w⟩
  | acting =>
    refine ⟨⟨.turn (.ended (.ok us) []),[⟨.outside,.done⟩]⟩,w,2,?_,.ended,by decide,.refl c w⟩
    simp only [Strand.step, hadvance, stepAct, afterAct, Turn.afterStep, hgoing]
    rfl
  | counted => exact ⟨_,w,3,rfl,.acting,by decide,.refl c w⟩
  | loaded =>
    have hidle := onlyCounts_count w c
    rcases hcount : (w.context c).countInstruction with ⟨count,context⟩
    rw [hcount] at hidle
    have hpass : count ≠ .stop := by
      rintro rfl
      have hstop := (Context.countInstruction_eq_stop (w.context c)).mp (by rw [hcount])
      rw [hgoing] at hstop
      cases hstop
    by_cases htick : ∃ hook, count = .tick ∧ context.hook = some hook
    · obtain ⟨hook,rfl,hhook⟩ := htick
      refine ⟨⟨.counting (Probe.start hook .tick) [frame],[⟨.outside,.done⟩]⟩,_,5,?_,.counting _,
        by decide,hidle⟩
      simp only [Strand.step, stepTurn, hcount, hhook]
    · refine ⟨⟨.turn (.step frame []),[⟨.outside,.done⟩]⟩,_,4,?_,.counted,by decide,hidle⟩
      cases count with
      | stop => exact absurd rfl hpass
      | pass => simp only [Strand.step, stepTurn, hcount]; rfl
      | tick =>
        cases hhook : context.hook with
        | none => simp only [Strand.step, stepTurn, hcount, hhook]; rfl
        | some hook => exact absurd ⟨hook,rfl,hhook⟩ htick
  | called =>
    refine ⟨⟨.turn (.count [frame]),[⟨.outside,.done⟩]⟩,w,6,?_,.loaded,by decide,.refl c w⟩
    simp only [Strand.step, ofCall, stepAct, hgoing, hload]
    rfl

/-- A check goes on, or lets the call pass. -/
theorem Finishing.check {probe : Probe} (hl : w.HookAsksNoStop c)
    (hp : Probes c (· ≠ .stop) w ⟨.counting probe [frame],[⟨.outside,.done⟩]⟩)
    (hstep : Strand.step lib c w ⟨.counting probe [frame],[⟨.outside,.done⟩]⟩ = .ran s' w') :
    (∃ m, Finishing lib f frame us m s') ∧ OnlyCounts c w w' := by
  obtain ⟨hhook,hat⟩ := hp probe rfl
  simp only [Strand.step] at hstep
  split at hstep
  · rename_i next u hmove
    cases hstep
    exact ⟨⟨5,.counting next⟩,onlyCounts_writes (Probe.writes_goto hmove)⟩
  · rename_i stopped u hmove
    obtain rfl := Probe.finish_false hhook hl hat hmove
    have hsame : observe u c false = u := World.setContext_self u c
    rw [hsame] at hstep
    cases hstep
    exact ⟨⟨4,.counted⟩,onlyCounts_writes (Probe.writes_finish hmove)⟩
  · cases hstep

structure Finishes (lib : Library U N) (f : Routine) (frame : Frame U N) (us : List Value)
    (h : WorkerId) (c : ContextId) (r : RegistryId) (s₀ : Store) (Y : Set Address)
    (x : World × Strand (Frame U N)) : Prop where
  phase : ∃ n, Finishing lib f frame us n x.2
  range : h < x.1.handles.size
  dedicated : x.1.Dedicated h c r
  going : (x.1.context c).stopping = false
  unstopped : x.1.Unstopped h
  probes : Probes c (· ≠ .stop) x.1 x.2
  tables : s₀.Preserves Y x.1.store

variable {s₀ : Store} {x y : World × Strand (Frame U N)}

/-- What a step leaves as it was. -/
theorem Finishes.after (hx : Finishes lib f frame us h c r s₀ Y x)
    (hstep : x.2.step lib c x.1 = .ran y.2 y.1) (hphase : ∃ n, Finishing lib f frame us n y.2)
    (hcounts : OnlyCounts c x.1 y.1) : Finishes lib f frame us h c r s₀ Y y where
  phase := hphase
  range := by
    rw [handles_step hx.dedicated.serves hstep]
    exact hx.range
  dedicated := dedicated_step hx.dedicated hstep
  going := by rw [hcounts.stopping, hx.going]
  unstopped := unstopped_step hx.dedicated hx.unstopped hx.range hx.probes hstep
  probes := unstopping_step hx.dedicated hx.unstopped hx.probes hstep
  tables := by
    rw [hcounts.store]
    exact hx.tables

theorem Finishes.step (hx : Finishes lib f frame us h c r s₀ Y x) (hload : lib.load f us = .ok frame)
    (hadvance : lib.advance frame = .done (last,.finish us)) (hxy : StepAmongOthers lib h c Y x y) :
    Finishes lib f frame us h c r s₀ Y y := by
  cases hxy with
  | @own w w' s s' hstep =>
    obtain ⟨n,hn⟩ := hx.phase
    have hnext : n ≠ 5 → n ≠ 0 → (∃ m, Finishing lib f frame us m s') ∧ OnlyCounts c w w' := by
      intro hcounting hover
      obtain ⟨t,u,m,hstep',hm,_,hcounts⟩ := hn.next hload hadvance hx.going hcounting hover
      have heq := hstep.symm.trans hstep'
      cases heq
      exact ⟨⟨m,hm⟩,hcounts⟩
    have hafter : (∃ m, Finishing lib f frame us m s') ∧ OnlyCounts c w w' := by
      cases hn with
      | returned => cases hstep
      | counting probe =>
        exact Finishing.check (hx.dedicated.hookAsksNoStop hx.unstopped) hx.probes hstep
      | resumed | ended | acting | counted | loaded | called => exact hnext (by decide) (by decide)
    exact hx.after hstep hafter.1 hafter.2
  | other hothers =>
    exact ⟨hx.phase,hx.range.trans_le hothers.handles,hx.dedicated.othersStep hothers,
      (congrArg Context.stopping hothers.context).trans hx.going,hx.unstopped.othersStep hothers,
      hx.probes.others hothers.context,hx.tables.trans hothers.tables⟩

/-- A check of a worker that is to run comes to its end by itself. -/
theorem Finishes.noWait {at_ : Check} (hx : Finishes lib f frame us h c r s₀ Y x)
    (hcounting : x.2 = ⟨.counting (.worker h at_) [frame],[⟨.outside,.done⟩]⟩)
    (hcommand : (x.1.handle h).control.command = .run) (hat : at_.NoWait (x.1.handle h).control) :
    ∃ y, Relation.ReflTransGen (StepAmongOthers lib h c Y) x y ∧ Finishes lib f frame us h c r s₀ Y y ∧
      Finishing lib f frame us 4 y.2 := by
  induction hn : at_.ahead using Nat.strong_induction_on generalizing x at_ with
  | _ n ih =>
    obtain ⟨w,s⟩ := x
    obtain rfl : s = ⟨.counting (.worker h at_) [frame],[⟨.outside,.done⟩]⟩ := hcounting
    have hrequested : (w.pool (w.handle h).pool).requested = false := hx.unstopped.requested
    rcases hat.step hcommand with ⟨next,hmove,hnext,hlt⟩ | ⟨control,hmove⟩
    · set u := w.setHandle h { w.handle h with control := (w.handle h).control }
      have hstep : Strand.step lib c w ⟨.counting (.worker h at_) [frame],[⟨.outside,.done⟩]⟩ =
          .ran ⟨.counting (.worker h next) [frame],[⟨.outside,.done⟩]⟩ u := by
        simp only [Strand.step, Probe.step, hrequested, hmove, u]
      have hsame : u.handle h = w.handle h := World.handle_setHandle_self hx.range _
      have hy : Finishes lib f frame us h c r s₀ Y
          (u,⟨.counting (.worker h next) [frame],[⟨.outside,.done⟩]⟩) :=
        hx.after hstep ⟨5,.counting _⟩ ⟨rfl,rfl⟩
      obtain ⟨z,hrun,hz,hphase⟩ := ih _ (hn ▸ hlt) hy rfl (by rw [hsame]; exact hcommand)
        (by rw [hsame]; exact hnext) rfl
      exact ⟨z,.head (.own hstep) hrun,hz,hphase⟩
    · set u := w.setHandle h { w.handle h with control }
      have hobserve : observe u c false = u := World.setContext_self u c
      have hstep : Strand.step lib c w ⟨.counting (.worker h at_) [frame],[⟨.outside,.done⟩]⟩ =
          .ran ⟨.turn (.step frame []),[⟨.outside,.done⟩]⟩ u := by
        simp only [Strand.step, Probe.step, hrequested, hmove]
        rw [hobserve]
        rfl
      exact ⟨(u,_),.single (.own hstep),hx.after hstep ⟨4,.counted⟩ ⟨rfl,rfl⟩,.counted⟩

/-- It can go on to a later phase.  A check that waits can, when the worker is told to run. -/
theorem Finishes.goes (hx : Finishes lib f frame us h c r s₀ Y x)
    (hload : lib.load f us = .ok frame) (hadvance : lib.advance frame = .done (last,.finish us))
    (hn : Finishing lib f frame us n x.2) (hover : n ≠ 0) :
    ∃ y m, Relation.ReflTransGen (StepAmongOthers lib h c Y) x y ∧
    Finishes lib f frame us h c r s₀ Y y ∧
      Finishing lib f frame us m y.2 ∧ m < n := by
  by_cases hcounting : n = 5
  · subst hcounting
    obtain ⟨w,s⟩ := x
    generalize hfive : 5 = m at hn
    cases hn with
    | counting probe =>
      obtain ⟨hhook,hat⟩ := hx.probes probe rfl
      obtain ⟨at_,rfl⟩ : ∃ at_, probe = .worker h at_ := by
        cases probe with
        | gauge g kind => cases hx.dedicated.serves _ hhook
        | worker i at_ =>
          obtain rfl : i = h := Hook.worker.inj (hx.dedicated.serves _ hhook)
          exact ⟨at_,rfl⟩
      have hothers : w.OthersStep h c Y (w.putCommand h .run) :=
        World.othersStep_putCommand hx.range c Y nofun
      have htold : ((w.putCommand h .run).handle h).control = (w.handle h).control.putCommand .run :=
        congrArg WorkerHandle.control (World.handle_setHandle_self hx.range _)
      obtain ⟨hwoken,hcommand⟩ := Check.noWait_putCommand hat hx.unstopped.notEnded.status
      rw [← htold] at hwoken hcommand
      obtain ⟨y,hrun,hy,hphase⟩ := (hx.step hload hadvance (.other hothers)).noWait rfl hcommand hwoken
      exact ⟨y,4,.head (.other hothers) hrun,hy,hphase,by decide⟩
    | returned | resumed | ended | acting | counted | loaded | called => cases hfive
  · obtain ⟨s',w',m,hstep,hm,hlt,hcounts⟩ := hn.next hload hadvance hx.going hcounting hover
    exact ⟨(w',s'),m,.single (.own hstep),hx.after hstep ⟨m,hm⟩ hcounts,hm,hlt⟩

theorem Finishes.ends (hx : Finishes lib f frame us h c r s₀ Y x) (hload : lib.load f us = .ok frame)
    (hadvance : lib.advance frame = .done (last,.finish us)) :
    ∃ y, Relation.ReflTransGen (StepAmongOthers lib h c Y) x y ∧ ∃ e, y.2.exit? = some e := by
  obtain ⟨n,hn⟩ := hx.phase
  refine exists_run (fun n y => Finishes lib f frame us h c r s₀ Y y ∧
    Finishing lib f frame us n y.2) ?_ ⟨hx,hn⟩
  rintro n ⟨w,s⟩ ⟨hx,hn⟩
  by_cases hover : n = 0
  · refine .inl ⟨.ended (.ok us) [],?_⟩
    cases hn with
    | returned => rfl
    | resumed | ended | acting | counted | counting | loaded | called => cases hover
  · obtain ⟨y,m,hrun,hy,hm,hlt⟩ := hx.goes hload hadvance hn hover
    exact .inr ⟨m,hlt,y,hrun,hy,hm⟩

end Strand

/-- A routine that finishes with its arguments in its first step returns them unchanged. -/
theorem Library.echoes_of_finish {lib : Library U N} {f : Routine}
    (hload : ∀ us, ∃ frame last, lib.load f us = .ok frame ∧
      lib.advance frame = .done (last,.finish us)) :
    lib.Echoes f := by
  intro w h c r us hready Y _ w' s hrun
  obtain ⟨frame,last,hframe,hadvance⟩ := hload us
  have hbegin : Strand.Finishes lib f frame us h c r w.store Y (w,.ofCall f us) :=
    ⟨⟨7,.called⟩,hready.range,hready.dedicated,hready.going,hready.unstopped,nofun,.refl _ _⟩
  have hruns : ∀ x, Relation.ReflTransGen (Strand.StepAmongOthers lib h c Y) (w,.ofCall f us) x →
      Strand.Finishes lib f frame us h c r w.store Y x := by
    intro x hx
    induction hx with
    | refl => exact hbegin
    | tail _ hstep ih => exact ih.step hframe hadvance hstep
  have hnow := hruns _ hrun
  obtain ⟨n,hn⟩ := hnow.phase
  refine ⟨?_,fun e he => ?_⟩
  · obtain ⟨x,hends,e,hexit⟩ := hnow.ends hframe hadvance
    exact ⟨x,e,hends,hexit⟩
  · exact ⟨⟨[],hn.exit_eq he⟩,hnow.tables⟩

end Workers
