import Workers.Proofs.Control.Cancel
import Workers.Proofs.Handover.Spawned
/-! # Hand-overs that nobody interrupts

What a spawn does to the world in one piece, and what its worker does from one stage to the next, is
a run of the calls that a hand-over makes, with nobody in between.
-/
namespace Workers

variable {w w' : World} {c : ContextId} {h i : WorkerId}

namespace World

theorem store_clearHook (hshared : w.Shared c) : (w.clearHook c).store = w.store := by
  rcases clearHook_writes hshared with hw | ⟨i,hw⟩
  · rw [hw]
    rfl
  · rw [hw]
    rfl

theorem keepsHandle_clearHook (hshared : w.Shared c) : w.KeepsHandle h (w.clearHook c) := by
  have hcleared : w.KeepsHandle h (w.setContext c { w.context c with hook := none }) := .setContext rfl
  rcases clearHook_writes hshared with hw | ⟨i,hw⟩
  · rwa [hw]
  · rw [hw]
    exact hcleared.trans (.setHandle rfl rfl rfl rfl rfl)

theorem setHook_apart (hnone : (w.context c).hook = none) (step : UInt32) :
    (w.setHook c (.worker i) step).store = w.store ∧ w.KeepsHandle h (w.setHook c (.worker i) step) := by
  have hset : w.setHook c (.worker i) step = (w.own i).setContext c
      ((w.context c).setHook (.worker i) step) := by
    unfold setHook
    rw [hnone]
    rfl
  have hown : w.KeepsHandle h (w.own i) := .setHandle rfl rfl rfl rfl rfl
  rw [hset]
  exact ⟨rfl,hown.trans (.setContext rfl)⟩

/-- A worker about to start takes a configuration, which no registry sees. -/
theorem configure_apart (hnone : ∀ c, (w.handle i).context = some c → (w.context c).hook = none)
    (config : Config) :
    (w.configure i config).store = w.store ∧ w.KeepsHandle h (w.configure i config) := by
  unfold configure
  cases hcontext : (w.handle i).context with
  | none => exact ⟨rfl,.of_eq rfl rfl⟩
  | some c =>
    have hpaths : w.KeepsHandle h
        (w.setContext c { w.context c with path := config.path, cpath := config.cpath }) :=
      .setContext rfl
    have hfree :
      ((w.setContext c { w.context c with path := config.path, cpath := config.cpath }).context
      c).hook =
        none := by
      rw [context_setContext]
      split <;> exact hnone c hcontext
    obtain ⟨hstore,hhook⟩ := setHook_apart (h := h) (i := i) hfree config.step
    simp only
    split
    · exact ⟨hstore,(hpaths.trans hhook).trans (.setContext rfl)⟩
    · exact ⟨hstore,hpaths.trans hhook⟩

end World

namespace Handover

variable {U N : Type} (lib : Library U N) (p : PoolId) (r : RegistryId) (routine : Routine)
    (arguments : List Stored)
variable (ours : Set Share) (results : List Stored)

/-- Steps of the code are steps of the hand-over, while the arguments are adopted. -/
theorem adopts {code : Code (Except Code.Refused (List Stored))}
    {z : Code (Except Code.Refused (List Stored)) × World}
    (hgoes : Relation.ReflTransGen Code.Goes (code,w) z) : ∃ ours', Relation.ReflTransGen
      (Step lib p r routine arguments) (⟨w,.adopting h code,ours,results⟩ : Handover U N)
      ⟨z.2,.adopting h z.1,ours',results⟩ := by
  induction hgoes with
  | refl => exact ⟨ours,.refl⟩
  | tail _ hstep ih =>
    obtain ⟨ours',hrun⟩ := ih
    obtain rfl := hstep
    exact ⟨_,hrun.tail (.adopt rfl)⟩

/-- So they are while the worker is at work. -/
theorem works {code : Code (Stage (Frame U N))} {z : Code (Stage (Frame U N)) × World}
    (hgoes : Relation.ReflTransGen Code.Goes (code,w) z) : ∃ ours' results', Relation.ReflTransGen
      (Step lib p r routine arguments) (⟨w,.working h code,ours,results⟩ : Handover U N)
      ⟨z.2,.working h z.1,ours',results'⟩ := by
  induction hgoes with
  | refl => exact ⟨ours,results,.refl⟩
  | tail _ hstep ih =>
    obtain ⟨ours',results',hrun⟩ := ih
    obtain rfl := hstep
    exact ⟨_,_,hrun.tail (.work rfl)⟩

theorem registry_enter (w : World) (p q : PoolId) :
    ((w.enter p).pool q).registry = (w.pool q).registry := by
  rw [World.enter, World.pool_setPool]
  split
  · rename_i hq
    rw [hq.1]
  · rfl

/-- Adoption gives the context of a new handle no hook. -/
theorem hook_adoptAll {outcome : Except Fault (List Stored)}
    (hadopt : w.adoptAll h 1 arguments = (outcome,w'))
    (hnone : ∀ c, (w.handle h).context = some c → (w.context c).hook = none) :
    ∀ c, (w'.handle h).context = some c → (w'.context c).hook = none := by
  have hwithin := World.within_adoptAll w h 1 arguments
  rw [hadopt] at hwithin
  intro c hc
  cases hhook : (w'.context c).hook with
  | none => rfl
  | some k =>
    have hbefore := hwithin.hook c k hhook
    rw [hnone c (hwithin.context c hc)] at hbefore
    cases hbefore

/-- A spawn takes its arguments under a new handle. -/
theorem enters (w : World) : ∃ ours', Relation.ReflTransGen
    (Step lib p (w.pool p).registry routine arguments) (start (U := U) (N := N) w arguments)
    ⟨((w.enter p).addHandle p).2,.adopting ((w.enter p).addHandle p).1
      (Code.adoptAll ((w.enter p).addHandle p).1 1 arguments),ours',[]⟩ := by
  rw [World.addHandle_eq_raise, registry_enter]
  have henter : w.OtherStep { y | y ∈ TableHandle.shares (arguments.flatMap Stored.handles) } none
      (w.enter p) :=
    .elsewhere rfl nofun
  have hother : Step lib p (w.pool p).registry routine arguments (start (U := U) (N := N) w arguments)
      { start w arguments with world := w.enter p } := .other henter
  exact ⟨_,.head hother (.head (.number rfl) (.single (.raise rfl)))⟩

/-- When all of them are adopted the worker is configured and starts. -/
theorem launches {adopted : List Stored} (hadopt : w.adoptAll h 1 arguments = (.ok adopted,w'))
    (hnone : ∀ c, (w.handle h).context = some c → (w.context c).hook = none) (config : Config) :
    ∃ ours', Relation.ReflTransGen (Step lib p r routine arguments)
      (⟨w,.adopting h (Code.adoptAll h 1 arguments),ours,results⟩ : Handover U N)
      ⟨((w'.configure h config).own h).track p h,.working h (.done (.starting routine adopted)),
        ours',results⟩ := by
  have hrun := Code.run_adoptAll w h 1 arguments
  have hgoes := Code.goes (Code.adoptAll h 1 arguments) w
  rw [hadopt] at hrun
  rcases hcode : (Code.adoptAll h 1 arguments).run w with ⟨refused | moved,v⟩
  · rw [hcode] at hrun
    cases hrun
  · rw [hcode] at hrun hgoes
    cases hrun
    obtain ⟨hstore,hkeeps⟩ :=
      World.configure_apart (h := h) (hook_adoptAll arguments hadopt hnone) config
    obtain ⟨ours',hadopts⟩ := adopts lib p r routine arguments ours results hgoes
    have hown : (w'.configure h config).KeepsHandle h ((w'.configure h config).own h) :=
      .setHandle rfl rfl rfl rfl rfl
    have htrack : ((w'.configure h config).own h).KeepsHandle h
      (((w'.configure h config).own h).track p h) := .of_eq rfl rfl
    have hlast : w'.OtherStep ours' (some h) (((w'.configure h config).own h).track p h) :=
      .elsewhere hstore fun i hi => Option.some.inj hi ▸ (hkeeps.trans hown).trans htrack
    exact ⟨ours',(hadopts.tail (.launch rfl)).tail (.other hlast)⟩

/-- A spawn that succeeds is a run that ends with the worker about to start. -/
theorem prepares {config : Config} {adopted : List Stored}
    (hprepare : w.prepare p config arguments = (.ok (h,adopted),w')) : ∃ ours', Relation.ReflTransGen
      (Step lib p (w.pool p).registry routine arguments) (start (U := U) (N := N) w arguments)
      ⟨w',.working h (.done (.starting routine adopted)),ours',[]⟩ := by
  unfold World.prepare at hprepare
  simp only at hprepare
  split at hprepare
  · cases hprepare
  · split at hprepare
    · cases hprepare
    · rename_i adopted v hadopt
      cases hprepare
      obtain ⟨ours,henters⟩ := enters lib p routine arguments w
      have hnone : ∀ c, (((w.enter p).addHandle p).2.handle ((w.enter p).addHandle p).1).context =
        some c →
          (((w.enter p).addHandle p).2.context c).hook = none := by
        intro c hc
        rw [World.handle_addHandle_self] at hc
        rw [← Option.some.inj hc]
        exact World.hook_addHandle (w.enter p) p
      obtain ⟨ours',hlaunches⟩ :=
        launches lib p (w.pool p).registry routine arguments ours [] hadopt hnone config
      exact ⟨ours',henters.trans hlaunches⟩

/-- The first step of a stage that calls on the registries leads to its code. -/
theorem begins {stage : Stage (Frame U N)} (hshared : ∀ c e, stage = .destroying c e → w.Shared c) :
    Relation.ReflTransGen (Step lib p r routine arguments)
      (⟨w,.working h (.done stage),ours,results⟩ : Handover U N)
      ⟨Code.before w stage,.working h (Code.ofStage w h stage),ours,results⟩ := by
  cases stage with
  | destroying c e =>
    have hc := hshared c e rfl
    have hapart : w.OtherStep ours (some h) (w.clearHook c) :=
      .elsewhere (World.store_clearHook hc) fun _ _ => World.keepsHandle_clearHook hc
    have hbegin : Step lib p r routine arguments
        (⟨w.clearHook c,.working h (.done (.destroying c e)),ours,results⟩ : Handover U N)
        ⟨w.clearHook c,.working h (Code.ofStage (w.clearHook c) h (.destroying c e)),ours,
          results⟩ := .begin rfl
    exact .head (.other hapart) (.single hbegin)
  | starting | running | collecting | judging | publishing | announcing | leaving | gone =>
    exact .single (.begin rfl)

/-- A step of the worker's life is a run from one stage to the next.  While its code runs others are at
work, and with the last stage the worker gives up its share in the handle. -/
theorem lives {stage : Stage (Frame U N)} {worker : Worker (Frame U N)}
    (hshared : ∀ c e, stage = .destroying c e → w.Shared c)
    (hexit : ∀ c s, stage = .running c s → s.exit? ≠ none) (hstays : stage ≠ .leaving)
    (hstep : Worker.step lib w ⟨h,stage⟩ = .ran worker w') : ∃ ours' results', Relation.ReflTransGen
      (Step lib p r routine arguments) (⟨w,.working h (.done stage),ours,results⟩ : Handover U N)
      ⟨w',.working h (.done worker.stage),ours',results'⟩ := by
  by_cases hcalls : Code.Calls stage = true
  · rw [Code.step_eq_run lib hcalls hshared] at hstep
    cases hstep
    obtain ⟨ours',results',hworks⟩ := works lib p r routine arguments ours results
      (Code.goes (Code.ofStage w h stage) (Code.before w stage))
    exact ⟨ours',results',(begins lib p r routine arguments ours results hshared).trans hworks⟩
  · cases stage with
    | starting | collecting | destroying | publishing => exact absurd rfl hcalls
    | running c s =>
      simp only [Worker.step] at hstep
      split at hstep
      · rename_i e _
        cases hstep
        exact ⟨ours,results,.single (.exit rfl e)⟩
      · rename_i hnone
        exact absurd hnone (hexit c s rfl)
    | judging e =>
      obtain ⟨h',stage'⟩ := worker
      exact ⟨ours,results,.single (.judge rfl hstep)⟩
    | announcing status =>
      cases hstep
      exact ⟨ours,results,.single (.announce rfl)⟩
    | leaving => exact absurd rfl hstays
    | gone => cases hstep

end Handover

end Workers
