import Workers.Proofs.Control.Cancel
import Workers.Proofs.Pool.Counting
/-! # What a step leaves to the starts beside it

A context that was made for one start keeps its hook when others take their steps: whoever destroys or
configures a context got it with a handle of its own.  What is tracked stays tracked while somebody
shares in the handle.
-/
namespace Workers

namespace World

variable {c d : ContextId} {h i : WorkerId} {p q : PoolId} {w w' w'' : World}

theorem keepsHook_setContext_of_ne (w : World) (hcd : c ≠ d) (context : Context) :
    KeepsHook c w (w.setContext d context) := by
  refine ⟨?_,le_rfl,fun _ hn => hn⟩
  rw [context_setContext, if_neg fun hdc => hcd hdc.1.symm]

theorem keepsHook_destroyUnhooked (w : World) (hcd : c ≠ d) : KeepsHook c w (w.destroyUnhooked d) :=
  (keepsHook_setStore w _).trans (keepsHook_setContext_of_ne _ hcd _)

theorem keepsHook_disown (hc : (w.handle h).context ≠ some c) : KeepsHook c w (w.disown h) := by
  unfold disown
  simp only
  split
  · cases hcontext : (w.handle h).context with
    | none => exact .of_eq rfl rfl
    | some d =>
      have hcd : c ≠ d := fun hcd => hc (hcontext.trans (congrArg some hcd.symm))
      have hunhooked := (keepsHook_setStore (c := c) w _).trans (keepsHook_destroyUnhooked
        (w.setStore (w.store.releaseAll (w.handle h).registry (w.handle h).holder
          (w.handle h).references)) hcd)
      exact (hunhooked.trans (keepsHook_setStore _ _)).trans (keepsHook_setHandle _ h _)
  · exact keepsHook_setHandle w h _

theorem keepsHook_dropHook {hook : Option Hook} (hhook : ∀ k, hook = some k → k = .worker h)
    (hc : (w.handle h).context ≠ some c) : KeepsHook c w (w.dropHook hook) := by
  rcases hook with _ | ⟨i⟩ | ⟨g⟩
  · exact .refl c w
  · obtain rfl := Hook.worker.inj (hhook _ rfl)
    exact keepsHook_disown hc
  · exact .refl c w

theorem keepsHook_destroy (hcd : c ≠ d) (hserves : w.Serves d h) (hc : (w.handle h).context ≠ some c) :
    KeepsHook c w (w.destroy d) := by
  unfold destroy
  simp only
  split
  · exact .refl c w
  · have hset := keepsHook_setContext_of_ne w hcd { w.context d with hook := none }
    have hdrop := keepsHook_dropHook (w := w.setContext d { w.context d with hook := none }) hserves hc
    exact (hset.trans hdrop).trans (keepsHook_destroyUnhooked _ hcd)

theorem keepsHook_dropContext (hcd : c ≠ d) (hserves : w.Serves d h)
    (hc : (w.handle h).context ≠ some c) :
    KeepsHook c w (w.dropContext d) := by
  have hdestroy := within_destroy hserves
  have hset := (keepsHook_destroy hcd hserves hc).trans
    (keepsHook_setContext_of_ne (w.destroy d) hcd { (w.destroy d).context d with hook := none })
  exact hset.trans (keepsHook_dropHook (hdestroy.serves hserves) fun hc' => hc (hdestroy.context c hc'))

theorem keepsHook_unhook (hserves : ∀ d, (w.handle h).context = some d → w.Serves d h)
    (hc : (w.handle h).context ≠ some c) : KeepsHook c w (w.unhook h) := by
  unfold unhook
  split
  · rename_i d hd
    have htake := within_setHandle (h := h) w { w.handle h with context := none } rfl nofun
    have hcd : c ≠ d := fun hcd => hc (hd.trans (congrArg some hcd.symm))
    exact (keepsHook_setHandle w h _).trans
      (keepsHook_dropContext hcd (htake.serves (hserves d hd)) fun hc' => hc (htake.context c hc'))
  · exact .refl c w

theorem keepsHook_setHook (hcd : c ≠ d) (hserves : w.Serves d h)
    (hc : (w.handle h).context ≠ some c) (step : UInt32) :
    KeepsHook c w (w.setHook d (.worker h) step) := by
  have hown := within_own w h
  have hset :=
    (keepsHook_setHandle (c := c) w h { w.handle h with owners := (w.handle h).owners + 1 }).trans
    (keepsHook_setContext_of_ne _ hcd (((w.own h).context d).setHook (.worker h) step))
  exact hset.trans (keepsHook_dropHook hserves fun hc' => hc (hown.context c hc'))

theorem keepsHook_configure (hserves : ∀ d, (w.handle h).context = some d → w.Serves d h)
    (hc : (w.handle h).context ≠ some c) (config : Config) : KeepsHook c w (w.configure h config) := by
  unfold configure
  cases hcontext : (w.handle h).context with
  | none => exact .refl c w
  | some d =>
    have hcd : c ≠ d := fun hcd => hc (hcontext.trans (congrArg some hcd.symm))
    have hpaths := within_setContext
      (h := h) w d { w.context d with path := config.path, cpath := config.cpath }
      fun _ hk => hk
    have hset := (keepsHook_setContext_of_ne w hcd _).trans
      (keepsHook_setHook hcd (hpaths.serves (hserves d hcontext)) hc config.step)
    dsimp only
    split
    · exact hset.trans (keepsHook_setContext_of_ne _ hcd _)
    · exact hset

theorem keepsHook_addHandle (w : World) (p : PoolId) (hc : c ≠ w.contexts.size) :
    KeepsHook c w (w.addHandle p).2 :=
  ⟨congrArg Context.hook (context_addHandle w p hc),le_rfl,fun _ hn => hn⟩

theorem keepsHook_adopt (w : World) (h : WorkerId) (object : Stored) :
    KeepsHook c w (w.adopt h object).2 := by
  rcases adopt_writes w h object with ⟨s,heq⟩ | ⟨s,references,heq⟩
  · rw [heq]
    exact keepsHook_setStore w s
  · rw [heq]
    exact .of_eq rfl rfl

theorem keepsHook_collect (w : World) (h : WorkerId) (capture : Capture) (done : List Stored)
    (values : List Value) :
    KeepsHook c w (w.collect h capture done values).2 := by
  induction values generalizing w capture done with
  | nil => exact keepsHook_setStore w _
  | cons v rest ih =>
    unfold collect
    split
    · exact keepsHook_setStore w _
    · rename_i object capture' s hstore
      have hadopt := (keepsHook_setStore (c := c) w s).trans (keepsHook_adopt (w.setStore s) h object)
      split
      · rename_i heq
        rw [heq] at hadopt
        exact hadopt.trans (ih _ _ _)
      · rename_i heq
        rw [heq] at hadopt
        exact hadopt.trans (keepsHook_setStore _ _)

end World

open World (KeepsHook)

variable {U N : Type} {lib : Library U N} {c d : ContextId} {h : WorkerId} {p : PoolId} {w w' : World}

/-- Running code leaves the hooks of all contexts but its own. -/
theorem Strand.keepsHook_of_ne {s s' : Strand (Frame U N)} (hcd : c ≠ d) (hserves : w.Serves d h)
    (hc : (w.handle h).context ≠ some c) (hstep : s.step lib d w = .ran s' w') : KeepsHook c w w' := by
  cases effect_step hstep with
  | none => exact .refl c w
  | query q hq =>
    by_cases hdestroy : q = .destroy
    · rw [hdestroy]
      exact World.keepsHook_destroy hcd hserves hc
    · exact World.keepsHook_answer w d hdestroy
  | check hwrites => exact keepsHook_writes hwrites
  | outcome stopped hwrites => exact (keepsHook_writes hwrites).trans (keepsHook_observe _ d stopped)

/-- So does a worker. -/
theorem Worker.keepsHook_step {worker worker' : Worker (Frame U N)} (hused : worker.context? ≠ some c)
    (hserves : ∀ d, worker.context? = some d → w.Serves d worker.handle)
    (hc : (w.handle worker.handle).context ≠ some c) (hstep : worker.step lib w = .ran worker' w') :
    KeepsHook c w w' := by
  obtain ⟨h,stage⟩ := worker
  have hne : ∀ {d}, context? (U := U) (N := N) ⟨h,stage⟩ = some d → c ≠ d := fun hd hcd =>
    hused (hd.trans (congrArg some hcd.symm))
  obtain ⟨stage',rfl,ht⟩ := transition_of_step hstep
  cases ht with
  | deserted | exits | completes | canceled | stops | fails => exact .refl c w
  | @begins d values routine arguments | @unloaded d fault routine arguments =>
    exact World.keepsHook_begin w h d arguments
  | runs hs => exact Strand.keepsHook_of_ne (hne rfl) (hserves _ rfl) hc hs
  | @collects d values results _ hcollect | @uncollected d values fault _ hcollect =>
    have hleaves := World.keepsHook_collect (c := c) w h { registry := (w.context d).registry } [] values
    rw [hcollect] at hleaves
    exact hleaves
  | destroys d e => exact World.keepsHook_dropContext (hne rfl) (hserves d rfl) hc
  | publishes results status =>
    exact (World.keepsHook_setHandle w h _).trans (World.keepsHook_setStore _ _)
  | announces status => exact World.keepsHook_setHandle w h _
  | leaves =>
    have hleave : KeepsHook c w (w.leave (w.handle h).pool) := .of_eq rfl rfl
    exact hleave.trans (World.keepsHook_disown hc)

/-- And a start. -/
theorem Spawning.keepsHook_step {l : Launcher} {stage stage' : Spawning (Frame U N)}
    (hnew : c ≠ w.contexts.size)
    (hserves : ∀ h d, stage.handle? = some h → (w.handle h).context = some d → w.Serves d h)
    (hc : ∀ h, stage.handle? = some h → (w.handle h).context ≠ some c)
    (hstep : stage.step l w = .ran stage' w') :
    KeepsHook c w w' := by
  cases transition_of_step hstep with
  | enters | releases | turnsAway => exact .of_eq rfl rfl
  | passes | adopted => exact .refl c w
  | prepares arguments => exact World.keepsHook_addHandle w l.pool hnew
  | @adopts h object _ _ moved rest hadopt =>
    have hleaves := World.keepsHook_adopt (c := c) w h object
    rwa [hadopt] at hleaves
  | @rejects h object _ _ moved rest hadopt =>
    have hleaves := World.keepsHook_adopt (c := c) w h object
    rw [hadopt] at hleaves
    exact hleaves.trans (World.keepsHook_setStore _ _)
  | configures h moved =>
    exact World.keepsHook_configure (fun d hd => hserves h d rfl hd) (hc h rfl) l.config
  | launches h moved => exact World.keepsHook_setHandle w h _
  | tracks => exact .of_eq rfl rfl
  | discards h fault => exact World.keepsHook_disown (hc h rfl)
  | unhooks h fault =>
    have hunused := fun d hd => hserves h d rfl hd
    have hwithin := World.within_unhook hunused
    exact (World.keepsHook_unhook hunused (hc h rfl)).trans
      (World.keepsHook_disown fun hc' => hc h rfl (hwithin.context c hc'))

namespace World

theorem handle_of_within (hwithin : ∀ i, Within i w w') (h : WorkerId) : w'.handle h = w.handle h :=
  (hwithin (h + 1)).handle h (Nat.ne_of_lt (Nat.lt_succ_self h))

theorem owners_setHandle (w : World) (i : WorkerId) (handle : WorkerHandle)
    (howners : handle.owners = (w.handle i).owners) (h : WorkerId) :
    ((w.setHandle i handle).handle h).owners = (w.handle h).owners := by
  rw [handle_setHandle]
  split
  · rename_i hi
    rw [howners, hi.1]
  · rfl

theorem target_disown (w : World) (i h : WorkerId) :
    ((w.disown i).handle h).target = (w.handle h).target := by
  by_cases hi : h = i
  · subst hi
    unfold disown
    simp only
    split
    · have htarget : ∀ u : World, u.handle h = w.handle h → ((u.setHandle h
          { w.handle h with owners := 0, references := [], context := none, result := [] }).handle
            h).target =
            (w.handle h).target := by
        intro u hu
        rw [handle_setHandle]
        split
        · rfl
        · rw [hu]
      cases (w.handle h).context <;> exact htarget _ rfl
    · rw [handle_setHandle]
      split <;> rfl
  · rw [(within_disown w i).handle h hi]

/-- Only the destruction of the context gives up a share. -/
theorem owners_answer (w : World) (c : ContextId) {q : Query} (hq : q ≠ .destroy) (h : WorkerId) :
    ((w.answer c q).2.handle h).owners = (w.handle h).owners := by
  cases q with
  | share value =>
    exact congrArg WorkerHandle.owners (handle_of_within (fun i => within_share w c value) h)
  | retarget target =>
    simp only [answer, retarget]
    split
    · rfl
    · rfl
    · refine owners_setHandle w _ _ ?_ h
      rfl
  | destroy => exact absurd rfl hq
  | newTable | newShared | get | set | length | paths | hookStep | count | notify | isNotified
  | newNotifier => rfl

theorem owners_writes (hwrites : Probe.Writes w w') (h : WorkerId) :
    (w'.handle h).owners = (w.handle h).owners := by
  cases hwrites with
  | control i control =>
    refine owners_setHandle w i _ ?_ h
    rfl
  | gauge g gauge => rfl

end World

theorem Strand.owners_step {s s' : Strand (Frame U N)} (hkeeps : s.phase.destroys = false)
    (hstep : s.step lib c w = .ran s' w') (h : WorkerId) :
    (w'.handle h).owners = (w.handle h).owners := by
  cases effect_step hstep with
  | none => rfl
  | query q hq => exact World.owners_answer w c (fun hdestroy => by simp [hq hdestroy] at hkeeps) h
  | check hwrites => exact World.owners_writes hwrites h
  | outcome stopped hwrites => exact World.owners_writes hwrites h

/-- A worker shares in its handle until it is done with its code. -/
theorem Worker.owners_step {worker worker' : Worker (Frame U N)}
    (hkeeps : WorkerState.destroys ⟨w,worker⟩ = false)
    (hstep : worker.step lib w = .ran worker' w') (hon : ¬ worker'.stage.Past) :
    (w'.handle worker.handle).owners = (w.handle worker.handle).owners := by
  obtain ⟨h,stage⟩ := worker
  obtain ⟨stage',rfl,ht⟩ := transition_of_step hstep
  cases ht with
  | runs hs => exact Strand.owners_step hkeeps hs h
  | @begins c values routine arguments =>
    have hloaded := World.handle_of_within
      (fun i => World.within_loadAll (h := i) (w.setHandle h { w.handle h with context := none }) c
        arguments) h
    have htaken := World.owners_setHandle w h { w.handle h with context := none } rfl h
    exact (congrArg WorkerHandle.owners hloaded).trans htaken
  | exits => exact absurd (past_afterExit _ _) hon
  | deserted | unloaded | collects | uncollected | destroys | completes => exact absurd trivial hon
  | canceled | stops | fails | publishes | announces | leaves => exact absurd trivial hon

namespace World

def Tracks (h : WorkerId) (p : PoolId) (w w' : World) : Prop :=
  h ∈ (w.pool p).tracked → h ∈ (w'.pool p).tracked

theorem Tracks.of_pools (hpools : w'.pools = w.pools) : Tracks h p w w' := by
  intro hh
  rwa [World.pool, hpools]

theorem tracks_setPool {q : PoolId} {pool : Pool} (hpool : pool.tracked = (w.pool q).tracked) :
    Tracks h p w (w.setPool q pool) := by
  intro hh
  rw [pool_setPool]
  split
  · rename_i hq
    obtain ⟨rfl,_⟩ := hq
    rwa [hpool]
  · exact hh

/-- Nobody is forgotten whose handle somebody shares in. -/
theorem tracks_track (w : World) (howners : 0 < (w.handle h).owners) (q : PoolId) (i : WorkerId) :
    Tracks h p w (w.track q i) := by
  intro hh
  unfold track
  rw [pool_setPool]
  split
  · rename_i hq
    obtain ⟨rfl,_⟩ := hq
    exact List.mem_append_left _ (List.mem_filter.mpr ⟨hh,decide_eq_true howners⟩)
  · exact hh

theorem tracks_errand {e e' : Errand} (hstep : e.step w = .ran e' w') : Tracks h p w w' := by
  rcases Errand.step_cases hstep with ⟨i,command,rfl⟩ | ⟨n,rfl⟩ | ⟨q,rfl⟩ | rfl
  · exact .of_pools rfl
  · exact .of_pools rfl
  · exact tracks_setPool rfl
  · exact .of_pools rfl

end World

open World (Tracks)

theorem Worker.StepEffect.tracks {worker worker' : Worker (Frame U N)}
    (hstays : worker.StepEffect w w' worker') :
    Tracks h p w w' := by
  have hout : Tracks h p w (worker.countOut w) := by
    unfold Worker.countOut
    split
    · exact World.tracks_setPool rfl
    · exact id
  exact fun hh => (Tracks.of_pools hstays.within.pools) (hout hh)

theorem Spawning.tracks_step {l : Launcher} {stage stage' : Spawning (Frame U N)}
    (howners : 0 < (w.handle h).owners)
    (hserves : ∀ h d, stage.handle? = some h → (w.handle h).context = some d → w.Serves d h)
    (hstep : stage.step l w = .ran stage' w') : Tracks h p w w' := by
  cases transition_of_step hstep with
  | enters | releases => exact World.tracks_setPool rfl
  | turnsAway | passes | prepares | adopted | launches => exact .of_pools rfl
  | @adopts h' object _ _ moved rest hadopt | @rejects h' object _ _ moved rest hadopt =>
    have hpools := (World.within_adopt w h' object).pools
    rw [hadopt] at hpools
    exact .of_pools hpools
  | configures h' moved => exact .of_pools (World.pools_configure w h' l.config)
  | tracks worker => exact World.tracks_track w howners l.pool worker.handle
  | discards h' fault => exact .of_pools (World.within_disown w h').pools
  | unhooks h' fault =>
    have hunhook := World.within_unhook fun d hd => hserves h' d rfl hd
    exact .of_pools (hunhook.trans (World.within_disown _ h')).pools

end Workers
