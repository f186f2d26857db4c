import Workers.Proofs.Pool.Adoption
import Workers.Proofs.Pool.Spawning
import Workers.Proofs.Roundtrip.Launched
/-! # A handle that is never handed out

A start makes a handle with a context of its own.  If nobody is given the handle, it goes with all
that it has: the context is destroyed, which takes the hook off it, and the entries of the arguments
are given back.  What was there before the start is as it was.
-/
namespace Workers

def Context.emptied (context : Context) : Context :=
  { context with destroyed := true, hook := none, handler := none, references := [] }

def WorkerHandle.emptied (handle : WorkerHandle) : WorkerHandle :=
  { handle with owners := 0, references := [], context := none, result := [] }

namespace World

def returned (w : World) (h : WorkerId) : Store :=
  w.store.releaseAll (w.handle h).registry (w.handle h).holder (w.handle h).references

variable {w w' u : World} {h : WorkerId} {c : ContextId} {p : PoolId}

structure OnlyAdds (w w' : World) : Prop where
  heap : w'.memory.heap = w.memory.heap
  notifiers : w'.notifiers = w.notifiers
  gauges : w'.gauges = w.gauges
  clock : w'.clock = w.clock
  handle : ∀ i < w.handles.size, w'.handle i = w.handle i
  context : ∀ d < w.contexts.size, w'.context d = w.context d

/-- The pools too are as they were, and whatever has been made on the way is gone with all that it
had. -/
structure LeavesNothing (w w' : World) : Prop extends OnlyAdds w w' where
  pools : w'.pools = w.pools
  handle_gone : ∀ i < w'.handles.size, w.handles.size ≤ i → (w'.handle i).owners = 0 ∧
    (w'.handle i).references = [] ∧ (w'.handle i).context = none ∧ (w'.handle i).result = []
  context_gone : ∀ d < w'.contexts.size, w.contexts.size ≤ d →
    (w'.context d).destroyed = true ∧ (w'.context d).hook = none ∧ (w'.context d).references = []

theorem OnlyAdds.refl (w : World) : w.OnlyAdds w := ⟨rfl,rfl,rfl,rfl,fun _ _ => rfl,fun _ _ => rfl⟩

theorem OnlyAdds.setStore (hu : w.OnlyAdds w') (s : Store) : w.OnlyAdds (w'.setStore s) :=
  ⟨hu.heap,hu.notifiers,hu.gauges,hu.clock,hu.handle,hu.context⟩

theorem OnlyAdds.setPool (hu : w.OnlyAdds w') (p : PoolId) (pool : Pool) :
    w.OnlyAdds (w'.setPool p pool) :=
  ⟨hu.heap,hu.notifiers,hu.gauges,hu.clock,hu.handle,hu.context⟩

theorem OnlyAdds.setHandle (hu : w.OnlyAdds w') (hnew : w.handles.size ≤ h) (handle : WorkerHandle) :
    w.OnlyAdds (w'.setHandle h handle) := by
  refine ⟨hu.heap,hu.notifiers,hu.gauges,hu.clock,fun i hi => ?_,hu.context⟩
  have hne : h ≠ i := fun heq => Nat.not_le.mpr hi (heq ▸ hnew)
  rw [handle_setHandle, if_neg (not_and_of_not_left _ hne)]
  exact hu.handle i hi

theorem OnlyAdds.setContext (hu : w.OnlyAdds w') (hnew : w.contexts.size ≤ c) (context : Context) :
    w.OnlyAdds (w'.setContext c context) := by
  refine ⟨hu.heap,hu.notifiers,hu.gauges,hu.clock,hu.handle,fun d hd => ?_⟩
  have hne : c ≠ d := fun heq => Nat.not_le.mpr hd (heq ▸ hnew)
  rw [context_setContext, if_neg (not_and_of_not_left _ hne)]
  exact hu.context d hd

theorem OnlyAdds.addHandle (hu : w.OnlyAdds w') (hhandles : w'.handles.size = w.handles.size)
    (hcontexts : w'.contexts.size = w.contexts.size) (p : PoolId) : w.OnlyAdds (w'.addHandle p).2 := by
  refine ⟨hu.heap,hu.notifiers,hu.gauges,hu.clock,fun i hi => ?_,fun d hd => ?_⟩
  · rw [handle_addHandle w' p (by rwa [hhandles])]
    exact hu.handle i hi
  · rw [context_addHandle w' p (Nat.ne_of_lt (by rwa [hcontexts]))]
    exact hu.context d hd

/-- Counting out takes back counting in. -/
theorem pools_leave (hpools : w'.pools = (w.enter p).pools) : (w'.leave p).pools = w.pools := by
  have hpool : w'.pool p = (w.enter p).pool p := by
    unfold pool
    rw [hpools]
  unfold leave
  rw [hpool]
  simp only [setPool, hpools, enter, pool]
  apply Array.ext_getElem?
  intro i
  simp only [Array.getElem?_modify]
  by_cases hi : p = i
  · subst hi
    cases w.pools[p]? <;> simp
  · simp [hi]

theorem destroyUnhooked_unused (hopen : (w.context c).destroyed = false)
    (hnone : (w.context c).references = []) :
    w.destroyUnhooked c = w.setContext c (w.context c).emptied := by
  have hdestroy : (w.context c).destroy w.store = ((w.context c).emptied,w.store) := by
    rw [Context.destroy, if_neg (by simp [hopen]), hnone, Store.releaseAll_nil]
    rfl
  unfold destroyUnhooked
  rw [hdestroy]
  rfl

theorem disown_last (howners : (w.handle h).owners ≤ 1) (hresult : (w.handle h).result = []) :
    w.disown h = ((w.setStore (w.returned h)).destroyUnused (w.handle h).context).setHandle h
      (w.handle h).emptied := by
  unfold disown
  rw [if_pos howners, hresult]
  simp only [Store.drop_nil]
  cases (w.handle h).context <;> rfl

/-- A context that reports to a worker lets go of the handle when it is dropped. -/
theorem dropContext_hooked (hc : c < w.contexts.size) (hhook : (w.context c).hook = some (.worker h))
    (howners : 1 < (w.handle h).owners) (hopen : (w.context c).destroyed = false)
    (hnone : (w.context c).references = []) :
    w.dropContext c = (w.setHandle h { w.handle h with owners := (w.handle h).owners - 1 }).setContext c
      (w.context c).emptied := by
  set ofHandles := w.setHandle h { w.handle h with owners := (w.handle h).owners - 1 }
  have hself : ∀ context, (ofHandles.setContext c context).context c = context :=
    fun context => context_setContext_self (w := ofHandles) hc context
  have hhooked : (w.setContext c { w.context c with hook := none }).dropHook (some (.worker h)) =
      ofHandles.setContext c { w.context c with hook := none } := disown_of_lt howners
  have hdestroy : w.destroy c = ofHandles.setContext c (w.context c).emptied := by
    unfold destroy
    rw [if_neg (by simp [hopen]), hhook]
    refine (congrArg (destroyUnhooked · c) hhooked).trans ?_
    rw [destroyUnhooked_unused (by rw [hself]; exact hopen) (by rw [hself]; exact hnone), hself,
      setContext_setContext]
    rfl
  unfold dropContext
  rw [hdestroy]
  simp only [hself, setContext_setContext]
  rfl

/-- A handle gives up a context that reports to it, and then goes itself. -/
theorem disown_unhook (hh : h < w.handles.size) (hc : c < w.contexts.size)
    (hcontext : (w.handle h).context = some c) (hhook : (w.context c).hook = some (.worker h))
    (howners : (w.handle h).owners = 2) (hresult : (w.handle h).result = [])
    (hopen : (w.context c).destroyed = false) (hnone : (w.context c).references = []) :
    (w.unhook h).disown h = ((w.setStore (w.returned h)).setContext c
      (w.context c).emptied).setHandle h
      (w.handle h).emptied := by
  have hself : ∀ handle, (w.setHandle h handle).handle h = handle :=
    fun handle => handle_setHandle_self hh handle
  have hunhook : w.unhook h =
    (w.setHandle h { w.handle h with context := none, owners := 1 }).setContext c
      (w.context c).emptied := by
    have hdrop := dropContext_hooked (w := w.setHandle h { w.handle h with context := none }) hc hhook
      (by rw [hself, howners]; exact Nat.lt_succ_self 1) hopen hnone
    rw [hself, setHandle_setHandle, howners] at hdrop
    unfold unhook
    rw [hcontext]
    exact hdrop
  have hkept : (w.unhook h).handle h = { w.handle h with context := none, owners := 1 } := by
    rw [hunhook]
    exact hself _
  have hreturned : (w.unhook h).returned h = w.returned h := by
    unfold returned
    rw [hkept, hunhook]
    rfl
  rw [disown_last (by rw [hkept]) (by rw [hkept, ← hresult]), hreturned, hkept, hunhook]
  exact setHandle_setHandle ((w.setStore (w.returned h)).setContext c (w.context c).emptied) h _ _

structure WithNewHandle (w : World) (p : PoolId) (w' : World) : Prop where
  onlyAdds : w.OnlyAdds w'
  pools : w'.pools = (w.enter p).pools
  handles : w'.handles.size = w.handles.size + 1
  contexts : w'.contexts.size = w.contexts.size + 1
  owners : (w'.handle w.handles.size).owners = 1
  result : (w'.handle w.handles.size).result = []
  context : (w'.handle w.handles.size).context = some w.contexts.size
  hook : (w'.context w.contexts.size).hook = none
  references : (w'.context w.contexts.size).references = []
  destroyed : (w'.context w.contexts.size).destroyed = false

theorem WithNewHandle.handle_lt (hf : w.WithNewHandle p u) : w.handles.size < u.handles.size := by
  rw [hf.handles]
  exact Nat.lt_succ_self _

theorem WithNewHandle.context_lt (hf : w.WithNewHandle p u) : w.contexts.size < u.contexts.size := by
  rw [hf.contexts]
  exact Nat.lt_succ_self _

theorem withNewHandle_addHandle (w : World) (p : PoolId) :
    w.WithNewHandle p ((w.enter p).addHandle p).2 := by
  have hhandle : ((w.enter p).addHandle p).2.handle w.handles.size = _ :=
    handle_addHandle_self (w.enter p) p
  have hcontext : ((w.enter p).addHandle p).2.context w.contexts.size = _ :=
    context_addHandle_self (w.enter p) p
  obtain ⟨_,hhandles,hcontexts⟩ := size_addHandle (w.enter p) p
  have hadds :=
    ((OnlyAdds.refl w).setPool p { w.pool p with active := (w.pool p).active + 1 }).addHandle rfl
    rfl p
  refine ⟨hadds,rfl,hhandles,hcontexts,?_,?_,?_,?_,?_,?_⟩
  · rw [hhandle]
  · rw [hhandle]
  · rw [hhandle]
    rfl
  · rw [hcontext]
    rfl
  · rw [hcontext]
    rfl
  · rw [hcontext]
    rfl

/-- The handle takes arguments over. -/
theorem WithNewHandle.adoptsEntries (hf : w.WithNewHandle p u)
    (ht : u.AdoptsEntries w.handles.size w') : w.WithNewHandle p w' := by
  have hh := hf.handle_lt
  obtain ⟨s,references,rfl⟩ := ht.eq
  have hhandle :
    ((u.setHandle w.handles.size { u.handle w.handles.size with references }).setStore s).handle
      w.handles.size = { u.handle w.handles.size with references } := handle_setHandle_self hh _
  refine ⟨(hf.onlyAdds.setHandle le_rfl _).setStore s,hf.pools,?_,hf.contexts,?_,?_,?_,hf.hook,
    hf.references,
    hf.destroyed⟩
  · exact (size_setHandle u _ _).trans hf.handles
  · rw [hhandle]
    exact hf.owners
  · rw [hhandle]
    exact hf.result
  · rw [hhandle]
    exact hf.context

theorem WithNewHandle.setStore (hf : w.WithNewHandle p u) (s : Store) :
    w.WithNewHandle p (u.setStore s) :=
  ⟨hf.onlyAdds.setStore s,hf.pools,hf.handles,hf.contexts,hf.owners,hf.result,hf.context,hf.hook,
    hf.references,
    hf.destroyed⟩

/-- What has been made comes to an end. -/
theorem OnlyAdds.leavesNothing (hu : w.OnlyAdds u) (hpools : u.pools = w.pools)
    (hhandles : u.handles.size = w.handles.size + 1)
    (hcontexts : u.contexts.size = w.contexts.size + 1) (s : Store) (context : Context)
    (handle : WorkerHandle) :
    w.LeavesNothing (((u.setStore s).setContext w.contexts.size context.emptied).setHandle
      w.handles.size handle.emptied) := by
  have hh : w.handles.size < u.handles.size := by omega
  have hc : w.contexts.size < u.contexts.size := by omega
  set v := ((u.setStore s).setContext w.contexts.size context.emptied).setHandle w.handles.size
    handle.emptied
  have hgone : v.handle w.handles.size = handle.emptied :=
    handle_setHandle_self (w := (u.setStore s).setContext w.contexts.size context.emptied) hh _
  have hdestroyed : v.context w.contexts.size = context.emptied :=
    context_setContext_self (w := u.setStore s) hc _
  have hhandles' : v.handles.size = u.handles.size := size_setHandle _ _ _
  have hcontexts' : v.contexts.size = u.contexts.size := size_setContext (u.setStore s) _ _
  refine ⟨((hu.setStore s).setContext le_rfl _).setHandle le_rfl _,hpools,fun i hi hnew => ?_,
    fun d hd hnew => ?_⟩
  · obtain rfl : i = w.handles.size := by omega
    rw [hgone]
    exact ⟨rfl,rfl,rfl,rfl⟩
  · obtain rfl : d = w.contexts.size := by omega
    rw [hdestroyed]
    exact ⟨rfl,rfl,rfl⟩

theorem WithNewHandle.leave (hf : w.WithNewHandle p u) (s : Store) (context : Context)
    (handle : WorkerHandle) :
    w.LeavesNothing
      ((((u.setStore s).setContext w.contexts.size context.emptied).setHandle w.handles.size
      handle.emptied).leave p) :=
  (hf.onlyAdds.setPool p _).leavesNothing (pools_leave hf.pools) hf.handles hf.contexts s context handle

theorem WithNewHandle.discard (hf : w.WithNewHandle p u) :
    w.LeavesNothing ((u.disown w.handles.size).leave p) ∧
    ((u.disown w.handles.size).leave p).store = u.returned w.handles.size := by
  have hdisown : u.disown w.handles.size =
    ((u.setStore (u.returned w.handles.size)).setContext w.contexts.size
      (u.context w.contexts.size).emptied).setHandle w.handles.size
        (u.handle w.handles.size).emptied := by
    rw [disown_last hf.owners.le hf.result, hf.context]
    exact congrArg (setHandle · w.handles.size _) (destroyUnhooked_unused hf.destroyed hf.references)
  rw [hdisown]
  exact ⟨hf.leave _ _ _,rfl⟩

/-- There was no thread for the worker: the hook that its context has on the handle goes before the
handle. -/
theorem WithNewHandle.withdraw (hf : w.WithNewHandle p u) (config : Config) :
    w.LeavesNothing ((((u.configure w.handles.size config).leave p).unhook w.handles.size).disown
      w.handles.size) ∧
      ((((u.configure w.handles.size config).leave p).unhook w.handles.size).disown
        w.handles.size).store =
        u.returned w.handles.size := by
  obtain ⟨context,hconfigure,hhook,_,_,hreferences,_,hdestroyed⟩ :=
    configure_eq hf.context hf.hook hf.context_lt config
  have hh : w.handles.size < (u.own w.handles.size).handles.size :=
    (size_setHandle u _ _).symm ▸ hf.handle_lt
  have hc : w.contexts.size <
      ((u.own w.handles.size).setContext w.contexts.size context).contexts.size :=
    (size_setContext (u.own w.handles.size) _ _).symm ▸ hf.context_lt
  rw [hf.references] at hreferences
  rw [hf.destroyed] at hdestroyed
  rw [hconfigure]
  set x := ((u.own w.handles.size).setContext w.contexts.size context).leave p
  have hhandle : x.handle w.handles.size =
      { u.handle w.handles.size with owners := (u.handle w.handles.size).owners + 1 } :=
    handle_setHandle_self hf.handle_lt _
  have hcontext : x.context w.contexts.size = context :=
    context_setContext_self (w := u.own w.handles.size) hf.context_lt _
  have hend := disown_unhook (w := x) hh hc (by rw [hhandle, ← hf.context]) (by rw [hcontext, hhook])
    (by rw [hhandle, hf.owners]) (by rw [hhandle, ← hf.result]) (by rw [hcontext, hdestroyed])
    (by rw [hcontext, hreferences])
  have hreturned : x.returned w.handles.size = u.returned w.handles.size := by
    unfold returned
    rw [hhandle]
    rfl
  have hadds : w.OnlyAdds x := ((hf.onlyAdds.setHandle le_rfl _).setContext le_rfl context).setPool p _
  rw [hend, hreturned]
  exact ⟨hadds.leavesNothing (pools_leave hf.pools) ((size_setHandle u _ _).trans hf.handles)
    ((size_setContext u _ _).trans hf.contexts) _ _ _,rfl⟩

end World

end Workers
