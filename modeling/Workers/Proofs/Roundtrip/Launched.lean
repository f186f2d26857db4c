import Workers.Proofs.Roundtrip.Carried
import Workers.Proofs.Roundtrip.Returned
/-! # A worker that is given its arguments

A start that is not refused gives the worker a handle and a context of its own, which reports to
nobody else.  The handle has taken all arguments, so that the worker sets out with them.
-/
namespace Workers

namespace World

variable {w w' : World} {h : WorkerId} {c : ContextId} {p : PoolId} {config : Config}
    {objects adopted : List Stored}
variable {out : Multiset Share}

theorem requested_enter (w : World) (p : PoolId) :
    ((w.enter p).pool p).requested = (w.pool p).requested := by
  rw [enter, pool_setPool]
  split <;> rfl

theorem requested_track (w : World) (p : PoolId) (h : WorkerId) :
    ((w.track p h).pool p).requested = (w.pool p).requested := by
  rw [track, pool_setPool]
  split <;> rfl

theorem moves_track (w : World) (p : PoolId) (h : WorkerId) (out : Multiset Share) :
    Moves w out (w.track p h) out :=
  moves_setPool w p
    { w.pool p with tracked := ((w.pool p).tracked.filter fun i => 0 < (w.handle i).owners) ++ [h] }
    rfl out

theorem handle_own_self (hh : h < w.handles.size) :
    (w.own h).handle h = { w.handle h with owners := (w.handle h).owners + 1 } :=
  handle_setHandle_self hh _

/-- The context of a worker that is about to start comes to report to it. -/
theorem configure_eq (hcontext : (w.handle h).context = some c)
    (hnone : (w.context c).hook = none) (hc : c < w.contexts.size) (config : Config) :
    ∃ context, w.configure h config = (w.own h).setContext c context ∧
      context.hook = some (.worker h) ∧ context.registry = (w.context c).registry ∧
      context.number = (w.context c).number ∧ context.references = (w.context c).references ∧
      context.stopping = (w.context c).stopping ∧ context.destroyed = (w.context c).destroyed := by
  set paths : Context := { w.context c with path := config.path, cpath := config.cpath }
  have hself : ∀ context, ((w.own h).setContext c context).context c = context :=
    fun context => context_setContext_self (w := w.own h) hc context
  have hpaths : (w.setContext c paths).context c = paths := context_setContext_self hc paths
  have hhook : (w.setContext c paths).setHook c (.worker h) config.step =
      (w.own h).setContext c (paths.setHook (.worker h) config.step) := by
    have hown : (w.setContext c paths).keepHook (some (.worker h)) = (w.own h).setContext c paths := rfl
    simp only [setHook, hpaths, hown, hself, setContext_setContext]
    rw [show paths.hook = none from hnone]
    rfl
  unfold configure
  simp only [hcontext]
  rw [hhook, hself]
  split
  · rw [setContext_setContext]
    exact ⟨_,rfl,rfl,rfl,rfl,rfl,rfl,rfl⟩
  · exact ⟨_,rfl,rfl,rfl,rfl,rfl,rfl,rfl⟩

theorem prepare_eq (hopen : (w.pool p).requested = false)
    (hadopt : ((w.enter p).addHandle p).2.adoptAll ((w.enter p).addHandle p).1 1 objects =
      (.ok adopted,w')) :
    w.prepare p config objects = (.ok (((w.enter p).addHandle p).1,adopted),
      ((w'.configure ((w.enter p).addHandle p).1 config).own ((w.enter p).addHandle p).1).track p
        ((w.enter p).addHandle p).1) := by
  have hentered : ¬ ((w.enter p).pool p).requested = true := by
    rw [requested_enter, hopen]
    exact Bool.false_ne_true
  unfold prepare
  simp only [if_neg hentered]
  rw [hadopt]

structure Raised (w : World) (p : PoolId) (h : WorkerId) (c : ContextId) (w' : World) : Prop where
  range : h < w'.handles.size
  handle : ∃ number references, w'.handle h =
    { number, pool := p, registry := (w.pool p).registry, context := some c, references }
  contexts : c < w'.contexts.size
  registry : (w'.context c).registry = (w.pool p).registry
  hook : (w'.context c).hook = none
  going : (w'.context c).stopping = false
  requested : (w'.pool p).requested = (w.pool p).requested

theorem raised_addHandle (w : World) (p : PoolId) :
    w.Raised p w.handles.size w.contexts.size ((w.enter p).addHandle p).2 := by
  have hregistry := Handover.registry_enter w p p
  have hhandle := handle_addHandle_self (w.enter p) p
  rw [hregistry] at hhandle
  have hcontext : ((w.enter p).addHandle p).2.context w.contexts.size = _ :=
    context_addHandle_self (w.enter p) p
  refine ⟨?_,⟨_,[],hhandle⟩,?_,?_,?_,?_,?_⟩
  · rw [(size_addHandle (w.enter p) p).2.1]
    exact Nat.lt_succ_self _
  · rw [(size_addHandle (w.enter p) p).2.2]
    exact Nat.lt_succ_self _
  · rw [hcontext]
    exact hregistry
  · rw [hcontext]
    rfl
  · rw [hcontext]
    rfl
  · exact requested_enter w p

theorem keeps_addHandle (w : World) (p : PoolId) : w.store.Keeps (w.addHandle p).2.store :=
  (Store.keeps_nextNumber w.store _).trans (Store.keeps_nextNumber _ _)

theorem Raised.adoptsEntries {u : World} (hr : w.Raised p h c u) (ht : u.AdoptsEntries h w') :
    w.Raised p h c w' := by
  obtain ⟨number,_,hhandle⟩ := hr.handle
  obtain ⟨references,hkept⟩ := ht.handle hr.range
  have hsize := ht.size_eq
  rw [hhandle] at hkept
  obtain ⟨s,_,rfl⟩ := ht.eq
  have hrange := hsize ▸ hr.range
  exact ⟨hrange,⟨number,references,hkept⟩,hr.contexts,hr.registry,hr.hook,hr.going,hr.requested⟩

end World

namespace WorkerState

open World

variable {U N : Type} {lib : Library U N} {k : Payload} {w w' : World} {h : WorkerId}
    {c : ContextId} {p : PoolId}
variable {f : Routine} {objects : List Stored} {out : Multiset Share}

/-- A new worker that keeps all that its arguments name is on the way to hand them back. -/
theorem carriesPayload_of_raised (hr : w.Raised p h c w') (hk : (w.pool p).registry = k.registry)
    (hopen : (w.pool p).requested = false) (hechoes : lib.Echoes f)
    (tokens : Tokens k.registry k.values objects)
    (hentries : ∀ id, .shared id ∈ k.values → id ∈ (w'.handle h).references)
    (hw : w'.Accounted out) (hintact : k.Intact w') (config : Config) :
    CarriesPayload lib k h c ⟨((w'.configure h config).own h).track p h,
      ⟨h,.starting f objects⟩⟩ := by
  obtain ⟨number,references,hhandle⟩ := hr.handle
  obtain ⟨context,hconfigure,hhook,hregistry,hnumber,hreferences,hstopping,_⟩ :=
    configure_eq (by rw [hhandle]) hr.hook hr.contexts config
  rw [hconfigure]
  set u := ((w'.own h).setContext c context).own h
  have hsize : h < (w'.own h).handles.size := by rw [own, size_setHandle]; exact hr.range
  have hshown : (u.track p h).handle h =
      { number, pool := p, registry := (w.pool p).registry, context := some c, references,
        owners := 3 } := by
    have htwo : u.handle h = { (w'.own h).handle h with owners := ((w'.own h).handle h).owners + 1 } :=
      handle_own_self (w := (w'.own h).setContext c context) hsize
    change u.handle h = _
    rw [htwo, handle_own_self hr.range, hhandle]
  have hcontext : (u.track p h).context c = context :=
    context_setContext_self (w := w'.own h) hr.contexts context
  have hpool : ((u.track p h).pool p).requested = false := by
    rw [requested_track, ← hopen, ← hr.requested]
    rfl
  have hmoves : Moves w' out (u.track p h) out := by
    have hset := moves_setContext (w'.own h) c context hregistry hnumber hreferences out
    have hown := (moves_own w' h out).trans (hset.trans (moves_own _ h out))
    exact hown.trans (moves_track u p h out)
  refine ⟨rfl,⟨?_,?_,?_,⟨out,hmoves.accounted hw⟩⟩,?_,fun _ => ?_⟩
  · exact hsize.trans_le (size_setHandle _ h _).ge
  · rw [hshown]
    exact hk
  · rw [hshown]
    rw [hhandle] at hentries
    exact hentries
  · refine .starting hechoes tokens ?_ ?_ ?_ ⟨?_,?_,?_⟩ ⟨?_,?_,?_,?_,?_⟩ hintact
    · rw [hshown]
    · rw [hcontext, hhook]
    · rw [hcontext, hstopping, hr.going]
    · rw [hshown]
      nofun
    · rw [hshown]
      exact hpool
    · rw [hshown]
      exact ⟨nofun,nofun⟩
    · change c < ((w'.own h).setContext c context).contexts.size
      rw [size_setContext]
      exact hr.contexts
    · rw [hcontext, hregistry, hr.registry, hk]
    · intro i hi
      rw [hcontext, hhook] at hi
      exact (Option.some.inj hi).symm
    · rw [hshown]
      exact Nat.le_succ 2
    · intro _ _
      rw [hshown]
  · rw [hshown]
    exact ⟨nofun,nofun⟩

/-- A start with the objects that were captured succeeds. -/
theorem prepare_carriesPayload (hw : w.Accounted ((objects.map Stored.shares).sum + out))
    (hp : p < w.pools.size) (hopen : (w.pool p).requested = false)
    (hk : (w.pool p).registry = k.registry) (hvalues : objects.map Stored.toValue = k.values)
    (hstrong : ∀ handle, Stored.shared handle ∈ objects → handle.registry = k.registry ∧
      handle.strong = true)
    (hechoes : lib.Echoes f) (hintact : k.Intact w) (config : Config) :
    ∃ h c adopted w', w.prepare p config objects = (.ok (h,adopted),w') ∧
      CarriesPayload lib k h c ⟨w',⟨h,.starting f adopted⟩⟩ := by
  have hr := raised_addHandle w p
  set w₁ := ((w.enter p).addHandle p).2
  obtain ⟨number,references,hhandle⟩ := hr.handle
  have hentered : ∀ out, Moves w out w₁ out := fun out => (moves_setPool w p
    { w.pool p with active := (w.pool p).active + 1 } rfl out).trans
      (moves_addHandle (w := w.enter p) (by rwa [enter, size_setPool]) out)
  have hhome : Local (w₁.handle w.handles.size).registry objects := by
    rw [hhandle]
    exact fun handle hmem => (hstrong handle hmem).1.trans hk.symm
  have hown : (w₁.handle w.handles.size).owners ≠ 0 := by
    rw [hhandle]
    exact Nat.one_ne_zero
  have hw₁ : w₁.Accounted ((objects.map Stored.shares).sum + out) := (hentered _).accounted hw
  obtain ⟨w₂,hadopt,htakes,hentries,hw₂⟩ := adoptAll_eq hr.range hown 1 hhome
    (fun handle hmem => (hstrong handle hmem).2) hw₁
  have htokens : Tokens k.registry k.values (objects.map Stored.weakened) :=
    tokens_weakened hvalues fun handle hmem =>
    (hstrong handle hmem).1
  have hkept : ∀ id, .shared id ∈ k.values → id ∈ (w₂.handle w.handles.size).references := by
    intro id hid
    rw [← hvalues] at hid
    obtain ⟨object,hmem,hvalue⟩ := List.mem_map.mp hid
    cases object with
    | shared handle =>
      cases hvalue
      exact hentries handle hmem
    | nil | boolean | integer | float | string | function => cases hvalue
  have hkeeps : k.In w₂ w.handles.size := by
    obtain ⟨_,_,hhandle⟩ := (hr.adoptsEntries htakes).handle
    exact ⟨(hr.adoptsEntries htakes).range,by rw [hhandle]; exact hk,hkept,out,hw₂⟩
  have hremoves : w.store.OnlyRemoves w₂.store :=
    (keeps_addHandle (w.enter p) p).onlyRemoves.trans htakes.onlyRemoves
  exact ⟨_,_,_,_,prepare_eq hopen hadopt,
    carriesPayload_of_raised (hr.adoptsEntries htakes) hk hopen hechoes htokens hkept hw₂
    (hintact.onlyRemoves hkeeps hremoves) config⟩

end WorkerState

end Workers
