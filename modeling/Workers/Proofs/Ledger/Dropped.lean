import Mathlib.Logic.Relation
import Workers.Proofs.Call.Effects
import Workers.Proofs.Control.KeepsControl
import Workers.Proofs.Ledger.Run
/-! # What a dropped context leaves behind

A context releases what it has checked out when it is destroyed, and it is destroyed at the latest when
it is dropped.  Only the first time counts: a context that was destroyed before keeps its later
references for good.
-/
namespace Workers

namespace Context

structure Closes (c d : Context) : Prop where
  registry : d.registry = c.registry
  number : d.number = c.number
  kept : c.destroyed = true → d.destroyed = true ∧ d.references = c.references
  cleared : ¬ c.destroyed = true → d.destroyed = true → d.references = []

variable {c d e : Context}

theorem Closes.refl (c : Context) : c.Closes c :=
  ⟨rfl,rfl,fun hc => ⟨hc,rfl⟩,fun hopen hc => absurd hc hopen⟩

theorem Closes.trans (h : c.Closes d) (h' : d.Closes e) : c.Closes e where
  registry := h'.registry.trans h.registry
  number := h'.number.trans h.number
  kept hc := by
    obtain ⟨hd,hreferences⟩ := h.kept hc
    obtain ⟨he,hreferences'⟩ := h'.kept hd
    exact ⟨he,hreferences'.trans hreferences⟩
  cleared hopen he := by
    by_cases hd : d.destroyed = true
    · exact (h'.kept hd).2.trans (h.cleared hopen hd)
    · exact h'.cleared hd he

theorem closes_hook (c : Context) (hook : Option Hook) : c.Closes { c with hook } :=
  ⟨rfl,rfl,fun hc => ⟨hc,rfl⟩,fun hopen hc => absurd hc hopen⟩

theorem closes_destroy (c : Context) (s : Store) : c.Closes (c.destroy s).1 := by
  unfold destroy
  split
  · exact .refl c
  · rename_i hopen
    exact ⟨rfl,rfl,fun hc => absurd hc hopen,fun _ _ => rfl⟩

theorem destroyed_destroy (c : Context) (s : Store) : (c.destroy s).1.destroyed = true := by
  unfold destroy
  split
  · assumption
  · rfl

end Context

namespace World

variable {w : World}

theorem closes_setContext {i : ContextId} {context : Context} (h : (w.context i).Closes context)
    (c : ContextId) :
    (w.context c).Closes ((w.setContext i context).context c) := by
  rw [context_setContext]
  split
  · rename_i hi
    obtain ⟨rfl,_⟩ := hi
    exact h
  · exact .refl _

theorem closes_destroyUnhooked (w : World) (i c : ContextId) :
    (w.context c).Closes ((w.destroyUnhooked i).context c) :=
  closes_setContext (w := w.setStore ((w.context i).destroy w.store).2) (Context.closes_destroy _ _) c

theorem closes_disown (w : World) (h : WorkerId) (c : ContextId) :
    (w.context c).Closes ((w.disown h).context c) := by
  unfold disown
  simp only
  split
  · cases (w.handle h).context with
    | none => exact .refl _
    | some i =>
      exact closes_destroyUnhooked
        (w.setStore (w.store.releaseAll (w.handle h).registry (w.handle h).holder
          (w.handle h).references)) i c
  · exact .refl _

theorem closes_dropHook (w : World) (hook : Option Hook) (c : ContextId) :
    (w.context c).Closes ((w.dropHook hook).context c) := by
  rcases hook with _ | ⟨h⟩ | ⟨g⟩
  · exact .refl _
  · exact closes_disown w h c
  · exact .refl _

theorem closes_destroy (w : World) (c : ContextId) : (w.context c).Closes ((w.destroy c).context c) := by
  unfold destroy
  simp only
  split
  · exact .refl _
  · have hset := closes_setContext (w := w) (Context.closes_hook (w.context c) none) c
    exact (hset.trans (closes_dropHook _ _ c)).trans (closes_destroyUnhooked _ c c)

/-- A context that exists is destroyed from here on. -/
theorem destroyed_destroy {c : ContextId} (hc : c < w.contexts.size) :
    ((w.destroy c).context c).destroyed = true := by
  unfold destroy
  simp only
  split
  · assumption
  · have hdrop := keepsControl_dropHook (h := 0) (w.setContext c { w.context c with hook := none })
      (w.context c).hook
    have hsize : c < (w.setContext c { w.context c with hook := none }).contexts.size := by
      rwa [size_setContext]
    unfold destroyUnhooked
    simp only
    rw [context_setContext, if_pos ⟨rfl,hsize.trans_le hdrop.contexts⟩]
    exact Context.destroyed_destroy _ _

theorem closes_dropContext (w : World) (c : ContextId) :
    (w.context c).Closes ((w.dropContext c).context c) := by
  have hset := closes_setContext (w := w.destroy c)
    (Context.closes_hook ((w.destroy c).context c) none) c
  exact ((closes_destroy w c).trans hset).trans (closes_dropHook _ _ c)

theorem references_dropContext {c : ContextId} (hc : c < w.contexts.size) :
    ((w.dropContext c).context c).references =
      if (w.context c).destroyed = true then (w.context c).references else [] := by
  have hcloses := closes_dropContext w c
  have hset := closes_setContext (w := w.destroy c)
    (Context.closes_hook ((w.destroy c).context c) none) c
  -- from the first destruction on, the references are what they are
  have hend := (hset.trans (closes_dropHook _ ((w.destroy c).context c).hook c)).kept
    (destroyed_destroy hc)
  split
  · rename_i hdestroyed
    exact (hcloses.kept hdestroyed).2
  · rename_i hopen
    exact hcloses.cleared hopen hend.1

theorem moves_observe (w : World) (c : ContextId) (stopped : Bool) (out : Multiset Share) :
    Moves w out (Strand.observe w c stopped) out := by
  refine moves_setContext w c _ ?_ ?_ ?_ out <;> unfold Context.observe <;> split <;> rfl

theorem moves_setControl (w : World) (h : WorkerId) (control : Control) (out : Multiset Share) :
    Moves w out (w.setHandle h { w.handle h with control }) out :=
  moves_setHandle w h { w.handle h with control } rfl rfl (fun hzero => .inl hzero) rfl rfl out

end World

namespace Strand

open World (Moves)

variable {U N : Type} {lib : Library U N} {c : ContextId} {w w' : World} {s s' : Strand (Frame U N)}

theorem moves_writes (hwrites : Probe.Writes w w') (out : Multiset Share) : Moves w out w' out := by
  cases hwrites with
  | control h control => exact World.moves_setControl w h control out
  | gauge g gauge => exact .of_eq (by rfl) (by rfl) (by rfl) (by rfl) out

/-- Running code keeps the accounts. -/
theorem moves_step (hc : c < w.contexts.size) (hstep : s.step lib c w = .ran s' w')
    (out : Multiset Share) :
    Moves w out w' out := by
  cases effect_step hstep with
  | none => exact .refl w out
  | query q => exact World.moves_answer hc q out
  | check hwrites => exact moves_writes hwrites out
  | outcome stopped hwrites =>
    exact (moves_writes hwrites out).trans (World.moves_observe _ c stopped out)

end Strand

namespace GlobalState

variable {U N : Type} {lib : Library U N} {e e' : GlobalState} {c : ContextId}

inductive Next (lib : Library U N) : GlobalState → GlobalState → Prop
  | operate (e : GlobalState) (op : Operation) : Next lib e (e.step op)
  | code {e : GlobalState} {c : ContextId} {s s' : Strand (Frame U N)} {w : World}
      (hc : c < e.world.contexts.size) (hstep : s.step lib c e.world = .ran s' w) :
      Next lib e { e with world := w }

/-- What comes out of nothing by operations and calls, in any number and order. -/
def Arises (lib : Library U N) (e : GlobalState) : Prop := Relation.ReflTransGen (Next lib) {} e

theorem Next.accounted (hnext : Next lib e e') (h : e.Accounted) : e'.Accounted := by
  cases hnext with
  | operate op => exact step_accounted h op
  | code hc hstep => exact h.go fun out => Strand.moves_step hc hstep out

theorem Arises.accounted (h : Arises lib e) : e.Accounted := by
  induction h with
  | refl => exact accounted_empty
  | tail _ hnext ih => exact hnext.accounted ih

theorem Arises.exact_dropContext (h : Arises lib e) (c : ContextId) : (e.step (.dropContext c)).Exact :=
  (step_accounted h.accounted (.dropContext c)).exact

theorem mem_dropContext (hc : c < e.world.contexts.size) :
    (e.world.dropContext c).context c ∈ (e.world.dropContext c).contexts :=
  Array.mem_of_getElem? (World.context_eq
    (hc.trans_le (World.keepsControl_dropContext (h := 0) e.world c).contexts))

/-- What is left of a context when it is dropped: what it had checked out after it was destroyed. -/
theorem holds_dropped_iff (h : Arises lib e) (hc : c < e.world.contexts.size) {id : EntryId}
    {entry : Entry (Guarded SharedTable)}
    (hentry : ((e.step (.dropContext c)).world.store.arena (e.world.context c).registry).find?
      id = some entry) :
    Holder.context (e.world.context c).number ∈ entry.holders ↔
      (e.world.context c).destroyed = true ∧ id ∈ (e.world.context c).references := by
  have hexact := h.exact_dropContext c
  have hcloses := World.closes_dropContext e.world c
  have hcontext := hexact.context _ id entry hentry _ (mem_dropContext hc) hcloses.registry
  rw [hcloses.number, World.references_dropContext hc] at hcontext
  rw [hcontext]
  split
  · rename_i hdestroyed
    simp [hdestroyed]
  · rename_i hopen
    simp [hopen]

/-- What a context has checked out since it was destroyed, it holds when it is gone. -/
theorem exists_held_of_destroyed (h : Arises lib e) (hc : c < e.world.contexts.size)
    (hdestroyed : (e.world.context c).destroyed = true) {id : EntryId}
    (hid : id ∈ (e.world.context c).references) :
    ∃ entry, ((e.step (.dropContext c)).world.store.arena (e.world.context c).registry).find? id =
    some entry ∧
      Holder.context (e.world.context c).number ∈ entry.holders := by
  have hcloses := World.closes_dropContext e.world c
  have hkept : id ∈ ((e.world.dropContext c).context c).references := by
    rwa [(hcloses.kept hdestroyed).2]
  have halive := (h.exact_dropContext c).context_alive _ (mem_dropContext hc) id hkept
  rw [hcloses.registry] at halive
  obtain ⟨entry,hentry⟩ := Option.isSome_iff_exists.mp halive
  exact ⟨entry,hentry,(holds_dropped_iff h hc hentry).mpr ⟨hdestroyed,hid⟩⟩

/-- A dropped context holds nothing, unless it had checked something out after it was destroyed. -/
theorem dropped_holds_nothing_iff (h : Arises lib e) (hc : c < e.world.contexts.size) :
    (∀ id entry, ((e.step (.dropContext c)).world.store.arena (e.world.context c).registry).find?
      id = some entry →
      Holder.context (e.world.context c).number ∉ entry.holders) ↔
    ¬ ((e.world.context c).destroyed = true ∧ (e.world.context c).references ≠ []) := by
  constructor
  · rintro hnothing ⟨hdestroyed,hreferences⟩
    obtain ⟨id,hid⟩ := List.exists_mem_of_ne_nil _ hreferences
    obtain ⟨entry,hentry,hholds⟩ := exists_held_of_destroyed h hc hdestroyed hid
    exact hnothing id entry hentry hholds
  · intro hunless id entry hentry hholds
    obtain ⟨hdestroyed,hid⟩ := (holds_dropped_iff h hc hentry).mp hholds
    exact hunless ⟨hdestroyed,List.ne_nil_of_mem hid⟩

theorem arises_run (lib : Library U N) (ops : List Operation) : Arises lib (run ops) := by
  have hfold : ∀ e : GlobalState, Arises lib e → Arises lib (ops.foldl step e) := by
    induction ops with
    | nil => exact fun e h => h
    | cons op rest ih => exact fun e h => ih _ (h.tail (.operate e op))
  exact hfold _ .refl

def unloadable : Library Unit Unit where
  load f _ := .error (.detailed f.name)
  step _ := .done ((),.finish [])
  receive _ outcome := .done ((),refuse outcome)
  describe _ := ""
  body _ := .done ((),.finish [])

/-- A context that was destroyed and has made a shared table since. -/
def lingering : GlobalState := run [.newPool,.newContext 0,.ask 0 .destroy,.ask 0 .newShared]

theorem dropped_holds_nothing_iff_lingering :
    (Arises unloadable lingering ∧ 0 < lingering.world.contexts.size) ∧
      ((∀ id entry, ((lingering.step (.dropContext 0)).world.store.arena
        (lingering.world.context 0).registry).find? id =
          some entry → Holder.context (lingering.world.context 0).number ∉ entry.holders) ↔
        ¬ ((lingering.world.context 0).destroyed = true ∧
          (lingering.world.context 0).references ≠ [])) := by
  have harises : Arises unloadable lingering := arises_run unloadable _
  have hc : 0 < lingering.world.contexts.size := by decide
  exact ⟨⟨harises,hc⟩,dropped_holds_nothing_iff harises hc⟩

/-- The table outlives the context. -/
theorem dropped_holds_something :
    ¬ ∀ (e : GlobalState) (c : ContextId), Arises unloadable e → c < e.world.contexts.size →
    ∀ id entry, ((e.step (.dropContext c)).world.store.arena (e.world.context c).registry).find?
      id = some entry →
      Holder.context (e.world.context c).number ∉ entry.holders := by
  intro hnothing
  have hc : 0 < lingering.world.contexts.size := by decide
  have hdestroyed : (lingering.world.context 0).destroyed = true := by decide
  have hlast : ∃ before id, (lingering.world.context 0).references = before ++ [id] := ⟨_,_,rfl⟩
  obtain ⟨before,id,hreferences⟩ := hlast
  have hid : id ∈ (lingering.world.context 0).references := by
    rw [hreferences]
    exact List.mem_concat_self
  have harises : Arises unloadable lingering := arises_run unloadable _
  obtain ⟨entry,hentry,hholds⟩ := exists_held_of_destroyed harises hc hdestroyed hid
  exact hnothing lingering 0 harises hc id entry hentry hholds

end GlobalState

end Workers
