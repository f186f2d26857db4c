import Workers.Proofs.Ledger.World
import Workers.Worker.Life
/-! # The ledger across the life of contexts and worker handles

Hooks keep worker handles, and the last share in a handle takes down its references, its unused
context and its results.  Each of these steps keeps the accounts, and so does every order of them.
-/
namespace Workers.World

variable {w w' : World} {out : Multiset Share}

theorem moves_setContext (w : World) (c : ContextId) (context : Context)
    (hr : context.registry = (w.context c).registry) (hn : context.number = (w.context c).number)
    (href : context.references = (w.context c).references) (out : Multiset Share) :
    Moves w out (w.setContext c context) out := by
  by_cases hc : c < w.contexts.size
  · exact Moves.of_context hc (Context.OperationStep.of_record w.store hr hn href)
  · rw [setContext_of_not_lt hc]
    exact .refl w out

theorem moves_destroyUnhooked (w : World) (c : ContextId) (out : Multiset Share) :
    Moves w out (w.destroyUnhooked c) out := by
  by_cases hc : c < w.contexts.size
  · exact Moves.of_context hc (Context.operationStep_destroy _ _)
  · have hdefault : w.context c = default := by simp [context, hc]
    have hstore : ((w.context c).destroy w.store).2 = w.store := by
      rw [hdefault]
      exact Store.releaseAll_nil w.store 0 (.context 0)
    have hsame : w.destroyUnhooked c = w := by
      unfold destroyUnhooked
      simp only [hstore]
      exact setContext_of_not_lt hc _
    rw [hsame]
    exact .refl w out

/-- A pool stays in its registry. -/
theorem moves_setPool (w : World) (p : PoolId) (pool : Pool) (hr : pool.registry = (w.pool p).registry)
    (out : Multiset Share) : Moves w out (w.setPool p pool) out := by
  refine ⟨le_rfl,fun hw => ⟨hw.balanced,hw.ofHandles,hw.contexts,hw.handles,hw.disowned,
    fun i q hq => ?_⟩⟩
  simp only [setPool, Array.getElem?_modify] at hq
  split at hq
  · rename_i hpi
    obtain ⟨old,hold,rfl⟩ := Option.map_eq_some_iff.mp hq
    rw [hr, World.pool, hpi, hold]
    exact hw.pools i old hold
  · exact hw.pools i q hq

/-- A worker handle changes in fields that are not about references or results. -/
theorem moves_setHandle (w : World) (h : WorkerId) (handle : WorkerHandle)
    (hr : handle.registry = (w.handle h).registry) (hn : handle.number = (w.handle h).number)
    (hgone : handle.owners = 0 → (w.handle h).owners = 0 ∨ handle.references = [])
    (href : handle.references = (w.handle h).references) (hresult : handle.result = (w.handle h).result)
    (out : Multiset Share) : Moves w out (w.setHandle h handle) out := by
  by_cases hh : h < w.handles.size
  · have hkept : ((w.handle h).owners = 0 → (w.handle h).references = []) → handle.owners = 0 →
        handle.references = [] := by
      intro hold hzero
      rcases hgone hzero with hzero | hnone
      · rw [href]
        exact hold hzero
      · exact hnone
    refine Moves.of_handle hh hr hn hkept (.refl w.store) id fun others _ _ hb => ?_
    have hshares : handle.shares = (w.handle h).shares := by
      simp [WorkerHandle.shares, WorkerHandle.holder, hr, hn, href, hresult]
    rwa [hshares]
  · rw [setHandle_of_not_lt hh]
    exact .refl w out

theorem moves_own (w : World) (h : WorkerId) (out : Multiset Share) : Moves w out (w.own h) out :=
  moves_setHandle w h { w.handle h with owners := (w.handle h).owners + 1 } rfl rfl
    (fun hzero => absurd hzero (Nat.succ_ne_zero _)) rfl rfl out

def releaseReferences (w : World) (h : WorkerId) : World :=
  let handle := w.handle h
  (w.setStore (w.store.releaseAll handle.registry handle.holder handle.references)).setHandle h
    { handle with owners := 0, references := [] }

def destroyUnused (w : World) (context? : Option ContextId) : World :=
  match context? with
  | some c => w.destroyUnhooked c
  | none => w

def dropResult (w : World) (h : WorkerId) : World :=
  let handle := w.handle h
  (w.setStore (w.store.drop handle.result)).setHandle h
    { handle with owners := 0, references := [], context := none, result := [] }

theorem handles_destroyUnused (w : World) (context? : Option ContextId) :
    (w.destroyUnused context?).handles = w.handles := by
  cases context? <;> rfl

theorem handle_destroyUnused (w : World) (context? : Option ContextId) (h : WorkerId) :
    (w.destroyUnused context?).handle h = w.handle h := by
  simp only [handle, handles_destroyUnused]

/-- The end of a handle in three steps, each of which leaves the accounts in order. -/
theorem disown_of_le {h : WorkerId} (hh : h < w.handles.size) (hle : (w.handle h).owners ≤ 1) :
    w.disown h = ((w.releaseReferences h).destroyUnused (w.handle h).context).dropResult h := by
  have hreleased : (w.releaseReferences h).handle h =
      { w.handle h with owners := 0, references := [] } :=
    handle_setHandle_self hh _
  unfold disown dropResult
  simp only [if_pos hle, handle_destroyUnused, hreleased]
  cases (w.handle h).context with
  | none => exact (setHandle_setHandle _ h _ _).symm
  | some c => exact (setHandle_setHandle _ h _ _).symm

theorem moves_releaseReferences {h : WorkerId} (hh : h < w.handles.size) (out : Multiset Share) :
    Moves w out (w.releaseReferences h) out := by
  refine Moves.of_handle hh rfl rfl (fun _ _ => rfl) (Store.later_releaseAll _ _ _ _) id
    fun others _ _ hb => ?_
  simp only [WorkerHandle.shares, checkedOut_nil, zero_add]
  rw [WorkerHandle.shares, add_assoc] at hb
  exact hb.releaseAll

theorem moves_dropResult {h : WorkerId} (hh : h < w.handles.size) (hnone : (w.handle h).references = [])
    (out : Multiset Share) : Moves w out (w.dropResult h) out := by
  refine Moves.of_handle hh rfl rfl (fun _ _ => rfl) (Store.later_drop _ _) id fun others _ _ hb => ?_
  simp only [WorkerHandle.shares, hnone, checkedOut_nil, zero_add] at hb
  simp only [WorkerHandle.shares, checkedOut_nil, zero_add, List.map_nil, List.sum_nil]
  exact hb.drop

theorem moves_disown (w : World) (h : WorkerId) (out : Multiset Share) :
    Moves w out (w.disown h) out := by
  by_cases hh : h < w.handles.size
  · by_cases hle : (w.handle h).owners ≤ 1
    · have hreleased : (w.releaseReferences h).handle h =
          { w.handle h with owners := 0, references := [] } :=
        handle_setHandle_self hh _
      have hsize : h < ((w.releaseReferences h).destroyUnused (w.handle h).context).handles.size := by
        rw [handles_destroyUnused]
        simpa [releaseReferences, setHandle, setStore] using hh
      have hunused : Moves (w.releaseReferences h) out
          ((w.releaseReferences h).destroyUnused (w.handle h).context) out := by
        cases (w.handle h).context with
        | none => exact .refl _ out
        | some c => exact moves_destroyUnhooked _ c out
      rw [disown_of_le hh hle]
      refine ((moves_releaseReferences hh out).trans hunused).trans (moves_dropResult hsize ?_ out)
      rw [handle_destroyUnused, hreleased]
    · unfold disown
      simp only [if_neg hle]
      exact moves_setHandle w h { w.handle h with owners := (w.handle h).owners - 1 } rfl rfl
        (fun hzero => absurd hzero (Nat.sub_ne_zero_of_lt (Nat.lt_of_not_le hle))) rfl rfl out
  · have hdefault : w.handle h = default := by simp [handle, hh]
    have hsame : w.disown h = w := by
      unfold disown
      rw [hdefault]
      show ((w.setStore (w.store.releaseAll 0 (.thread 0) [])).setStore
        ((w.store.releaseAll 0 (.thread 0) []).settle [])).setHandle h _ = w
      rw [Store.settle_nil, Store.releaseAll_nil]
      exact setHandle_of_not_lt hh _
    rw [hsame]
    exact .refl w out

theorem moves_keepHook (w : World) (hook : Option Hook) (out : Multiset Share) :
    Moves w out (w.keepHook hook) out := by
  rcases hook with _ | ⟨h⟩ | ⟨g⟩
  · exact .refl w out
  · exact moves_own w h out
  · exact .refl w out

theorem moves_dropHook (w : World) (hook : Option Hook) (out : Multiset Share) :
    Moves w out (w.dropHook hook) out := by
  rcases hook with _ | ⟨h⟩ | ⟨g⟩
  · exact .refl w out
  · exact moves_disown w h out
  · exact .refl w out

theorem moves_setHook (w : World) (c : ContextId) (hook : Hook) (step : UInt32) (out : Multiset Share) :
    Moves w out (w.setHook c hook step) out := by
  have hkeep := moves_keepHook w (some hook) out
  have hset : Moves (w.keepHook (some hook)) out _ out :=
    moves_setContext _ c (((w.keepHook (some hook)).context c).setHook hook step) rfl rfl rfl out
  exact (hkeep.trans hset).trans (moves_dropHook _ _ out)

theorem moves_destroy (w : World) (c : ContextId) (out : Multiset Share) :
    Moves w out (w.destroy c) out := by
  unfold destroy
  simp only
  split
  · exact .refl w out
  · have hset : Moves w out _ out :=
      moves_setContext w c { w.context c with hook := none } rfl rfl rfl out
    exact (hset.trans (moves_dropHook _ _ out)).trans (moves_destroyUnhooked _ c out)

theorem moves_dropContext (w : World) (c : ContextId) (out : Multiset Share) :
    Moves w out (w.dropContext c) out := by
  have hset : Moves (w.destroy c) out _ out :=
    moves_setContext _ c { (w.destroy c).context c with hook := none } rfl rfl rfl out
  exact ((moves_destroy w c out).trans hset).trans (moves_dropHook _ _ out)

theorem moves_drop (w : World) (objects : List Stored) (out : Multiset Share) :
    Moves w ((objects.map Stored.shares).sum + out) (w.setStore (w.store.drop objects)) out :=
  Moves.of_store (Store.later_drop _ _) (fun hhandles => hhandles.of_add.2) fun others hb => by
    rw [add_assoc] at hb
    exact hb.drop

theorem moves_dropOne (w : World) (object : Stored) (out : Multiset Share) :
    Moves w (object.shares + out) (w.setStore (w.store.drop [object])) out := by
  simpa using moves_drop w [object] out

theorem moves_addReference {h : WorkerId} {id : EntryId} (hh : h < w.handles.size)
    (hown : (w.handle h).owners ≠ 0) (ht : w.addReference h id = .ok w') (out : Multiset Share) :
    Moves w out w' out := by
  unfold addReference at ht
  simp only at ht
  split at ht
  · cases ht
    exact .refl w out
  · rename_i hid
    cases hs : w.store.addReference (w.handle h).registry id (w.handle h).holder with
    | error fault => rw [hs] at ht; cases ht
    | ok s =>
      rw [hs] at ht
      cases ht
      refine Moves.of_handle hh rfl rfl (fun _ hzero => absurd hzero hown) (Store.later_addReference hs)
        (fun hhandles => hhandles) fun others hapart hn hb => ?_
      have hk := Holder.keepsRecord_thread (w.handle h).number
      rw [WorkerHandle.shares, add_assoc] at hb ⊢
      have hresult : Apart (w.handle h).registry (w.handle h).holder
          (((w.handle h).result.map Stored.shares).sum + (out + others)) :=
        ((ofHandles_objects _).apart hk).add hapart
      exact hb.checkOut hk hresult hid hn hs

/-- What the adoption of an object hands back: the object without its own share, or nothing. -/
theorem moves_adopt {h : WorkerId} (hh : h < w.handles.size) (hown : (w.handle h).owners ≠ 0)
    (object : Stored) (out : Multiset Share) : Moves w (object.shares + out) (w.adopt h object).2
      (granted Stored.shares (w.adopt h object).1 + out) := by
  have hweaken : ∀ w : World, Moves w (object.shares + out) (w.setStore (object.weaken w.store).2)
      ((object.weaken w.store).1.shares + out) := by
    intro w
    refine Moves.of_store (Stored.later_weaken _ _) ?_ fun others hb => ?_
    · exact fun hhandles => (ofHandles_object _).add hhandles.of_add.2
    · rw [add_assoc] at hb ⊢
      exact Stored.balanced_weaken hb
  unfold adopt
  simp only
  split
  · rename_i w' htaken
    have hmoves : Moves w (object.shares + out) w' (object.shares + out) := by
      cases hcheck : object.checkRegistry (w.handle h).registry with
      | error fault => rw [hcheck] at htaken; cases htaken
      | ok _ =>
        rw [hcheck] at htaken
        simp only [Except.bind] at htaken
        split at htaken
        · exact moves_addReference hh hown htaken _
        · cases htaken
          exact .refl w _
    exact hmoves.trans (hweaken w')
  · rw [granted_error, zero_add]
    exact moves_dropOne w object out

/-- The results published before give way to the new ones. -/
theorem moves_setResult {h : WorkerId} (hh : h < w.handles.size) (hown : (w.handle h).owners ≠ 0)
    (results : List Stored) (out : Multiset Share) :
    Moves w ((results.map Stored.shares).sum + out) (w.setResult h results) out := by
  have hswap : w.setResult h results =
      (w.setStore (w.store.drop (w.handle h).result)).setHandle h
      { w.handle h with result := results } := rfl
  rw [hswap]
  refine Moves.of_handle hh rfl rfl (fun _ hzero => absurd hzero hown) (Store.later_drop _ _)
    (fun hhandles => hhandles.of_add.2) fun others _ _ hb => ?_
  refine Store.Balanced.drop ?_
  convert hb using 1
  simp only [WorkerHandle.shares, WorkerHandle.holder]
  abel

theorem moves_copyResult (w : World) (h : WorkerId) (out : Multiset Share) :
    Moves w out (w.copyResult h).2 (((w.copyResult h).1.map Stored.shares).sum + out) := by
  refine Moves.of_store (Stored.later_copyAll _ _) (fun hhandles => (ofHandles_objects _).add hhandles)
    fun others hb => ?_
  rw [add_assoc]
  exact Stored.balanced_copyAll hb _

theorem moves_retarget (w : World) (hook : Option Hook) (target : Option NotifierId)
    (out : Multiset Share) :
    Moves w out (w.retarget hook target).2 out := by
  rcases hook with _ | ⟨h⟩ | ⟨g⟩
  · exact .refl w out
  · exact moves_setHandle w h { w.handle h with target } rfl rfl (fun hzero => .inl hzero) rfl rfl out
  · exact .of_eq (by rfl) (by rfl) (by rfl) (by rfl) out

theorem Accounted.context_given (h : w.Accounted out) {c : ContextId} (hc : c < w.contexts.size) :
    (w.context c).registry < w.store.registries.size :=
  (h.contexts.given c _ (context_eq hc)).1

theorem moves_set {c : ContextId} (hc : c < w.contexts.size) (table key value : Value)
    (out : Multiset Share) :
    Moves w out { w with memory := ((w.context c).set w.memory table key value).2 } out := by
  have hlater := Context.later_set (w.context c) w.memory table key value
  refine ⟨hlater.size_eq.ge,fun h => ?_⟩
  have hstored : Moves w out (w.setStore ((w.context c).set w.memory table key value).2.store) out :=
    Moves.of_store hlater (fun hhandles => hhandles) fun others hb =>
      Context.balanced_set (h.context_given hc) hb table key value
  exact (hstored.trans (.of_eq (by rfl) (by rfl) (by rfl) (by rfl) out)).accounted h

/-- A capture for one value hands out an object, or nothing. -/
theorem moves_store {r : RegistryId} (hr : w.Accounted out → r < w.store.registries.size) (v : Value) :
    Moves w out (w.setStore (v.store w.store w.memory.heap r).2)
      (granted Stored.shares (v.store w.store w.memory.heap r).1 + out) := by
  have hlater := v.later_store w.store w.memory.heap r
  refine ⟨hlater.size_eq.ge,fun h => ?_⟩
  have hhandles : OfHandles (granted Stored.shares (v.store w.store w.memory.heap r).1) := by
    cases (v.store w.store w.memory.heap r).1 with
    | error fault => exact fun x hx => by simp at hx
    | ok object => exact ofHandles_object object
  refine (Moves.of_store hlater (fun hout => hhandles.add hout) fun others hb => ?_).accounted h
  rw [add_assoc]
  exact Value.balanced_store (hr h) hb w.memory.heap v

theorem moves_load {c : ContextId} (hc : c < w.contexts.size) {object : Stored} {v : Value}
    {context : Context} {s : Store} (ht : (w.context c).load w.store object = .ok (v,context,s))
    (out : Multiset Share) :
    Moves w out ((w.setStore s).setContext c context) out :=
  Moves.of_context hc (Context.operationStep_load ht)

theorem moves_share {c : ContextId} (hc : c < w.contexts.size) (v : Value) (out : Multiset Share) :
    Moves w out (w.share c v).2 out := by
  have hstore := moves_store (w := w) (fun h : w.Accounted out => h.context_given hc) v
  unfold share
  simp only
  split
  · rename_i fault s heq
    rw [heq, granted_error, zero_add] at hstore
    exact hstore
  · rename_i object s heq
    rw [heq, granted_ok] at hstore
    split
    · rename_i v' context t hload
      have hturn : Moves (w.setStore s) (object.shares + out) ((w.setStore t).setContext c context)
          (object.shares + out) := moves_load (w := w.setStore s) hc hload _
      have hdrop : Moves ((w.setStore t).setContext c context) (object.shares + out)
          ((w.setStore (t.drop [object])).setContext c context) out :=
        moves_dropOne ((w.setStore t).setContext c context) object out
      exact (hstore.trans hturn).trans hdrop
    · have hdrop : Moves (w.setStore s) (object.shares + out) (w.setStore (s.drop [object])) out :=
        moves_dropOne (w.setStore s) object out
      exact hstore.trans hdrop

theorem moves_answer {c : ContextId} (hc : c < w.contexts.size) (q : Query) (out : Multiset Share) :
    Moves w out (w.answer c q).2 out := by
  cases q with
  | newTable => exact .of_eq (by rfl) (by rfl) (by rfl) (by rfl) out
  | newShared => exact Moves.of_context hc (Context.operationStep_newShared _ _)
  | get table key => exact Moves.of_context hc (Context.operationStep_get _ w.memory table key)
  | set table key value => exact moves_set hc table key value out
  | share value => exact moves_share hc value out
  | length | paths | hookStep | isNotified => exact .refl w out
  | count =>
    refine moves_setContext w c (w.context c).countInstruction.2 ?_ ?_ ?_ out
    all_goals
      unfold Context.countInstruction
      split
      · rfl
      · split
        · rfl
        · simp only
          split <;> rfl
  | destroy => exact moves_destroy w c out
  | notify | newNotifier => exact .of_eq (by rfl) (by rfl) (by rfl) (by rfl) out
  | retarget target => exact moves_retarget w _ target out

end Workers.World
