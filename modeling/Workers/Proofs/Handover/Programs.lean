import Workers.Proofs.Capture.Induction
import Workers.Proofs.Handover.Code
import Workers.Proofs.World
import Workers.Worker.Life
import Workers.Worker.Spawn
/-! # The operations of a hand-over, call by call

Taking and copying handles, storing values through a capture, moving objects under a handle, loading
them, and the stages of a worker.  Run without interruption each of them is the operation of the
world that it takes apart.
-/
namespace Workers

def Stored.weakened : Stored → Stored
  | .shared h => .shared { h with strong := false }
  | object => object

theorem Stored.weaken_eq (s : Store) (object : Stored) :
    object.weaken s = (object.weakened,s.settle object.handles) := by
  cases object with
  | shared h => rfl
  | nil | boolean | integer | float | string | function =>
    simp [Stored.weaken, Stored.weakened, Stored.handles]

namespace Code

open Capture (Refusal Progress offPath)

def attach (r : RegistryId) (id : EntryId) : Code (Except Fault TableHandle) :=
  .number r fun number => .addReference r id (.store number) fun
    | .ok _ => .done (.ok { entry := id, number, registry := r, strong := true })
    | .error fault => .done (.error fault)

def file (r : RegistryId) (table : SharedTable) : Code TableHandle :=
  .number r fun number => .create r table (.store number) fun entry =>
    .done { entry, number, registry := r, strong := true }

def copy (h : TableHandle) : Code TableHandle :=
  .number h.registry fun number => .addReference h.registry h.entry (.store number) fun
    | .ok _ => .done { h with number, strong := true }
    | .error _ => .done { h with number, strong := false }

theorem run_attach (w : World) (r : RegistryId) (id : EntryId) :
    (attach r id).run w = ((TableHandle.attach w.store r id).1,
      w.setStore (TableHandle.attach w.store r id).2) := by
  simp only [attach, run, TableHandle.attach, World.store_setStore]
  cases (w.store.nextNumber r).2.addReference r id (.store (w.store.nextNumber r).1) <;> rfl

theorem run_file (w : World) (r : RegistryId) (table : SharedTable) :
    (file r table).run w = ((TableHandle.create w.store r table).1,
      w.setStore (TableHandle.create w.store r table).2) :=
  rfl

theorem run_copy (w : World) (h : TableHandle) :
    (copy h).run w = ((h.copy w.store).1,w.setStore (h.copy w.store).2) := by
  simp only [copy, run, TableHandle.copy, World.store_setStore]
  cases (w.store.nextNumber h.registry).2.addReference h.registry h.entry
    (.store (w.store.nextNumber h.registry).1) <;>
    rfl

abbrev Kept := List (CellId × TableHandle)

mutual

def storeValue (h : Heap) (r : RegistryId) (path : List CellId) (kept : Kept) :
    Value → Code (Except Refusal Stored × Kept)
  | .nil => .done (.ok .nil,kept)
  | .boolean b => .done (.ok (.boolean b),kept)
  | .integer i => .done (.ok (.integer i),kept)
  | .float x => .done (.ok (.float x),kept)
  | .string s => .done (.ok (.string s),kept)
  | .function f => .done (.ok (.function f),kept)
  | .shared id => (attach r id).bind fun
    | .ok handle => .done (.ok (.shared handle),kept)
    | .error fault => .done (.error ⟨fault,path⟩,kept)
  | .table c =>
    if _onPath : c ∈ path then .done (.error ⟨.cyclicTable,path⟩,kept)
    else
      match kept.lookup c with
      | some handle => (copy handle).bind fun handle => .done (.ok (.shared handle),kept)
      | none =>
        match _read : h.read c with
        | .error fault => .done (.error ⟨fault,c :: path⟩,kept)
        | .ok table => (storeEntries h r (c :: path) kept .empty table.entries).bind fun
          | (.error refusal,kept) => .done (.error refusal,kept)
          | (.ok shared,kept) => (file r shared).bind fun handle => (copy handle).bind fun own =>
            .done (.ok (.shared handle),(c,own) :: kept)
termination_by (offPath h path,0)
decreasing_by
  exact Prod.Lex.left _ _ (Capture.offPath_cons_lt (Heap.lt_size_of_read _read) _onPath)

def storeEntries (h : Heap) (r : RegistryId) (path : List CellId) (kept : Kept) (done : SharedTable)
    (entries : List (Key × Value)) : Code (Except Refusal SharedTable × Kept) :=
  match entries with
  | [] => .done (.ok done,kept)
  | (key,value) :: rest => (storeValue h r path kept value).bind fun
    | (.ok object,kept) => storeEntries h r path kept (done.insert key object) rest
    | (.error refusal,kept) => .drop done.handles (.done (.error refusal,kept))
termination_by (offPath h path,entries.length + 1)
decreasing_by
  · exact Prod.Lex.right _ (by simp)
  · exact Prod.Lex.right _ (by simp)

end

theorem storeValue_table {h : Heap} {r : RegistryId} {path : List CellId} {kept : Kept}
    {c : CellId} {table : LocalTable} (hc : c ∉ path) (hl : kept.lookup c = none)
    (hread : h.read c = .ok table) :
    storeValue h r path kept (.table c) =
    (storeEntries h r (c :: path) kept .empty table.entries).bind fun
      | (.error refusal,kept) => .done (.error refusal,kept)
      | (.ok shared,kept) => (file r shared).bind fun handle => (copy handle).bind fun own =>
        .done (.ok (.shared handle),(c,own) :: kept) := by
  rw [storeValue, dif_neg hc, hl]
  simp only
  split
  · rename_i fault hread'
    rw [hread] at hread'
    cases hread'
  · rename_i table' hread'
    rw [hread] at hread'
    cases hread'
    rfl

theorem storeValue_unreadable {h : Heap} {r : RegistryId} {path : List CellId} {kept : Kept} {c : CellId}
    {fault : Fault} (hc : c ∉ path) (hl : kept.lookup c = none) (hread : h.read c = .error fault) :
    storeValue h r path kept (.table c) = .done (.error ⟨fault,c :: path⟩,kept) := by
  rw [storeValue, dif_neg hc, hl]
  simp only
  split
  · rename_i fault' hread'
    rw [hread] at hread'
    cases hread'
    rfl
  · rename_i table hread'
    rw [hread] at hread'
    cases hread'

/-- A capture run without interruption; the induction is the one over captures. -/
theorem run_store (h : Heap) (r : RegistryId) :
    (∀ path p v, ∀ w : World, w.store = p.store → (storeValue h r path p.captured v).run w =
      (((Capture.storeValue h r path p v).1,(Capture.storeValue h r path p v).2.captured),
        w.setStore (Capture.storeValue h r path p v).2.store)) ∧
    ∀ path p done es, ∀ w : World, w.store = p.store →
    (storeEntries h r path p.captured done es).run w =
      (((Capture.storeEntries h r path p done es).1,
        (Capture.storeEntries h r path p done es).2.captured),
        w.setStore (Capture.storeEntries h r path p done es).2.store) := by
  apply @Capture.capture_induction h r
    (fun path p v o p' => ∀ w : World, w.store = p.store →
      (storeValue h r path p.captured v).run w = ((o,p'.captured),w.setStore p'.store))
    (fun path p done es o p' => ∀ w : World, w.store = p.store →
      (storeEntries h r path p.captured done es).run w = ((o,p'.captured),w.setStore p'.store))
  case scalar =>
    intro path p v object hs w hw
    rw [← hw]
    cases v <;> cases hs <;> rw [storeValue] <;> rfl
  case attached =>
    intro path p id handle store ha w hw
    rw [storeValue, run_bind, run_attach, hw, ha]
    rfl
  case broken =>
    intro path p id fault store ha w hw
    rw [storeValue, run_bind, run_attach, hw, ha]
    rfl
  case cyclic =>
    intro path p c hc w hw
    rw [storeValue, dif_pos hc, ← hw]
    rfl
  case again =>
    intro path p c handle hc hl w hw
    rw [storeValue, dif_neg hc, hl, ← hw]
    rw [run_bind, run_copy]
    rfl
  case unreadable =>
    intro path p c fault hc hl hread w hw
    rw [storeValue_unreadable hc hl hread, ← hw]
    rfl
  case refused =>
    intro path p c table refusal p' hc hl hread _ he w hw
    rw [storeValue_table hc hl hread, run_bind, he w hw]
    rfl
  case copied =>
    intro path p c table shared p' handle store kept store' hc hl hread _ he hcreate hcopy w hw
    rw [storeValue_table hc hl hread, run_bind, he w hw]
    simp only [run_bind, run_file, run_copy, World.store_setStore, hcreate, hcopy]
    rfl
  case complete =>
    intro path p done w hw
    rw [storeEntries, ← hw]
    rfl
  case next =>
    intro path p done key v rest object p' outcome p'' _ hv he w hw
    rw [storeEntries, run_bind, hv w hw]
    exact (he (w.setStore p'.store) rfl).trans rfl
  case stuck =>
    intro path p done key v rest refusal p' _ hv w hw
    rw [storeEntries, run_bind, hv w hw]
    rfl

def capture (c : Capture) (h : Heap) (value : Value) : Code (Except Fault Stored × Capture) :=
  (storeValue h c.registry c.path c.captured value).bind fun
    | (.ok object,kept) => .done (.ok object,{ c with captured := kept })
    | (.error refusal,kept) =>
      .done (.error refusal.fault,{ c with captured := kept, path := refusal.path })

theorem run_capture (w : World) (c : Capture) (h : Heap) (value : Value) :
    (capture c h value).run w =
      (((c.store w.store h value).1,(c.store w.store h value).2.1),
        w.setStore (c.store w.store h value).2.2) := by
  have hrun := (run_store h c.registry).1 c.path ⟨w.store,c.captured⟩ value w rfl
  rw [capture, run_bind, hrun, Capture.store]
  rcases Capture.storeValue h c.registry c.path ⟨w.store,c.captured⟩
    value with ⟨outcome | outcome,p⟩ <;> rfl

def adopt (h : WorkerId) (object : Stored) : Code (Except Fault Stored) :=
  .secure h object fun
    | .ok _ => .drop object.handles (.done (.ok object.weakened))
    | .error fault => .drop object.handles (.done (.error fault))

/-- An adoption secures the entry of an object and then weakens it; one that fails drops it. -/
theorem adopt_of_secure {w w' : World} {h : WorkerId} {object : Stored}
    (hsecure : w.secure h object = .ok w') :
    w.adopt h object = (.ok object.weakened,w'.setStore (w'.store.settle object.handles)) := by
  simp only [World.adopt]
  split
  · rename_i hu
    cases hsecure.symm.trans hu
    rw [Stored.weaken_eq]
  · rename_i hu
    cases hsecure.symm.trans hu

theorem adopt_of_refused {w : World} {h : WorkerId} {object : Stored} {fault : Fault}
    (hrefused : w.secure h object = .error fault) :
    w.adopt h object = (.error fault,w.setStore (w.store.drop [object])) := by
  simp only [World.adopt]
  split
  · rename_i hu
    cases hrefused.symm.trans hu
  · rename_i hu
    cases hrefused.symm.trans hu
    rfl

theorem run_adopt (w : World) (h : WorkerId) (object : Stored) :
    (adopt h object).run w = w.adopt h object := by
  simp only [adopt, run]
  cases hsecure : w.secure h object with
  | ok w' =>
    rw [adopt_of_secure hsecure]
  | error fault =>
    rw [adopt_of_refused hsecure]
    simp [Store.drop]

structure Refused where
  fault : Fault
  object : Stored
  rest : List Stored

def adoptAll (h : WorkerId) (position : Nat) : List Stored → Code (Except Refused (List Stored))
  | [] => .done (.ok [])
  | object :: rest => .secure h object fun
    | .ok _ => .drop object.handles ((adoptAll h (position + 1) rest).bind fun outcome =>
        .done (outcome.map (object.weakened :: ·)))
    | .error fault => .done (.error ⟨.badArgument position fault,object,rest⟩)

/-- What is left of the arguments after a refusal is dropped, the refused one first. -/
theorem run_adoptAll (w : World) (h : WorkerId) (position : Nat) (arguments : List Stored) :
    w.adoptAll h position arguments =
      match (adoptAll h position arguments).run w with
      | (.ok adopted,w) => (.ok adopted,w)
      | (.error refused,w) =>
        (.error refused.fault,w.setStore ((w.store.drop [refused.object]).drop refused.rest)) := by
  induction arguments generalizing w position with
  | nil => rfl
  | cons object rest ih =>
    simp only [World.adoptAll, ← run_adopt, adopt, adoptAll, run]
    cases w.secure h object with
    | error fault => simp [Store.drop]
    | ok w' =>
      simp only [run, run_bind, ih]
      rcases (adoptAll h (position + 1) rest).run (w'.setStore (w'.store.settle object.handles)) with
        ⟨outcome | outcome,w''⟩
      · rfl
      · rfl

def loadAll (c : ContextId) : List Stored → Code (Except Fault (List Value))
  | [] => .done (.ok [])
  | object :: rest => .load c object fun
    | .ok value => (loadAll c rest).bind fun outcome => .done (outcome.map (value :: ·))
    | .error fault => .done (.error fault)

theorem run_loadAll (w : World) (c : ContextId) (objects : List Stored) :
    (loadAll c objects).run w = w.loadAll c objects := by
  induction objects generalizing w with
  | nil => rfl
  | cons object rest ih =>
    simp only [loadAll, run, World.loadAll]
    cases hload : (w.context c).load w.store object with
    | error fault => rfl
    | ok loaded => simp only [run_bind, ih, run]

def collect (h : WorkerId) (heap : Heap) (c : Capture) (done : List Stored) :
    List Value → Code (Except Fault (List Stored))
  | [] => .drop (c.captured.map Prod.snd) (.done (.ok done))
  | value :: rest => (capture c heap value).bind fun
    | (.error fault,c) =>
      .drop (done.flatMap Stored.handles) (.drop (c.captured.map Prod.snd) (.done (.error fault)))
    | (.ok object,c) => .captured object ((adopt h object).bind fun
      | .ok object => collect h heap c (done ++ [object]) rest
      | .error fault =>
        .drop (done.flatMap Stored.handles) (.drop (c.captured.map Prod.snd) (.done (.error fault))))

theorem run_collect (w : World) (h : WorkerId) (c : Capture) (done : List Stored) (values : List Value) :
    (collect h w.memory.heap c done values).run w = w.collect h c done values := by
  induction values generalizing w c done with
  | nil => rfl
  | cons value rest ih =>
    rw [collect, run_bind, run_capture, World.collect]
    rcases c.store w.store w.memory.heap value with ⟨fault | object,c',s⟩
    · simp [run, Capture.finish, Store.drop]
    · simp only [run, run_bind, run_adopt]
      have hheap : ((w.setStore s).adopt h object).2.memory.heap = w.memory.heap :=
        World.heap_adopt _ h object
      rcases hmoved : (w.setStore s).adopt h object with ⟨fault | moved,w'⟩
      · simp [run, Capture.finish, Store.drop]
      · rw [hmoved] at hheap
        simp only
        rw [← hheap]
        exact ih w' c' (done ++ [moved])

end Code

namespace World

variable {w : World} {c : ContextId}

def clearHook (w : World) (c : ContextId) : World :=
  (w.setContext c { w.context c with hook := none }).dropHook (w.context c).hook

def Shared (w : World) (c : ContextId) : Prop :=
  ∀ h, (w.context c).hook = some (.worker h) → 1 < (w.handle h).owners

theorem clearHook_writes (hshared : w.Shared c) :
    w.clearHook c = w.setContext c { w.context c with hook := none } ∨
    ∃ h, w.clearHook c = (w.setContext c { w.context c with hook := none }).setHandle h
      { w.handle h with owners := (w.handle h).owners - 1 } := by
  unfold clearHook
  cases hhook : (w.context c).hook with
  | none => exact .inl rfl
  | some hook =>
    cases hook with
    | gauge g => exact .inl rfl
    | worker h => exact .inr ⟨h,if_neg (Nat.not_le.mpr (hshared h hhook))⟩

theorem context_clearHook (hshared : w.Shared c) : (w.clearHook c).context c =
    (w.setContext c { w.context c with hook := none }).context c := by
  rcases clearHook_writes hshared with hw | ⟨h,hw⟩
  · rw [hw]
  · rw [hw]
    rfl

theorem hook_clearHook (hshared : w.Shared c) : ((w.clearHook c).context c).hook = none := by
  rw [context_clearHook hshared, context_setContext]
  split
  · rfl
  · rename_i hout
    have hnone : w.contexts[c]? = none := Array.getElem?_eq_none (Nat.not_lt.mp fun hc => hout ⟨rfl,hc⟩)
    rw [World.context, hnone]
    rfl

theorem destroyed_clearHook (hshared : w.Shared c) :
    ((w.clearHook c).context c).destroyed = (w.context c).destroyed := by
  rw [context_clearHook hshared, context_setContext]
  split <;> rfl

end World

namespace Code

section Stages

variable {U N : Type}

def ofStage (w : World) (h : WorkerId) : Stage (Frame U N) → Code (Stage (Frame U N))
  | .starting routine arguments => .take h fun
    | none => .done .leaving
    | some c => (loadAll c arguments).bind fun outcome => .drop (arguments.flatMap Stored.handles) (.done
        (match outcome with
          | .ok values => .running c (Strand.ofCall routine values)
          | .error fault => .destroying c (.failed fault.message)))
  | .collecting c values =>
    (collect h w.memory.heap { registry := (w.context c).registry } [] values).bind fun
      | .ok results => .done (.destroying c (.completed results))
      | .error fault => .done (.destroying c (.failed fault.message))
  | .destroying c e => .close c (.done (.judging e))
  | .publishing results status => .publish h results (.done (.announcing status))
  | stage => .done stage

def Calls : Stage (Frame U N) → Bool
  | .starting .. | .collecting .. | .destroying .. | .publishing .. => true
  | _ => false

variable {w : World} {h : WorkerId} {stage : Stage (Frame U N)}

theorem clearHook_self {c : ContextId} (hc : (w.context c).hook = none) : w.clearHook c = w := by
  have hsame : { w.context c with hook := none } = w.context c := by rw [← hc]
  rw [World.clearHook, hsame, World.setContext_self, hc]
  rfl

/-- Destroying a context for good is to take its hook away, and then to destroy what is left. -/
theorem dropContext_eq {c : ContextId} (hshared : w.Shared c) :
    w.dropContext c = (w.clearHook c).destroyUnhooked c := by
  have hnone := World.hook_clearHook hshared
  have hclosed : (((w.clearHook c).destroyUnhooked c).context c).hook = none := by
    simp only [World.destroyUnhooked, World.context_setContext, Context.destroy]
    split <;> split <;> first | exact hnone | rfl
  by_cases hdestroyed : (w.context c).destroyed
  · have hsame : w.dropContext c = w.clearHook c := by
      simp only [World.dropContext, World.destroy, if_pos hdestroyed]
      rfl
    have hstill : ((w.clearHook c).context c).destroyed = true := by
      rw [World.destroyed_clearHook hshared, hdestroyed]
    simp only [World.destroyUnhooked, Context.destroy, if_pos hstill]
    rw [hsame]
    exact (World.setContext_self (w.clearHook c) c).symm
  · have hdestroy : w.destroy c = (w.clearHook c).destroyUnhooked c := by
      simp only [World.destroy, if_neg hdestroyed]
      rfl
    exact (congrArg (World.clearHook · c) hdestroy).trans (clearHook_self hclosed)

def before (w : World) : Stage (Frame U N) → World
  | .destroying c _ => w.clearHook c
  | _ => w

/-- Run without interruption, the code of a stage takes the step of the worker. -/
theorem step_eq_run (lib : Library U N) (hcalls : Calls stage = true)
    (hshared : ∀ c e, stage = .destroying c e → w.Shared c) :
    Worker.step lib w ⟨h,stage⟩ = .ran ⟨h,((ofStage w h stage).run (before w stage)).1⟩
      ((ofStage w h stage).run (before w stage)).2 := by
  cases stage with
  | starting routine arguments =>
    simp only [Worker.step, ofStage, run, before]
    cases (w.handle h).context with
    | none => rfl
    | some c =>
      simp only [run_bind, run_loadAll, run]
      rcases (w.setHandle h { w.handle h with context := none }).loadAll c
        arguments with ⟨fault | values,w'⟩ <;> rfl
  | collecting c values =>
    simp only [Worker.step, ofStage, run_bind, run_collect, before]
    rcases w.collect h { registry := (w.context c).registry } [] values with ⟨fault | results,w'⟩ <;> rfl
  | destroying c e => simp only [Worker.step, ofStage, run, dropContext_eq (hshared c e rfl), before]
  | publishing results status => rfl
  | running | judging | announcing | leaving | gone => cases hcalls

end Stages

end Code

end Workers
