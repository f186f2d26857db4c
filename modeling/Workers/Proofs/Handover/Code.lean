import Mathlib.Logic.Relation
import Workers.Proofs.Ledger.Store
import Workers.World.Basic
/-! # Code cut at its calls on the registries

What the world does in one piece comes down to several calls on the registries, and between two of
them other threads may make theirs.  `Code` is such an operation taken apart: a step of it makes one
call at most.  Run without interruption it does what the operation does.
-/
namespace Workers

@[simp] theorem World.store_setStore (w : World) (s : Store) : (w.setStore s).store = s := rfl

@[simp] theorem World.setStore_setStore (w : World) (s t : Store) :
    (w.setStore s).setStore t = w.setStore t := rfl

def World.secure (w : World) (h : WorkerId) (object : Stored) : Except Fault World :=
  (object.checkRegistry (w.handle h).registry).bind fun _ =>
    match object.entryId? with
    | some id => w.addReference h id
    | none => .ok w

/-- The code of one thread from one call on a registry to the next. -/
inductive Code (α : Type) where
  | done (a : α)
  | number (r : RegistryId) (k : Nat → Code α)
  | create (r : RegistryId) (table : SharedTable) (holder : Holder) (k : EntryId → Code α)
  | addReference (r : RegistryId) (id : EntryId) (holder : Holder) (k : Except Fault Unit → Code α)
  | drop (handles : List TableHandle) (k : Code α)
  | secure (h : WorkerId) (object : Stored) (k : Except Fault Unit → Code α)
  | load (c : ContextId) (object : Stored) (k : Except Fault Value → Code α)
  | close (c : ContextId) (k : Code α)
  | take (h : WorkerId) (k : Option ContextId → Code α)
  | publish (h : WorkerId) (results : List Stored) (k : Code α)
  | captured (object : Stored) (k : Code α)

namespace Code

variable {α β : Type}

/-- Makes the next call.  Handles are dropped one by one, and a table that this frees has its own
handles dropped first.  `captured` calls nothing: it says that a value has become a stored object. -/
def step (w : World) : Code α → Code α × World
  | .done a => (.done a,w)
  | .number r k => (k (w.store.nextNumber r).1,w.setStore (w.store.nextNumber r).2)
  | .create r table holder k =>
    (k (w.store.create r table holder).1,w.setStore (w.store.create r table holder).2)
  | .addReference r id holder k =>
    match w.store.addReference r id holder with
    | .ok s => (k (.ok ()),w.setStore s)
    | .error fault => (k (.error fault),w)
  | .drop [] k => (k,w)
  | .drop (h :: rest) k =>
    if h.strong then
      let (freed,s) := w.store.detach h.registry h.entry h.holder
      (.drop (freed.elim [] SharedTable.handles ++ rest) k,w.setStore s)
    else (.drop rest k,w)
  | .secure h object k =>
    match w.secure h object with
    | .ok w => (k (.ok ()),w)
    | .error fault => (k (.error fault),w)
  | .load c object k =>
    match (w.context c).load w.store object with
    | .ok (value,context,s) => (k (.ok value),(w.setStore s).setContext c context)
    | .error fault => (k (.error fault),w)
  | .close c k =>
    let context := w.context c
    if context.destroyed then (k,w.destroyUnhooked c)
    else
      let (freed,s) := w.store.detachAll context.registry context.holder context.references
      (.drop (freed.flatMap SharedTable.handles) k,
        (w.setStore s).setContext c
        { context with destroyed := true, hook := none, handler := none, references := [] })
  | .take h k =>
    match (w.handle h).context with
    | some c => (k (some c),w.setHandle h { w.handle h with context := none })
    | none => (k none,w)
  | .publish h results k =>
    (.drop ((w.handle h).result.flatMap Stored.handles) k,
      w.setHandle h { w.handle h with result := results })
  | .captured _ k => (k,w)

def run (w : World) : Code α → α × World
  | .done a => (a,w)
  | .number r k => (k (w.store.nextNumber r).1).run (w.setStore (w.store.nextNumber r).2)
  | .create r table holder k =>
    (k (w.store.create r table holder).1).run (w.setStore (w.store.create r table holder).2)
  | .addReference r id holder k =>
    match w.store.addReference r id holder with
    | .ok s => (k (.ok ())).run (w.setStore s)
    | .error fault => (k (.error fault)).run w
  | .drop handles k => k.run (w.setStore (w.store.settle handles))
  | .secure h object k =>
    match w.secure h object with
    | .ok w => (k (.ok ())).run w
    | .error fault => (k (.error fault)).run w
  | .load c object k =>
    match (w.context c).load w.store object with
    | .ok (value,context,s) => (k (.ok value)).run ((w.setStore s).setContext c context)
    | .error fault => (k (.error fault)).run w
  | .close c k => k.run (w.destroyUnhooked c)
  | .take h k =>
    match (w.handle h).context with
    | some c => (k (some c)).run (w.setHandle h { w.handle h with context := none })
    | none => (k none).run w
  | .publish h results k =>
    let w' := w.setHandle h { w.handle h with result := results }
    k.run (w'.setStore (w'.store.settle ((w.handle h).result.flatMap Stored.handles)))
  | .captured _ k => k.run w

def bind (f : α → Code β) : Code α → Code β
  | .done a => f a
  | .number r k => .number r fun n => (k n).bind f
  | .create r table holder k => .create r table holder fun id => (k id).bind f
  | .addReference r id holder k => .addReference r id holder fun outcome => (k outcome).bind f
  | .drop handles k => .drop handles (k.bind f)
  | .secure h object k => .secure h object fun outcome => (k outcome).bind f
  | .load c object k => .load c object fun outcome => (k outcome).bind f
  | .close c k => .close c (k.bind f)
  | .take h k => .take h fun c => (k c).bind f
  | .publish h results k => .publish h results (k.bind f)
  | .captured object k => .captured object (k.bind f)

theorem run_bind (code : Code α) (f : α → Code β) (w : World) :
    (code.bind f).run w = (f (code.run w).1).run (code.run w).2 := by
  induction code generalizing w with
  | done a => rfl
  | number r k ih => exact ih _ _
  | create r table holder k ih => exact ih _ _
  | addReference r id holder k ih | secure h object k ih | load c object k ih | take h k ih =>
    simp only [bind, run]
    split <;> exact ih _ _
  | drop handles k ih | close c k ih | publish h results k ih | captured object k ih => exact ih _

def Goes : Code α × World → Code α × World → Prop := fun x y => y = x.1.step x.2

theorem goes_drop (k : Code α) (w : World) (handles : List TableHandle) :
    Relation.ReflTransGen Goes (.drop handles k,w) (k,w.setStore (w.store.settle handles)) := by
  generalize hs : w.store = s
  induction s, handles using Store.settle.induct generalizing w with
  | case1 s =>
    subst hs
    rw [Store.settle]
    exact .single rfl
  | case2 s handle rest hstrong table t heq ih =>
    subst hs
    have hstep : Goes (.drop (handle :: rest) k,w) (.drop (table.handles ++ rest) k,w.setStore t) := by
      simp only [Goes, step, if_pos hstrong, heq, Option.elim_some]
    rw [Store.settle_cons_strong _ hstrong, heq]
    exact .head hstep (ih (w.setStore t) rfl)
  | case3 s handle rest hstrong t heq ih =>
    subst hs
    have hstep : Goes (.drop (handle :: rest) k,w) (.drop rest k,w.setStore t) := by
      simp only [Goes, step, if_pos hstrong, heq, Option.elim_none, List.nil_append]
    rw [Store.settle_cons_strong _ hstrong, heq]
    exact .head hstep (ih (w.setStore t) rfl)
  | case4 s handle rest hweak ih =>
    subst hs
    have hstep : Goes (.drop (handle :: rest) k,w) (.drop rest k,w) := by
      simp only [Goes, step, if_neg hweak]
    rw [Store.settle_cons_weak _ hweak]
    exact .head hstep (ih w rfl)

/-- Step by step the code comes to what it does when it is run. -/
theorem goes (code : Code α) (w : World) :
    Relation.ReflTransGen Goes (code,w) (.done (code.run w).1,(code.run w).2) := by
  induction code generalizing w with
  | done a => exact .refl
  | number r k ih => exact .head rfl (ih _ _)
  | create r table holder k ih => exact .head rfl (ih _ _)
  | addReference r id holder k ih | secure h object k ih | load c object k ih | take h k ih =>
    refine .head rfl ?_
    simp only [step, run]
    split <;> exact ih _ _
  | drop handles k ih => exact (goes_drop k w handles).trans (ih _)
  | captured object k ih => exact .head rfl (ih _)
  | publish h results k ih => exact .head rfl ((goes_drop k _ _).trans (ih _))
  | close c k ih =>
    refine .head rfl ?_
    simp only [step, run]
    split
    · exact ih _
    · rename_i hopen
      refine (goes_drop k _ _).trans ?_
      have hend : w.destroyUnhooked c =
        ((w.setStore (w.store.detachAll (w.context c).registry (w.context c).holder
          (w.context c).references).2).setContext c { w.context c with
            destroyed := true, hook := none, handler := none, references := [] }).setStore
          (w.store.releaseAll (w.context c).registry (w.context c).holder (w.context c).references) := by
        simp only [World.destroyUnhooked, Context.destroy, if_neg hopen]
        rfl
      rw [hend]
      exact ih _

end Code

end Workers
