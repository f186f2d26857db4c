import Workers.Proofs.Ledger.Context
import Workers.Proofs.World
/-! # The ledger of the world

Contexts and worker handles keep records of references, and worker handles keep results.  Together
with what is outside of all of these, the records make up the shares against which the store is
balanced.  No two owners of a registry have the same number, so each of them is the only one to
register under its holder.
-/
namespace Workers

def OfHandles (out : Multiset Share) : Prop := ∀ x ∈ out, ∃ n, x.holder = .store n

section Loose

variable {out out' : Multiset Share}

theorem OfHandles.add (h : OfHandles out) (h' : OfHandles out') : OfHandles (out + out') := by
  intro x hx
  rcases Multiset.mem_add.mp hx with hx | hx
  · exact h x hx
  · exact h' x hx

theorem OfHandles.of_add (h : OfHandles (out + out')) : OfHandles out ∧ OfHandles out' :=
  ⟨fun x hx => h x (Multiset.mem_add.mpr (.inl hx)),fun x hx => h x (Multiset.mem_add.mpr (.inr hx))⟩

theorem OfHandles.apart (h : OfHandles out) {r : RegistryId} {holder : Holder}
    (hk : holder.KeepsRecord) :
    Apart r holder out := by
  intro x hx _ heq
  obtain ⟨n,hn⟩ := h x hx
  exact hk n (heq ▸ hn)

theorem ofHandles_shares (hs : List TableHandle) : OfHandles (TableHandle.shares hs) := by
  intro x hx
  obtain ⟨h,_,_,rfl⟩ := TableHandle.mem_shares.mp hx
  exact ⟨h.number,rfl⟩

theorem ofHandles_object (object : Stored) : OfHandles object.shares := ofHandles_shares object.handles

theorem ofHandles_objects (objects : List Stored) : OfHandles (objects.map Stored.shares).sum := by
  rw [← TableHandle.shares_flatMap]
  exact ofHandles_shares _

end Loose

structure Numbered {α : Type} (registry number : α → Nat) (s : Store) (owners : Array α) : Prop where
  given : ∀ (i : Nat) (x : α), owners[i]? = some x → registry x < s.registries.size ∧
    number x < (s.registry (registry x)).nextNumber
  distinct : ∀ (i j : Nat) (x y : α), owners[i]? = some x → owners[j]? = some y →
      registry x = registry y →
    number x = number y → i = j

namespace Numbered

variable {α : Type} {registry number : α → Nat} {s t : Store} {owners : Array α}

theorem empty (s : Store) : Numbered registry number s #[] := ⟨by simp,by simp⟩

theorem later (h : Numbered registry number s owners) (hsize : s.registries.size ≤ t.registries.size)
    (hnumber : ∀ r < s.registries.size, (s.registry r).nextNumber ≤ (t.registry r).nextNumber) :
    Numbered registry number t owners := by
  refine ⟨fun i x hx => ?_,h.distinct⟩
  obtain ⟨hr,hn⟩ := h.given i x hx
  exact ⟨hr.trans_le hsize,hn.trans_le (hnumber _ hr)⟩

/-- An owner keeps its registry and its number, whatever else changes in it. -/
theorem modify (h : Numbered registry number s owners) {i : Nat} {x y : α} (hx : owners[i]? = some x)
    (hr : registry y = registry x) (hn : number y = number x) :
    Numbered registry number s (owners.modify i fun _ => y) := by
  have hold : ∀ (j : Nat) z, (owners.modify i fun _ => y)[j]? = some z →
      ∃ z', owners[j]? = some z' ∧ registry z = registry z' ∧ number z = number z' := by
    intro j z hz
    rw [Array.getElem?_modify] at hz
    split at hz
    · rename_i hj
      subst hj
      rw [hx] at hz
      obtain rfl : y = z := by simpa using hz
      exact ⟨x,hx,hr,hn⟩
    · exact ⟨z,hz,rfl,rfl⟩
  refine ⟨fun j z hz => ?_,fun j k z z' hz hz' hr' hn' => ?_⟩
  · obtain ⟨w,hw,hr',hn'⟩ := hold j z hz
    rw [hr', hn']
    exact h.given j w hw
  · obtain ⟨w,hw,h1,h2⟩ := hold j z hz
    obtain ⟨w',hw',h1',h2'⟩ := hold k z' hz'
    exact h.distinct j k w w' hw hw' (by rw [← h1, ← h1', hr']) (by rw [← h2, ← h2', hn'])

/-- A new owner takes the next number of its registry. -/
theorem push (h : Numbered registry number s owners) {x : α} (hr : registry x < s.registries.size)
    (hn : number x = (s.registry (registry x)).nextNumber) :
    Numbered registry number (s.nextNumber (registry x)).2 (owners.push x) := by
  have hlater := Store.later_nextNumber s (registry x)
  have hold := h.later (t := (s.nextNumber (registry x)).2) hlater.size_eq.ge fun r _ =>
    hlater.number_le r
  have hfresh : ∀ (i : Nat) y, owners[i]? = some y → registry y = registry x → number y ≠ number x := by
    intro i y hy hry
    have hlt := (h.given i y hy).2
    rw [hry] at hlt
    omega
  have hcase : ∀ (i : Nat) y, (owners.push x)[i]? = some y → i = owners.size ∧ y = x ∨
      owners[i]? = some y := by
    intro i y hy
    rw [Array.getElem?_push] at hy
    split at hy
    · rename_i hi
      exact .inl ⟨hi,(Option.some.inj hy).symm⟩
    · exact .inr hy
  refine ⟨fun i y hy => ?_,fun i j y z hy hz hr' hn' => ?_⟩
  · rcases hcase i y hy with ⟨_,rfl⟩ | hy
    · refine ⟨by rwa [hlater.size_eq],?_⟩
      rw [hn]
      exact Store.number_lt_nextNumber hr
    · exact hold.given i y hy
  · rcases hcase i y hy with ⟨hi,hyx⟩ | hy' <;> rcases hcase j z hz with ⟨hj,hzx⟩ | hz'
    · rw [hi, hj]
    · subst hyx
      exact absurd hn'.symm (hfresh j z hz' hr'.symm)
    · subst hzx
      exact absurd hn' (hfresh i y hy' hr')
    · exact h.distinct i j y z hy' hz' hr' hn'

/-- What the others have on record is apart from the holder of one of them: it is under another
number, or else it is a handle. -/
theorem apart (h : Numbered registry number s owners) {kind : ℕ → Holder}
    (hkind : Function.Injective kind) (hk : ∀ n, (kind n).KeepsRecord) {g : α → Multiset Share}
    (hg : ∀ y, ∀ z ∈ g y, z.registry = registry y ∧ z.holder = kind (number y) ∨
      ∃ n, z.holder = .store n)
    {i : Nat} {x : α} (hx : owners[i]? = some x) {others : Multiset Share}
    (hothers : ∀ z ∈ others, ∃ (j : Nat) (y : α), j ≠ i ∧ owners.toList[j]? = some y ∧ z ∈ g y) :
    Apart (registry x) (kind (number x)) others := by
  intro z hz hzr hzh
  obtain ⟨j,y,hne,hy,hz⟩ := hothers z hz
  rcases hg y z hz with ⟨hyr,hyh⟩ | ⟨n,hn⟩
  · have hnum : number y = number x := hkind (hyh.symm.trans hzh)
    have hreg : registry y = registry x := hyr.symm.trans hzr
    exact hne (h.distinct j i y x (by simpa using hy) hx hreg hnum)
  · exact hk _ n (hzh.symm.trans hn)

end Numbered

theorem Context.of_mem_shares {c : Context} {x : Share} (hx : x ∈ c.shares) :
    x.registry = c.registry ∧ x.holder = .context c.number :=
  ⟨(mem_checkedOut.mp hx).1,(mem_checkedOut.mp hx).2.1⟩

def WorkerHandle.shares (h : WorkerHandle) : Multiset Share :=
  checkedOut h.registry h.holder h.references + (h.result.map Stored.shares).sum

theorem WorkerHandle.of_mem_shares {h : WorkerHandle} {x : Share} (hx : x ∈ h.shares) :
    x.registry = h.registry ∧ x.holder = .thread h.number ∨ ∃ n, x.holder = .store n := by
  rcases Multiset.mem_add.mp hx with hx | hx
  · exact .inl ⟨(mem_checkedOut.mp hx).1,(mem_checkedOut.mp hx).2.1⟩
  · exact .inr (ofHandles_objects _ x hx)

namespace World

def shares (w : World) : Multiset Share :=
  (w.contexts.toList.map Context.shares).sum + (w.handles.toList.map WorkerHandle.shares).sum

/-- The store is balanced against all records and what is outside of them, every owner is the only
one under its holder, and a handle that is gone has nothing left. -/
structure Accounted (w : World) (out : Multiset Share) : Prop where
  balanced : w.store.Balanced (w.shares + out)
  ofHandles : OfHandles out
  contexts : Numbered Context.registry Context.number w.store w.contexts
  handles : Numbered WorkerHandle.registry WorkerHandle.number w.store w.handles
  disowned : ∀ (i : Nat) h, w.handles[i]? = some h → h.owners = 0 → h.references = []
  pools : ∀ (i : Nat) p, w.pools[i]? = some p → p.registry < w.store.registries.size

structure Moves (w : World) (out : Multiset Share) (w' : World) (out' : Multiset Share) : Prop where
  size_le : w.store.registries.size ≤ w'.store.registries.size
  accounted : w.Accounted out → w'.Accounted out'

variable {w w' w'' : World} {out out' out'' : Multiset Share}

theorem Moves.refl (w : World) (out : Multiset Share) : Moves w out w out := ⟨le_rfl,id⟩

theorem Moves.trans (h : Moves w out w' out') (h' : Moves w' out' w'' out'') : Moves w out w'' out'' :=
  ⟨h.size_le.trans h'.size_le,h'.accounted ∘ h.accounted⟩

/-- The heap, the hooks and the clock have no part in the accounts. -/
theorem Moves.of_eq (hstore : w'.store = w.store) (hcontexts : w'.contexts = w.contexts)
    (hhandles : w'.handles = w.handles) (hpools : w'.pools = w.pools) (out : Multiset Share) :
    Moves w out w' out := by
  refine ⟨by rw [hstore],fun h => ?_⟩
  obtain ⟨hb,hl,hc,hh,hd,hp⟩ := h
  have hshares : w'.shares = w.shares := by simp [shares, hcontexts, hhandles]
  exact
    ⟨by rwa [hstore, hshares],hl,by rwa [hstore, hcontexts],by rwa [hstore,
    hhandles],by rwa [hhandles],
    by rwa [hstore, hpools]⟩

/-- Handles outside of all records come and go. -/
theorem Moves.of_store {t : Store} (hlater : w.store.Later t) (hof : OfHandles out → OfHandles out')
    (hb : ∀ others, w.store.Balanced (out + others) → t.Balanced (out' + others)) :
    Moves w out (w.setStore t) out' := by
  refine ⟨hlater.size_eq.ge,fun h => ?_⟩
  have hnumber : ∀ r < w.store.registries.size, _ := fun r _ => hlater.number_le r
  have hbalanced := h.balanced
  rw [add_comm] at hbalanced
  refine ⟨?_,hof h.ofHandles,h.contexts.later hlater.size_eq.ge hnumber,
    h.handles.later hlater.size_eq.ge hnumber,h.disowned,fun i p hp => ?_⟩
  · have hb' := hb _ hbalanced
    rwa [add_comm] at hb'
  · exact (h.pools i p hp).trans_le hlater.size_eq.ge

/-- One context takes a turn.  The others have other numbers, so they are apart from its holder. -/
theorem Moves.of_context {c : ContextId} (hc : c < w.contexts.size) {t : Store} {context : Context}
    (ht : Context.OperationStep w.store (w.context c) t context) :
    Moves w out ((w.setStore t).setContext c context) out := by
  refine ⟨ht.later.size_eq.ge,fun h => ?_⟩
  have hx := context_eq hc
  have hxl : w.contexts.toList[c]? = some (w.context c) := by simpa using hx
  have hnumber : ∀ r < w.store.registries.size, _ := fun r _ => ht.later.number_le r
  obtain ⟨others,hsum,hmodify,hothers⟩ := exists_others Context.shares hxl
  obtain ⟨hr,hn⟩ := h.contexts.given c _ hx
  have hapart : Apart (w.context c).registry (w.context c).holder
      (others + (w.handles.toList.map WorkerHandle.shares).sum + out) := by
    have hrest := h.contexts.apart (fun _ _ => Holder.context.inj) Holder.keepsRecord_context
      (fun y z hz => .inl (Context.of_mem_shares hz)) hx hothers
    refine (Apart.add hrest fun z hz _ hzh => ?_).add (h.ofHandles.apart (Holder.keepsRecord_context _))
    obtain ⟨handle,_,hz⟩ := mem_sum_map.mp hz
    obtain ⟨_,hthread⟩ | ⟨n,hstore⟩ := WorkerHandle.of_mem_shares hz
    · cases hzh.symm.trans hthread
    · cases hzh.symm.trans hstore
  have hb := h.balanced
  unfold shares at hb
  rw [hsum, add_assoc, add_assoc, ← add_assoc others] at hb
  have ht' := ht.balanced _ hapart hr hn hb
  refine ⟨?_,h.ofHandles,?_,h.handles.later ht.later.size_eq.ge hnumber,h.disowned,fun i p hp => ?_⟩
  · have hshares : ((w.setStore t).setContext c context).shares =
        context.shares + others + (w.handles.toList.map WorkerHandle.shares).sum := by
      simp only [shares, setContext, setStore, Array.toList_modify, hmodify]
    rw [hshares, add_assoc, add_assoc, ← add_assoc others]
    exact ht'
  · exact (h.contexts.later ht.later.size_eq.ge hnumber).modify hx ht.registry_eq ht.number_eq
  · exact (h.pools i p hp).trans_le ht.later.size_eq.ge

/-- One worker handle takes a turn, and exchanges handles with the outside while it does. -/
theorem Moves.of_handle {i : WorkerId} (hi : i < w.handles.size) {t : Store}
    {handle : WorkerHandle} (hr : handle.registry = (w.handle i).registry)
    (hn : handle.number = (w.handle i).number)
    (hgone : ((w.handle i).owners = 0 → (w.handle i).references = []) → handle.owners = 0 →
      handle.references = [])
    (hlater : w.store.Later t) (hof : OfHandles out → OfHandles out')
    (hb : ∀ others, Apart (w.handle i).registry (w.handle i).holder (out + others) →
      (w.handle i).number < (w.store.registry (w.handle i).registry).nextNumber →
      w.store.Balanced ((w.handle i).shares + (out + others)) →
      t.Balanced (handle.shares + (out' + others))) :
    Moves w out ((w.setStore t).setHandle i handle) out' := by
  refine ⟨hlater.size_eq.ge,fun h => ?_⟩
  have hx := handle_eq hi
  have hxl : w.handles.toList[i]? = some (w.handle i) := by simpa using hx
  have hnumber : ∀ r < w.store.registries.size, _ := fun r _ => hlater.number_le r
  obtain ⟨others,hsum,hmodify,hothers⟩ := exists_others WorkerHandle.shares hxl
  have hapart : Apart (w.handle i).registry (w.handle i).holder
      (out + ((w.contexts.toList.map Context.shares).sum + others)) := by
    have hrest := h.handles.apart (fun _ _ => Holder.thread.inj) Holder.keepsRecord_thread
      (fun y z hz => WorkerHandle.of_mem_shares hz) hx hothers
    refine (h.ofHandles.apart (Holder.keepsRecord_thread _)).add (Apart.add (fun z hz _ hzh => ?_) hrest)
    obtain ⟨context,_,hz⟩ := mem_sum_map.mp hz
    cases hzh.symm.trans (Context.of_mem_shares hz).2
  have hbalanced : w.store.Balanced ((w.handle i).shares +
      (out + ((w.contexts.toList.map Context.shares).sum + others))) := by
    convert h.balanced using 1
    simp only [shares, hsum]
    abel
  have ht := hb _ hapart (h.handles.given i _ hx).2 hbalanced
  refine ⟨?_,hof h.ofHandles,h.contexts.later hlater.size_eq.ge hnumber,?_,?_,fun j p hp => ?_⟩
  · have hshares : ((w.setStore t).setHandle i handle).shares + out' =
        handle.shares + (out' + ((w.contexts.toList.map Context.shares).sum + others)) := by
      simp only [shares, setHandle, setStore, Array.toList_modify, hmodify]
      abel
    rw [hshares]
    exact ht
  · exact (h.handles.later hlater.size_eq.ge hnumber).modify hx hr hn
  · intro j handle' hj
    simp only [setHandle, setStore, Array.getElem?_modify] at hj
    split at hj
    · rename_i hij
      subst hij
      rw [hx] at hj
      obtain rfl : handle = handle' := by simpa using hj
      exact hgone (h.disowned i _ hx)
    · exact h.disowned j handle' hj
  · exact (h.pools j p hp).trans_le hlater.size_eq.ge

theorem registry_addPool (w : World) (r : RegistryId) :
    w.addPool.2.store.registry r = w.store.registry r := by
  simp only [addPool, Store.addRegistry, store, setStore, Store.registry, Array.getElem?_push]
  split
  · rename_i hr
    subst hr
    simp
  · rfl

theorem moves_addPool (w : World) (out : Multiset Share) : Moves w out w.addPool.2 out := by
  have hsize : w.addPool.2.store.registries.size = w.store.registries.size + 1 := Array.size_push _
  have hregistry := registry_addPool w
  have harena : ∀ r, w.addPool.2.store.arena r = w.store.arena r := fun r => by
    simp only [Store.arena, hregistry]
  have hnumber : ∀ r < w.store.registries.size, (w.store.registry r).nextNumber ≤
      (w.addPool.2.store.registry r).nextNumber := fun r _ => by rw [hregistry]
  have hle : w.store.registries.size ≤ w.addPool.2.store.registries.size := by omega
  refine ⟨hle,fun h => ?_⟩
  obtain ⟨hb,hl,hc,hh,hd,hp⟩ := h
  have hfiled : w.addPool.2.store.filed = w.store.filed := by
    simp only [Store.filed, addPool, Store.addRegistry, store, setStore, Array.toList_push,
      List.map_append,
      List.sum_append]
    simp [Arena.total]
  refine ⟨⟨fun r => by rw [harena]; exact hb.sound r,fun x => ?_,?_,fun x hx => ?_⟩,hl,
    hc.later hle hnumber,hh.later hle hnumber,hd,fun i p hip => ?_⟩
  · rw [hfiled]
    simp only [Store.Holds, harena]
    exact hb.exact x
  · rw [hfiled]
    exact hb.nodup
  · rw [hfiled] at hx
    rw [hregistry]
    exact hb.given x hx
  · have hip' : (w.pools.push { registry := w.store.registries.size })[i]? = some p := hip
    rw [Array.getElem?_push] at hip'
    split at hip'
    · obtain rfl := Option.some.inj hip'
      show w.store.registries.size < _
      omega
    · exact (hp i p hip').trans_le hle

theorem moves_addContext {r : RegistryId} (hr : r < w.store.registries.size) (out : Multiset Share) :
    Moves w out (w.addContext r).2 out := by
  have hlater := Store.later_nextNumber w.store r
  have hnumber : ∀ q < w.store.registries.size, _ := fun q _ => hlater.number_le q
  refine ⟨hlater.size_eq.ge,fun h => ⟨?_,h.ofHandles,?_,?_,h.disowned,fun i p hp => ?_⟩⟩
  · have hshares : (w.addContext r).2.shares = w.shares := by
      simp [shares, addContext, setStore, Context.create, Context.shares]
    rw [hshares]
    exact h.balanced.nextNumber r
  · exact h.contexts.push (x := { number := (w.store.registry r).nextNumber, registry := r }) hr rfl
  · exact h.handles.later hlater.size_eq.ge hnumber
  · exact (h.pools i p hp).trans_le hlater.size_eq.ge

/-- A worker handle takes its number before its context does. -/
theorem moves_addHandle {p : PoolId} (hp : p < w.pools.size) (out : Multiset Share) :
    Moves w out (w.addHandle p).2 out := by
  have hlater := Store.later_nextNumber w.store (w.pool p).registry
  have hnumber : ∀ q < w.store.registries.size, _ := fun q _ => hlater.number_le q
  let fresh : WorkerHandle :=
    { number := (w.store.registry (w.pool p).registry).nextNumber
      pool := p
      registry := (w.pool p).registry
      context := some w.contexts.size }
  let numbered : World :=
    { w.setStore (w.store.nextNumber (w.pool p).registry).2 with handles := w.handles.push fresh }
  have hpool : w.pools[p]? = some (w.pool p) := by simp [pool, hp]
  refine ⟨?_,fun h => ?_⟩
  · exact (hlater.trans (Store.later_nextNumber _ _)).size_eq.ge
  have hr := h.pools p _ hpool
  have hnumbered : numbered.Accounted out := by
    refine ⟨?_,h.ofHandles,h.contexts.later hlater.size_eq.ge hnumber,?_,?_,fun i q hq => ?_⟩
    · have hshares : numbered.shares = w.shares := by
        simp [numbered, fresh, shares, setStore, WorkerHandle.shares]
      rw [hshares]
      exact h.balanced.nextNumber _
    · exact h.handles.push (x := fresh) hr rfl
    · intro i handle hi
      have hi' : (w.handles.push fresh)[i]? = some handle := hi
      rw [Array.getElem?_push] at hi'
      split at hi'
      · obtain rfl := Option.some.inj hi'
        exact fun _ => rfl
      · exact h.disowned i handle hi'
    · exact (h.pools i q hq).trans_le hlater.size_eq.ge
  exact (moves_addContext (w := numbered)
    (by rwa [show numbered.store.registries.size = _ from hlater.size_eq])
    out).accounted hnumbered

end World

end Workers
