import Workers.Proofs.Control.KeepsControl
import Workers.Proofs.Handover.Calls
import Workers.Proofs.Handover.Code
/-! # What a hand-over holds on to

Holdings are what the thread of a hand-over can rely on while others make calls of their own: the
shares that nobody else gives up or files, those of them that it has in hand, the entries that the
worker handle keeps, and the entries that must not be freed.  Nothing that
others do takes away from them.
-/
namespace Workers

open TableHandle (shares)

structure HandlePlace where
  handle : WorkerId
  number : Nat
  registry : RegistryId
  context : ContextId

def HandlePlace.share (p : HandlePlace) (id : EntryId) : Share := ⟨p.registry,id,.thread p.number⟩

def TableHandle.owners (hs : List TableHandle) : List (RegistryId × Holder) :=
  (hs.filter TableHandle.strong).map fun h => (h.registry,h.holder)

theorem TableHandle.mem_owners {hs : List TableHandle} {k : RegistryId × Holder} :
    k ∈ owners hs ↔ ∃ x ∈ shares hs, x.owner = k := by
  simp only [owners, List.mem_map, List.mem_filter, mem_shares]
  constructor
  · rintro ⟨h,⟨hh,hstrong⟩,rfl⟩
    exact ⟨_,⟨h,hh,hstrong,rfl⟩,rfl⟩
  · rintro ⟨_,⟨h,hh,hstrong,rfl⟩,rfl⟩
    exact ⟨h,⟨hh,hstrong⟩,rfl⟩

theorem TableHandle.holder_of_mem_shares {hs : List TableHandle} {x : Share} (hx : x ∈ shares hs) :
    ∃ n, x.holder = .store n := by
  obtain ⟨h,_,_,rfl⟩ := mem_shares.mp hx
  exact ⟨h.number,rfl⟩

structure Holdings where
  ours : Set Share
  held : Set Share
  kept : Set EntryId
  owed : List TableHandle

namespace Holdings

variable {p : HandlePlace} {g : Holdings}

def SurelyAlive (p : HandlePlace) (g : Holdings) (r : RegistryId) (id : EntryId) : Prop :=
  (∃ x ∈ g.held, x.registry = r ∧ x.entry = id) ∨ (r = p.registry ∧ id ∈ g.kept)

def Covers (p : HandlePlace) (g : Holdings) : Prop := ∀ f ∈ g.owed, g.SurelyAlive p f.registry f.entry

def Owes (g : Holdings) (f : TableHandle) : Prop :=
  ∃ f' ∈ g.owed, f'.registry = f.registry ∧ f'.entry = f.entry

def own (g : Holdings) (k : RegistryId × Holder) : Holdings :=
  { g with ours := { x | x ∈ g.ours ∨ x.owner = k } }

def hold (g : Holdings) (x : Share) : Holdings := { g with held := insert x g.held }

def file (g : Holdings) (hs : List TableHandle) : Holdings :=
  { g with
    ours := { x ∈ g.ours | x.owner ∉ TableHandle.owners hs }
    held := { x ∈ g.held | x.owner ∉ TableHandle.owners hs } }

def release (g : Holdings) (hs : List TableHandle) : Holdings :=
  { g with held := { x ∈ g.held | x ∉ shares hs } }

def keep (g : Holdings) (object : Stored) : Holdings :=
  { g with kept := { id | id ∈ g.kept ∨ ∃ f ∈ object.handles, f.entry = id } }

def owe (g : Holdings) (object : Stored) : Holdings := { g with owed := g.owed ++ object.handles }

theorem SurelyAlive.mono {g' : Holdings} {r : RegistryId} {id : EntryId}
    (h : g.SurelyAlive p r id) (hheld : g.held ⊆ g'.held) (hkept : g.kept ⊆ g'.kept) :
    g'.SurelyAlive p r id :=
  h.imp (fun ⟨x,hx,hat⟩ => ⟨x,hheld hx,hat⟩) fun ⟨hr,hid⟩ => ⟨hr,hkept hid⟩

theorem Covers.mono {g' : Holdings} (h : g.Covers p) (howed : g'.owed = g.owed)
    (hheld : g.held ⊆ g'.held) (hkept : g.kept ⊆ g'.kept) : g'.Covers p :=
  fun f hf => (h f (howed ▸ hf)).mono hheld hkept

theorem Covers.hold (h : g.Covers p) (x : Share) : (g.hold x).Covers p :=
  h.mono rfl (Set.subset_insert x g.held) (le_refl g.kept)

theorem Covers.keep (h : g.Covers p) (object : Stored) : (g.keep object).Covers p :=
  h.mono rfl (le_refl g.held) fun _ => .inl

theorem release_of_apart {hs : List TableHandle} (happart : ∀ x ∈ g.held, x ∉ shares hs) :
    g.release hs = g := by
  obtain ⟨ours,held,kept,owed⟩ := g
  exact congrArg (fun held => (⟨ours,held,kept,owed⟩ : Holdings))
    (Set.sep_eq_self_iff_mem_true.mpr happart)

theorem release_release (g : Holdings) (hs hs' : List TableHandle) :
    (g.release hs).release hs' = g.release (hs ++ hs') := by
  have hheld : { x ∈ { x ∈ g.held | x ∉ shares hs } | x ∉ shares hs' } =
      { x ∈ g.held | x ∉ shares (hs ++ hs') } := by
    ext x
    simp only [Set.mem_ofPred_eq, TableHandle.shares_append, Multiset.mem_add, not_or, and_assoc]
  exact congrArg (fun held => (⟨g.ours,held,g.kept,g.owed⟩ : Holdings)) hheld

end Holdings

structure Store.RegistersHeld (s : Store) (g : Holdings) : Prop where
  sound : ∀ r, (s.arena r).Sound
  held : ∀ x ∈ g.held, s.Holds x ∧ x ∈ g.ours
  given : ∀ x ∈ g.ours, x.holder.number < (s.registry x.registry).nextNumber
  filed : ∀ x ∈ s.filed, x ∉ g.ours ∧ x.holder.number < (s.registry x.registry).nextNumber
  lasting : ∀ x ∈ g.ours, ∀ n, x.holder ≠ .context n

structure HandlePlace.InWorld (p : HandlePlace) (g : Holdings) (w : World) : Prop where
  ours : ∀ id, p.share id ∈ g.ours
  kept : ∀ id ∈ g.kept, w.store.Holds (p.share id)
  registry_lt : p.registry < w.store.registries.size
  handle_lt : p.handle < w.handles.size
  number_eq : (w.handle p.handle).number = p.number
  registry_eq : (w.handle p.handle).registry = p.registry
  references : ∀ id ∈ (w.handle p.handle).references, w.store.Holds (p.share id)
  result : ∀ f ∈ (w.handle p.handle).result.flatMap Stored.handles, f.strong = false ∧ g.Owes f
  context : ∀ c, (w.handle p.handle).context = some c → c = p.context
  context_lt : p.context < w.contexts.size
  home : (w.context p.context).registry = p.registry

structure World.KeepsHandle (w : World) (h : WorkerId) (w' : World) : Prop where
  size_le : w.handles.size ≤ w'.handles.size
  number_eq : (w'.handle h).number = (w.handle h).number
  registry_eq : (w'.handle h).registry = (w.handle h).registry
  references_eq : (w'.handle h).references = (w.handle h).references
  result_eq : (w'.handle h).result = (w.handle h).result
  context : ∀ c, (w'.handle h).context = some c → (w.handle h).context = some c
  contexts_le : w.contexts.size ≤ w'.contexts.size
  home : ∀ c < w.contexts.size, (w'.context c).registry = (w.context c).registry

/-- A call on a registry, or anything else, by another thread.  It may also add to what the handle
keeps. -/
inductive World.OtherStep (ours : Set Share) (h? : Option WorkerId) (w : World) : World → Prop
  | number (r : RegistryId) : OtherStep ours h? w (w.setStore (w.store.nextNumber r).2)
  | registry : OtherStep ours h? w (w.setStore w.store.addRegistry.2)
  | request {r : RegistryId} {request : Request EntryId} (happart : request.Apart ours w.store r) :
    OtherStep ours h? w (w.setStore (w.store.frees r request).2)
  | secure {h : WorkerId} {object : Stored} {w' : World} (hh : h? = some h)
      (hw : w.secure h object = .ok w') :
    OtherStep ours h? w w'
  | elsewhere {w' : World} (hstore : w'.store = w.store)
      (hkeeps : ∀ h, h? = some h → w.KeepsHandle h w') :
    OtherStep ours h? w w'

namespace World.KeepsHandle

variable {w w' : World} {h : WorkerId}

theorem of_eq (hhandles : w'.handles = w.handles) (hcontexts : w'.contexts = w.contexts) :
    w.KeepsHandle h w' := by
  have hhandle : w'.handle h = w.handle h := by simp only [World.handle, hhandles]
  have hcontext : ∀ c, w'.context c = w.context c := fun c => by simp only [World.context, hcontexts]
  exact ⟨(congrArg Array.size hhandles).ge,congrArg _ hhandle,congrArg _ hhandle,congrArg _ hhandle,
    congrArg _ hhandle,fun c hc => by rwa [hhandle] at hc,(congrArg Array.size hcontexts).ge,
    fun c _ => congrArg _ (hcontext c)⟩

theorem setStore (w : World) (h : WorkerId) (s : Store) : w.KeepsHandle h (w.setStore s) := of_eq rfl rfl

theorem setContext {c : ContextId} {context : Context} (hc : context.registry = (w.context c).registry) :
    w.KeepsHandle h (w.setContext c context) := by
  refine ⟨le_rfl,rfl,rfl,rfl,rfl,fun _ hd => hd,(size_setContext w c context).ge,fun d _ => ?_⟩
  rw [context_setContext]
  split
  · rename_i hd
    rw [hc, hd.1]
  · rfl

/-- A handle of which only the control, the target or the owners change. -/
theorem setHandle {i : WorkerId} {handle : WorkerHandle}
    (hnumber : handle.number = (w.handle i).number)
    (hregistry : handle.registry = (w.handle i).registry)
    (hreferences : handle.references = (w.handle i).references)
    (hresult : handle.result = (w.handle i).result)
    (hcontext : handle.context = (w.handle i).context) :
    w.KeepsHandle h (w.setHandle i handle) := by
  have hsame : ∀ {α : Type} (f : WorkerHandle → α), f handle = f (w.handle i) →
      f ((w.setHandle i handle).handle h) = f (w.handle h) := by
    intro α f hf
    rw [handle_setHandle]
    split
    · rename_i hih
      rw [hf, hih.1]
    · rfl
  exact ⟨(size_setHandle w i handle).ge,hsame _ hnumber,hsame _ hregistry,hsame _ hreferences,
    hsame _ hresult,
    fun c hc => (hsame WorkerHandle.context hcontext).symm.trans hc,le_rfl,fun _ _ => rfl⟩

theorem trans {w'' : World} (hw : w.KeepsHandle h w') (hw' : w'.KeepsHandle h w'') :
    w.KeepsHandle h w'' :=
  ⟨hw.size_le.trans hw'.size_le,hw'.number_eq.trans hw.number_eq,hw'.registry_eq.trans hw.registry_eq,
    hw'.references_eq.trans hw.references_eq,hw'.result_eq.trans hw.result_eq,
    fun c hc => hw.context c (hw'.context c hc),hw.contexts_le.trans hw'.contexts_le,
    fun c hc => (hw'.home c (hc.trans_le hw.contexts_le)).trans (hw.home c hc)⟩

end World.KeepsHandle

namespace Store.RegistersHeld

variable {s t : Store} {g : Holdings} {safe : Share → Prop} {new : Multiset Share}

theorem pass (h : s.RegistersHeld g) (ht : s.Passes safe new t) (hheld : ∀ x ∈ g.held, safe x)
    (hnew : ∀ x ∈ new, x ∉ g.ours ∧ x.holder.number < (s.registry x.registry).nextNumber) :
    t.RegistersHeld g where
  sound := ht.sound
  held x hx := ⟨ht.holds x (hheld x hx) (h.held x hx).1,(h.held x hx).2⟩
  given k hk := (h.given k hk).trans_le (ht.number_le _)
  filed x hx :=
    have hat := (ht.filed x hx).elim (h.filed x) (hnew x)
    ⟨hat.1,hat.2.trans_le (ht.number_le _)⟩
  lasting := h.lasting

theorem grow (h : s.RegistersHeld g) (ht : s.Widens 0 t) : t.RegistersHeld g :=
  h.pass ht (fun _ _ => trivial) (by simp)

theorem hold (h : s.RegistersHeld g) {x : Share} (hx : s.Holds x) (hours : x ∈ g.ours) :
    s.RegistersHeld (g.hold x) where
  sound := h.sound
  held y hy := by
    rcases Set.mem_insert_iff.mp hy with rfl | hy
    · exact ⟨hx,hours⟩
    · exact h.held y hy
  given := h.given
  filed := h.filed
  lasting := h.lasting

theorem release (h : s.RegistersHeld g) (hs : List TableHandle) : s.RegistersHeld (g.release hs) :=
  ⟨h.sound,fun x hx => h.held x hx.1,h.given,h.filed,h.lasting⟩

theorem file (h : s.RegistersHeld g) (hs : List TableHandle) : s.RegistersHeld (g.file hs) where
  sound := h.sound
  held x hx := ⟨(h.held x hx.1).1,(h.held x hx.1).2,hx.2⟩
  given x hx := h.given x hx.1
  filed x hx := ⟨fun hin => (h.filed x hx).1 hin.1,(h.filed x hx).2⟩
  lasting x hx := h.lasting x hx.1

theorem fresh (h : s.RegistersHeld g) {r : RegistryId} {k : Holder}
    (hk : k.number = (s.registry r).nextNumber) :
    ∀ x ∈ g.ours, x.owner ≠ (r,k) := by
  intro x hx heq
  have hlt := h.given x hx
  obtain ⟨hr,hholder⟩ := Prod.mk.inj heq
  rw [hr, hholder, hk] at hlt
  exact Nat.lt_irrefl _ hlt

theorem number (h : s.RegistersHeld g) {r : RegistryId} (hr : r < s.registries.size) {k : Holder}
    (hk : k.number = (s.registry r).nextNumber) (hlasting : ∀ n, k ≠ .context n) :
    (s.nextNumber r).2.RegistersHeld (g.own (r,k)) := by
  have hpass := h.grow (Store.widens_nextNumber h.sound r)
  refine ⟨hpass.sound,fun x hx => ⟨(hpass.held x hx).1,.inl (hpass.held x hx).2⟩,?_,?_,?_⟩
  · rintro x (hx | hx)
    · exact hpass.given x hx
    · obtain ⟨hxr,hxk⟩ := Prod.mk.inj hx
      rw [hxr, hxk, hk]
      exact Store.number_lt_nextNumber hr
  · intro x hx
    refine ⟨?_,(hpass.filed x hx).2⟩
    rintro (hin | hin)
    · exact (hpass.filed x hx).1 hin
    · have hlt := (h.filed x (by simpa using hx)).2
      obtain ⟨hxr,hxk⟩ := Prod.mk.inj hin
      rw [hxr, hxk, hk] at hlt
      exact Nat.lt_irrefl _ hlt
  · rintro x (hx | hx)
    · exact h.lasting x hx
    · rw [(Prod.mk.inj hx).2]
      exact hlasting

end Store.RegistersHeld

structure HandlePlace.Fits (p : HandlePlace) (g : Holdings) (w : World) : Prop where
  registersHeld : w.store.RegistersHeld g
  inWorld : p.InWorld g w

namespace HandlePlace.Fits

variable {p : HandlePlace} {g : Holdings} {w w' : World} {safe : Share → Prop} {new : Multiset Share}

theorem pass (h : p.Fits g w) (ht : w.store.Passes safe new w'.store)
    (hkeeps : w.KeepsHandle p.handle w') (hheld : ∀ x ∈ g.held, safe x)
    (hkept : ∀ id, safe (p.share id))
    (hnew : ∀ x ∈ new, x ∉ g.ours ∧ x.holder.number < (w.store.registry x.registry).nextNumber) :
    p.Fits g w' where
  registersHeld := h.registersHeld.pass ht hheld hnew
  inWorld := {
    ours := h.inWorld.ours
    kept := fun id hid => ht.holds _ (hkept id) (h.inWorld.kept id hid)
    registry_lt := h.inWorld.registry_lt.trans_le ht.size_le
    handle_lt := h.inWorld.handle_lt.trans_le hkeeps.size_le
    number_eq := hkeeps.number_eq.trans h.inWorld.number_eq
    registry_eq := hkeeps.registry_eq.trans h.inWorld.registry_eq
    references := fun id hid => ht.holds _ (hkept id)
      (h.inWorld.references id (hkeeps.references_eq ▸ hid))
    result := fun f hf => h.inWorld.result f (hkeeps.result_eq ▸ hf)
    context := fun c hc => h.inWorld.context c (hkeeps.context c hc)
    context_lt := h.inWorld.context_lt.trans_le hkeeps.contexts_le
    home := (hkeeps.home _ h.inWorld.context_lt).trans h.inWorld.home }

theorem setStore {t : Store} (h : p.Fits g w) (ht : w.store.Passes safe new t)
    (hheld : ∀ x ∈ g.held, safe x) (hkept : ∀ id, safe (p.share id))
    (hnew : ∀ x ∈ new, x ∉ g.ours ∧ x.holder.number < (w.store.registry x.registry).nextNumber) :
    p.Fits g (w.setStore t) := by
  have hkeeps : w.KeepsHandle p.handle (w.setStore t) := .setStore w p.handle t
  exact h.pass ht hkeeps hheld hkept hnew

theorem grow {t : Store} (h : p.Fits g w) (ht : w.store.Widens 0 t) : p.Fits g (w.setStore t) :=
  h.setStore ht (fun _ _ => trivial) (fun _ => trivial) (by simp)

theorem keepsHandle (h : p.Fits g w) (hstore : w'.store = w.store)
    (hkeeps : w.KeepsHandle p.handle w') : p.Fits g w' :=
  have hpass : w.store.Widens 0 w'.store := by
    rw [hstore]
    exact .refl h.registersHeld.sound
  h.pass hpass hkeeps (fun _ _ => trivial) (fun _ => trivial) (by simp)

theorem hold (h : p.Fits g w) {x : Share} (hx : w.store.Holds x) (hours : x ∈ g.ours) :
    p.Fits (g.hold x) w :=
  ⟨h.registersHeld.hold hx hours,{ h.inWorld with }⟩

theorem release (h : p.Fits g w) (hs : List TableHandle) : p.Fits (g.release hs) w :=
  ⟨h.registersHeld.release hs,{ h.inWorld with }⟩

theorem file (h : p.Fits g w) (hs : List TableHandle) : p.Fits (g.file hs) w := by
  refine ⟨h.registersHeld.file hs,{ h.inWorld with ours := fun id => ⟨h.inWorld.ours id,fun hk => ?_⟩ }⟩
  obtain ⟨x,hx,heq⟩ := TableHandle.mem_owners.mp hk
  obtain ⟨n,hn⟩ := TableHandle.holder_of_mem_shares hx
  have hholder : x.holder = .thread p.number := congrArg Prod.snd heq
  rw [hn] at hholder
  cases hholder

theorem keep (h : p.Fits g w) {object : Stored}
    (hkept : ∀ f ∈ object.handles, w.store.Holds (p.share f.entry)) : p.Fits (g.keep object) w := by
  refine ⟨⟨h.registersHeld.sound,h.registersHeld.held,h.registersHeld.given,h.registersHeld.filed,
    h.registersHeld.lasting⟩,
    { h.inWorld with kept := fun id hid => ?_ }⟩
  rcases hid with hid | ⟨f,hf,rfl⟩
  · exact h.inWorld.kept id hid
  · exact hkept f hf

theorem owe (h : p.Fits g w) (object : Stored) : p.Fits (g.owe object) w := by
  refine ⟨⟨h.registersHeld.sound,h.registersHeld.held,h.registersHeld.given,h.registersHeld.filed,
    h.registersHeld.lasting⟩,
    { h.inWorld with result := fun f hf => ⟨(h.inWorld.result f hf).1,?_⟩ }⟩
  obtain ⟨f',hf',hat⟩ := (h.inWorld.result f hf).2
  exact ⟨f',List.mem_append_left _ hf',hat⟩

theorem holds_of_surelyAlive (h : p.Fits g w) {r : RegistryId} {id : EntryId}
    (hsure : g.SurelyAlive p r id) :
    ∃ k, w.store.Holds ⟨r,id,k⟩ := by
  rcases hsure with ⟨x,hx,rfl,rfl⟩ | ⟨rfl,hid⟩
  · exact ⟨x.holder,(h.registersHeld.held x hx).1⟩
  · exact ⟨_,h.inWorld.kept id hid⟩

theorem alive (h : p.Fits g w) {r : RegistryId} {id : EntryId} (hsure : g.SurelyAlive p r id) :
    w.store.isAlive r id = true := by
  obtain ⟨k,hk⟩ := h.holds_of_surelyAlive hsure
  exact hk.isAlive

end HandlePlace.Fits

end Workers
