import Workers.Proofs.Capture.Extends
import Workers.Proofs.Capture.Refusals
import Workers.Proofs.Ledger.Dropped
/-! # What storing comes to

A capture stores exactly what can be stored, whatever it has stored before: what it remembers can be
stored, and what failures have left on its path cannot.  Where all tables can be read and all shared
ones are alive, that leaves the cycles to be refused.
-/
namespace Workers

/-- The shared tables of a graph are alive in both stores, or have been freed. -/
def Heap.AliveAlike (h : Heap) (vs : List Value) (r : RegistryId) (s t : Store) : Prop :=
  ∀ id, h.Occurs vs (.shared id) →
    s.isAlive r id = true ∧ t.isAlive r id = true ∨ s.isAlive r id = false ∧ t.Spent r id

/-- Some local table that a value leads to lies on a cycle of local tables. -/
def Heap.Cyclic (h : Heap) (v : Value) : Prop :=
  ∃ c, h.Occurs [v] (.table c) ∧ Relation.TransGen h.Edge c c

namespace Capture

variable {h : Heap} {vs : List Value} {s t : Store} {r : RegistryId} {path : List CellId}
    {p p' : Progress}
variable {v : Value} {c : CellId}

def Remembers (h : Heap) (s : Store) (r : RegistryId) (captured : List (CellId × TableHandle)) : Prop :=
  ∀ c handle, captured.lookup c = some handle → h.Storable [.table c] s r

structure StoreAgrees (h : Heap) (vs : List Value) (s : Store) (r : RegistryId) (t : Store) : Prop where
  size : r < t.registries.size
  sound : ∀ q, (t.arena q).Sound
  aliveAlike : h.AliveAlike vs r s t

structure Refused (h : Heap) (s : Store) (r : RegistryId) (path : List CellId) (v : Value)
    (refusal : Refusal) (p' : Progress) : Prop where
  not_storable : ¬ h.Storable [v] s r
  descentFault : h.DescentFault s r path v refusal.fault
  /-- What it leaves on the path cannot be stored either. -/
  left : ∀ d ∈ refusal.path, d ∈ path ∨ ¬ h.Storable [.table d] s r
  remembers : Remembers h s r p'.captured

def ValueOutcome (h : Heap) (vs : List Value) (s : Store) (r : RegistryId) (path : List CellId)
    (p : Progress) (v : Value) (o : Except Refusal Stored) (p' : Progress) : Prop :=
  h.Occurs vs v → h.PathUnstorable s r path v → Remembers h s r p.captured →
  StoreAgrees h vs s r p.store →
    match o with
    | .ok _ => h.Storable [v] s r ∧ Remembers h s r p'.captured ∧ StoreAgrees h vs s r p'.store
    | .error refusal => Refused h s r path v refusal p'

def EntriesOutcome (h : Heap) (vs : List Value) (s : Store) (r : RegistryId) (path : List CellId)
    (p : Progress) (_ : SharedTable) (es : List (Key × Value)) (o : Except Refusal SharedTable)
    (p' : Progress) : Prop :=
  (∀ e ∈ es, h.Occurs vs e.2 ∧ h.PathUnstorable s r path e.2) → Remembers h s r p.captured →
  StoreAgrees h vs s r p.store →
    match o with
    | .ok _ =>
      (∀ e ∈ es, h.Storable [e.2] s r) ∧ Remembers h s r p'.captured ∧ StoreAgrees h vs s r p'.store
    | .error refusal => ∃ v, h.FirstUnstorable s r (es.map Prod.snd) v ∧ Refused h s r path v refusal p'

theorem StoreAgrees.extends (ht : StoreAgrees h vs s r t) {u : Store} (hu : t.Extends u) :
    StoreAgrees h vs s r u where
  size := by
    rw [hu.later.size_eq]
    exact ht.size
  sound := (hu.grows ht.sound).1
  aliveAlike id hid := by
    rcases ht.aliveAlike id hid with ⟨hs,halive⟩ | ⟨hs,hspent⟩
    · exact .inl ⟨hs,hu.alive ht.sound halive⟩
    · exact .inr ⟨hs,hu.spent hspent⟩

theorem attach_storeOutcome (ht : StoreAgrees h vs s r t) {id : EntryId}
    (hid : h.Occurs vs (.shared id)) :
    (∃ handle, (TableHandle.attach t r id).1 = .ok handle) ∧ h.Storable [.shared id] s r ∨
      (TableHandle.attach t r id).1 = .error .brokenReference ∧ s.isAlive r id = false := by
  rcases ht.aliveAlike id hid with ⟨hs,halive⟩ | ⟨hs,hspent⟩
  · obtain ⟨number,u,hattach,_⟩ := TableHandle.attach_of_alive halive
    refine .inl ⟨⟨_,by rw [hattach]⟩,Heap.storable_shared.mpr hs⟩
  · exact .inr ⟨TableHandle.attach_of_dead hspent.not_alive,hs⟩

theorem slots_storeOutcome {table : LocalTable} (hoccurs : h.Occurs vs (.table c))
    (hturned : h.PathUnstorable s r path (.table c)) (hread : h.read c = .ok table) :
    ∀ e ∈ table.entries, h.Occurs vs e.2 ∧ h.PathUnstorable s r (c :: path) e.2 := by
  intro e he
  have hmem : e.2 ∈ table.values := List.mem_map.mpr ⟨e,he,rfl⟩
  exact ⟨.slot hoccurs hread hmem,hturned.slot hread hmem⟩

theorem storeOutcome_attached {id : EntryId} {handle : TableHandle} {store : Store}
    (ha : TableHandle.attach p.store r id = (.ok handle,store)) :
    ValueOutcome h vs s r path p (.shared id) (.ok (.shared handle)) { p with store } := by
  intro hoccurs _ hmemo hagrees
  have hextends := TableHandle.extends_attach p.store r id
  have hcases := attach_storeOutcome hagrees hoccurs
  rw [ha] at hextends hcases
  rcases hcases with ⟨_,hstorable⟩ | ⟨hbroken,_⟩
  · exact ⟨hstorable,hmemo,hagrees.extends hextends⟩
  · cases hbroken

theorem storeOutcome_broken {id : EntryId} {fault : Fault} {store : Store}
    (ha : TableHandle.attach p.store r id = (.error fault,store)) :
    ValueOutcome h vs s r path p (.shared id) (.error ⟨fault,path⟩) { p with store } := by
  intro hoccurs _ hmemo hagrees
  have hcases := attach_storeOutcome hagrees hoccurs
  rw [ha] at hcases
  rcases hcases with ⟨⟨_,hok⟩,_⟩ | ⟨hbroken,hdead⟩
  · cases hok
  · cases hbroken
    refine ⟨fun hstorable => ?_,.broken hdead,fun d hd => .inl hd,hmemo⟩
    rw [Heap.storable_shared.mp hstorable] at hdead
    cases hdead

theorem storeOutcome_cyclic (hc : c ∈ path) :
    ValueOutcome h vs s r path p (.table c) (.error ⟨.cyclicTable,path⟩) p :=
  fun _ hturned hmemo _ => ⟨hturned.not_storable hc,.cyclic hc,fun _ hd => .inl hd,hmemo⟩

theorem storeOutcome_again {handle : TableHandle} (hl : p.captured.lookup c = some handle) :
    ValueOutcome h vs s r path p (.table c) (.ok (.shared (handle.copy p.store).1))
      { p with store := (handle.copy p.store).2 } :=
  fun _ _ hmemo hagrees => ⟨hmemo c handle hl,hmemo,
    hagrees.extends (TableHandle.extends_copy p.store handle)⟩

theorem storeOutcome_unreadable {fault : Fault} (hc : c ∉ path) (hread : h.read c = .error fault) :
    ValueOutcome h vs s r path p (.table c) (.error ⟨fault,c :: path⟩) p := by
  intro _ _ hmemo _
  have hnot : ¬ h.Storable [.table c] s r := by
    intro hstorable
    obtain ⟨table,hread'⟩ := hstorable.readable c (.root List.mem_cons_self)
    rw [hread] at hread'
    cases hread'
  refine ⟨hnot,.unreadable hc hread,fun d hd => ?_,hmemo⟩
  rcases List.mem_cons.mp hd with rfl | hd
  · exact .inr hnot
  · exact .inl hd

/-- A table is refused with the first of its values that is. -/
theorem storeOutcome_refused {table : LocalTable} {refusal : Refusal} (hc : c ∉ path)
    (hread : h.read c = .ok table)
    (hentries : EntriesOutcome h vs s r (c :: path) p .empty table.entries (.error refusal) p') :
    ValueOutcome h vs s r path p (.table c) (.error refusal) p' := by
  intro hoccurs hturned hmemo hagrees
  obtain ⟨v,hunstorable,hv⟩ := hentries (slots_storeOutcome hoccurs hturned hread) hmemo hagrees
  have hnot : ¬ h.Storable [.table c] s r :=
    fun hstorable => hunstorable.not_storable
      ((Heap.storable_table hread).mp hstorable v hunstorable.mem)
  refine ⟨hnot,.slot hc hread hunstorable hv.descentFault,fun d hd => ?_,hv.remembers⟩
  rcases hv.left d hd with hd | hd
  · rcases List.mem_cons.mp hd with rfl | hd
    · exact .inr hnot
    · exact .inl hd
  · exact .inr hd

/-- A table all of whose values have been stored can be stored, and is remembered from now on. -/
theorem storeOutcome_copied {table : LocalTable} {shared : SharedTable}
    {handle kept : TableHandle} {store store' : Store} (hread : h.read c = .ok table)
    (hentries : EntriesOutcome h vs s r (c :: path) p .empty table.entries (.ok shared) p')
    (hcreate : TableHandle.create p'.store r shared = (handle,store))
    (hcopy : handle.copy store = (kept,store')) :
    ValueOutcome h vs s r path p (.table c) (.ok (.shared handle))
      ⟨store',(c,kept) :: p'.captured⟩ := by
  intro hoccurs hturned hmemo hagrees
  obtain ⟨hslots,hmemo',hagrees'⟩ := hentries (slots_storeOutcome hoccurs hturned hread) hmemo hagrees
  have hstorable : h.Storable [.table c] s r := by
    refine (Heap.storable_table hread).mpr fun v hv => ?_
    obtain ⟨e,he,rfl⟩ := List.mem_map.mp hv
    exact hslots e he
  have hcreated := TableHandle.extends_create p'.store r shared
  rw [hcreate] at hcreated
  have hcopied := TableHandle.extends_copy store handle
  rw [hcopy] at hcopied
  refine ⟨hstorable,fun d found hl => ?_,hagrees'.extends (hcreated.trans hcopied)⟩
  rw [List.lookup_cons] at hl
  split at hl
  · rename_i hd
    rw [beq_iff_eq.mp hd]
    exact hstorable
  · exact hmemo' d found hl

theorem storeOutcome_next {p'' : Progress} {done : SharedTable} {key : Key}
    {rest : List (Key × Value)} {object : Stored} {outcome : Except Refusal SharedTable}
    (hvalue : ValueOutcome h vs s r path p v (.ok object) p')
    (hrest : EntriesOutcome h vs s r path p' (done.insert key object) rest outcome p'') :
    EntriesOutcome h vs s r path p done ((key,v) :: rest) outcome p'' := by
  intro hes hmemo hagrees
  obtain ⟨⟨hoccurs,hturned⟩,hes⟩ := List.forall_mem_cons.mp hes
  obtain ⟨hstorable,hmemo',hagrees'⟩ := hvalue hoccurs hturned hmemo hagrees
  have houtcome := hrest hes hmemo' hagrees'
  cases outcome with
  | ok shared => exact ⟨List.forall_mem_cons.mpr ⟨hstorable,houtcome.1⟩,houtcome.2⟩
  | error refusal =>
    obtain ⟨u,hunstorable,hu⟩ := houtcome
    exact ⟨u,Heap.firstUnstorable_cons.mpr (.inr ⟨hstorable,hunstorable⟩),hu⟩

/-- Storing stores what can be stored and refuses what cannot, on the first fault in its way. -/
theorem storeOutcome_storeValue (h : Heap) (vs : List Value) (s : Store) (r : RegistryId) :
    (∀ path p v, ValueOutcome h vs s r path p v (storeValue h r path p v).1
      (storeValue h r path p v).2) ∧
      ∀ path p done es, EntriesOutcome h vs s r path p done es (storeEntries h r path p done es).1
        (storeEntries h r path p done es).2 := by
  apply @capture_induction h r (ValueOutcome h vs s r) (EntriesOutcome h vs s r)
  case scalar => exact fun path p v object hobject _ _ hmemo hagrees =>
    ⟨Heap.storable_scalar hobject,hmemo,hagrees⟩
  case attached => exact fun path p id handle store => storeOutcome_attached
  case broken => exact fun path p id fault store => storeOutcome_broken
  case cyclic => exact fun path p c => storeOutcome_cyclic
  case again => exact fun path p c handle _ => storeOutcome_again
  case unreadable => exact fun path p c fault hc _ => storeOutcome_unreadable hc
  case refused => exact fun path p c table refusal p' hc _ hread _ => storeOutcome_refused hc hread
  case copied => exact fun path p c table shared p' handle store kept store' _ _ hread _ =>
    storeOutcome_copied hread
  case complete => exact fun path p done _ hmemo hagrees => ⟨nofun,hmemo,hagrees⟩
  case next => exact fun path p done key v rest object p' outcome p'' _ => storeOutcome_next
  case stuck =>
    intro path p done key v rest refusal p' _ hvalue hes hmemo hagrees
    obtain ⟨⟨hoccurs,hturned⟩,_⟩ := List.forall_mem_cons.mp hes
    have hv := hvalue hoccurs hturned hmemo hagrees
    exact ⟨v,Heap.firstUnstorable_cons.mpr (.inl ⟨hv.not_storable,rfl⟩),hv.not_storable,
      hv.descentFault,hv.left,hv.remembers⟩

structure Consistent (h : Heap) (s : Store) (r : RegistryId) (c : Capture) : Prop where
  registry : c.registry = r
  path : ∀ d ∈ c.path, ¬ h.Storable [.table d] s r
  remembers : Remembers h s r c.captured

theorem consistent_fresh (h : Heap) (s : Store) (r : RegistryId) : Consistent h s r { registry := r } :=
  ⟨rfl,nofun,fun _ _ hl => nomatch hl⟩

/-- What a capture makes of one value. -/
inductive StoreOutcome (h : Heap) (vs : List Value) (s : Store) (r : RegistryId) (c : Capture)
    (v : Value) :
    Except Fault Stored × Capture × Store → Prop
  | stored {object : Stored} {c' : Capture} {t' : Store} (hv : h.Storable [v] s r)
      (hc : Consistent h s r c') (hpath : c'.path = c.path) (ht : StoreAgrees h vs s r t') :
      StoreOutcome h vs s r c v (.ok object,c',t')
  | refused {fault : Fault} {c' : Capture} {t' : Store} (hv : ¬ h.Storable [v] s r)
      (hfinds : h.DescentFault s r c.path v fault) (hc : Consistent h s r c') :
      StoreOutcome h vs s r c v (.error fault,c',t')

theorem storeOutcome_store {c : Capture} (hc : Consistent h s r c) (ht : StoreAgrees h vs s r t)
    (hv : h.Occurs vs v) :
    StoreOutcome h vs s r c v (c.store t h v) := by
  have houtcome := (storeOutcome_storeValue h vs s r).1 c.path ⟨t,c.captured⟩ v hv
    (fun d hd => .inl (hc.path d hd))
    hc.remembers ht
  unfold store
  rw [hc.registry]
  rcases hstore : storeValue h r c.path ⟨t,c.captured⟩ v with ⟨o,p⟩
  rw [hstore] at houtcome
  cases o with
  | ok object =>
    obtain ⟨hstorable,hmemo,hagrees⟩ := houtcome
    exact .stored hstorable ⟨rfl,hc.path,hmemo⟩ rfl hagrees
  | error refusal =>
    refine .refused houtcome.not_storable houtcome.descentFault ⟨rfl,fun d hd => ?_,houtcome.remembers⟩
    rcases houtcome.left d hd with hd | hd
    · exact hc.path d hd
    · exact hd

/-- Values that can be stored are stored one after the other. -/
theorem storeAll_storable {c : Capture} (hc : Consistent h s r c) (ht : StoreAgrees h vs s r t)
    (rest : List Value) (hrest : ∀ v ∈ rest, h.Occurs vs v ∧ h.Storable [v] s r) : ∃ objects c' t',
      c.storeAll t h rest = (.ok objects,c',t') ∧ Consistent h s r c' ∧ c'.path = c.path ∧
      StoreAgrees h vs s r t' := by
  induction rest generalizing c t with
  | nil => exact ⟨[],c,t,rfl,hc,rfl,ht⟩
  | cons v rest ih =>
    obtain ⟨⟨hoccurs,hv⟩,hrest⟩ := List.forall_mem_cons.mp hrest
    have hfirst := storeOutcome_store hc ht hoccurs
    rcases hstore : c.store t h v with ⟨o,c₁,t₁⟩
    rw [hstore] at hfirst
    cases hfirst with
    | refused hnot => exact absurd hv hnot
    | @stored object _ _ _ hc₁ hpath₁ ht₁ =>
      obtain ⟨objects,c',t',hall,hc',hpath',ht'⟩ := ih hc₁ ht₁ hrest
      refine ⟨object :: objects,c',t',?_,hc',hpath'.trans hpath₁,ht'⟩
      simp only [storeAll, hstore, hall]

/-- The first value that fails ends the pass. -/
theorem storeAll_append_error {c c' : Capture} {t' : Store} {front : List Value}
    {objects : List Stored} {fault : Fault} (hfront : c.storeAll t h front = (.ok objects,c',t'))
    (hv : (c'.store t' h v).1 = .error fault) (rest : List Value) :
    (c.storeAll t h (front ++ v :: rest)).1 = .error fault := by
  induction front generalizing c t objects with
  | nil =>
    cases hfront
    simp only [List.nil_append, storeAll]
    split
    · rename_i hstore
      rw [hstore] at hv
      cases hv
      rfl
    · rename_i hstore
      rw [hstore] at hv
      cases hv
  | cons u front ih =>
    simp only [storeAll, List.cons_append] at hfront ⊢
    rcases hstore : c.store t h u with ⟨o,c₁,t₁⟩
    simp only [hstore] at hfront ⊢
    cases o with
    | error fault => cases hfront
    | ok object =>
      rcases hrest : c₁.storeAll t₁ h front with ⟨o,c₂,t₂⟩
      simp only [hrest] at hfront
      cases o with
      | error fault => cases hfront
      | ok objects =>
        cases hfront
        have hlast := ih hrest
        rcases hall : c₁.storeAll t₁ h (front ++ v :: rest) with ⟨o,c₃,t₃⟩
        rw [hall] at hlast
        cases hlast
        simp only [hall]

end Capture

section Cycles

variable {h : Heap} {vs : List Value} {s t : Store} {r : RegistryId} {v : Value}

theorem Heap.storable_iff_not_cyclic
    (hreadable : ∀ c, h.Occurs vs (.table c) → ∃ table, h.read c = .ok table)
    (halive : ∀ id, h.Occurs vs (.shared id) → s.isAlive r id = true) (hv : h.Occurs vs v) :
    h.Storable [v] s r ↔ ¬ h.Cyclic v := by
  constructor
  · rintro hstorable ⟨c,hc,hcycle⟩
    exact hstorable.acyclic c hc hcycle
  · intro hacyclic
    exact ⟨fun c hc hcycle => hacyclic ⟨c,hc,hcycle⟩,fun c hc => hreadable c (hv.trans hc),
      fun id hid => halive id (hv.trans hid)⟩

open Capture

/-- Where all tables can be read and all shared ones are alive, a value is refused for a cycle or
not at all. -/
theorem Capture.store_cyclic_iff {c : Capture} (hc : Consistent h s r c) (hpath : c.path = [])
    (ht : StoreAgrees h vs s r t)
    (hreadable : ∀ c, h.Occurs vs (.table c) → ∃ table, h.read c = .ok table)
    (halive : ∀ id, h.Occurs vs (.shared id) → s.isAlive r id = true) (hv : h.Occurs vs v) :
    ((c.store t h v).1 = .error .cyclicTable ↔ h.Cyclic v) ∧
      ((∃ object, (c.store t h v).1 = .ok object) ↔ ¬ h.Cyclic v) := by
  have hstorable := Heap.storable_iff_not_cyclic hreadable halive hv
  have houtcome := storeOutcome_store hc ht hv
  rcases hstore : c.store t h v with ⟨o,c',t'⟩
  rw [hstore] at houtcome
  cases houtcome with
  | stored hs =>
    have hacyclic := hstorable.mp hs
    simp [hacyclic]
  | refused hs hfinds =>
    rw [hpath] at hfinds
    have hcyclic : h.Cyclic v := Classical.not_not.mp fun hacyclic => hs (hstorable.mpr hacyclic)
    simp [hcyclic, hfinds.eq_cyclicTable hv hreadable halive]

namespace GlobalState

variable {U N : Type} {lib : Library U N} {e : GlobalState}

/-- Whatever has come out of operations and calls, only cycles are refused, and all of them: a value
is refused just when it leads to a table that leads back to itself, and is stored otherwise.  Of
values that are stored one after the other, the first that leads to a cycle is the first that is
refused. -/
theorem only_cycles_refused (he : Arises lib e) (h : Heap) (vs : List Value) (r : RegistryId)
    (hr : r < e.world.store.registries.size)
    (hreadable : ∀ c, h.Occurs vs (.table c) → ∃ table, h.read c = .ok table)
    (halive : ∀ id, h.Occurs vs (.shared id) → e.world.store.isAlive r id = true) :
    let s := e.world.store
    let fresh : Capture := { registry := r }
    (∀ v ∈ vs, ((fresh.store s h v).1 = .error .cyclicTable ↔ h.Cyclic v) ∧
      ((∃ object, (fresh.store s h v).1 = .ok object) ↔ ¬ h.Cyclic v)) ∧
    ((∃ objects, (fresh.storeAll s h vs).1 = .ok objects) ↔ ∀ v ∈ vs, ¬ h.Cyclic v) ∧
    ∀ front v rest, vs = front ++ v :: rest → (∀ u ∈ front, ¬ h.Cyclic u) → h.Cyclic v →
      ∃ objects c t, fresh.storeAll s h front = (.ok objects,c,t) ∧
      (c.store t h v).1 = .error .cyclicTable ∧
        (fresh.storeAll s h vs).1 = .error .cyclicTable := by
  intro s fresh
  have hfresh := consistent_fresh h s r
  have hs : StoreAgrees h vs s r s :=
    ⟨hr,he.accounted.world.balanced.sound,fun id hid => .inl ⟨halive id hid,halive id hid⟩⟩
  have hstorable : ∀ v ∈ vs, h.Storable [v] s r ↔ ¬ h.Cyclic v :=
    fun v hv => Heap.storable_iff_not_cyclic hreadable halive (.root hv)
  have hfirst : ∀ front v rest, vs = front ++ v :: rest → (∀ u ∈ front, ¬ h.Cyclic u) → h.Cyclic v →
      ∃ objects c t, fresh.storeAll s h front = (.ok objects,c,t) ∧
      (c.store t h v).1 = .error .cyclicTable ∧
        (fresh.storeAll s h vs).1 = .error .cyclicTable := by
    intro front v rest hsplit hfront hv
    have hmem : ∀ u ∈ front, u ∈ vs := fun u hu => hsplit ▸ List.mem_append_left _ hu
    obtain ⟨objects,c,t,hall,hc,hpath,ht⟩ := storeAll_storable hfresh hs front
      fun u hu => ⟨.root (hmem u hu),(hstorable u (hmem u hu)).mpr (hfront u hu)⟩
    have hoccurs : h.Occurs vs v := .root (hsplit ▸ by simp)
    have hrefused := (store_cyclic_iff hc hpath ht hreadable halive hoccurs).1.mpr hv
    refine ⟨objects,c,t,hall,hrefused,?_⟩
    rw [hsplit]
    exact storeAll_append_error hall hrefused rest
  refine ⟨fun v hv => store_cyclic_iff hfresh rfl hs hreadable halive (.root hv),
    ⟨?_,fun hacyclic => ?_⟩,hfirst⟩
  · rintro ⟨objects,hok⟩ v hv hcyclic
    have hnot : ¬ ∀ v ∈ vs, h.Storable [v] s r := fun hall => (hstorable v hv).mp (hall v hv) hcyclic
    obtain ⟨u,front,rest,hsplit,hfront,hu⟩ := Heap.exists_firstUnstorable hnot
    have hmem : ∀ w ∈ front, w ∈ vs := fun w hw => hsplit ▸ List.mem_append_left _ hw
    have hu' : h.Cyclic u :=
      Classical.not_not.mp fun hacyclic => hu ((hstorable u (hsplit ▸ by simp)).mpr hacyclic)
    obtain ⟨_,_,_,_,_,herror⟩ :=
      hfirst front u rest hsplit (fun w hw => (hstorable w (hmem w hw)).mp (hfront w hw)) hu'
    rw [herror] at hok
    cases hok
  · obtain ⟨objects,c,t,hall,_⟩ := storeAll_storable hfresh hs vs
      fun v hv => ⟨.root hv,(hstorable v hv).mpr (hacyclic v hv)⟩
    exact ⟨objects,by rw [hall]⟩

end GlobalState

namespace Heap

def sharedAndCyclic : Heap where
  cells :=
    #[{ content := OrderedMap.empty.insert (.integer 1) (.table 1) |>.insert (.integer 2) (.table 1) },
    { content := OrderedMap.empty.insert (.string "t") (.shared ⟨0,0⟩) },
    { content := OrderedMap.empty.insert (.string "self") (.table 2) }]

theorem sharedAndCyclic_read {c : CellId} {table : LocalTable}
    (hread : sharedAndCyclic.read c = .ok table) :
    c = 0 ∧ table.values = [.table 1,.table 1] ∨ c = 1 ∧ table.values = [.shared ⟨0,0⟩] ∨
      c = 2 ∧ table.values = [.table 2] := by
  have hc : c < 3 := lt_size_of_read hread
  have hcases : ∀ n : ℕ, n < 3 → n = 0 ∨ n = 1 ∨ n = 2 := by omega
  obtain rfl | rfl | rfl := hcases c hc
  · cases hread
    exact .inl ⟨rfl,by decide⟩
  · cases hread
    exact .inr (.inl ⟨rfl,by decide⟩)
  · cases hread
    exact .inr (.inr ⟨rfl,by decide⟩)

theorem sharedAndCyclic_edge {c d : CellId} (hedge : sharedAndCyclic.Edge c d) :
    c = 0 ∧ d = 1 ∨ c = 2 ∧ d = 2 := by
  obtain ⟨table,hread,hd⟩ := hedge
  rcases sharedAndCyclic_read hread with ⟨rfl,hvalues⟩ | ⟨rfl,hvalues⟩ | ⟨rfl,hvalues⟩
  · rw [hvalues] at hd
    exact .inl ⟨rfl,by simpa using hd⟩
  · rw [hvalues] at hd
    simp at hd
  · rw [hvalues] at hd
    exact .inr ⟨rfl,by simpa using hd⟩

theorem sharedAndCyclic_occurs {v : Value} (hv : sharedAndCyclic.Occurs [.table 0,.table 2] v) :
    v ∈ [.table 0,.table 1,.table 2,.shared ⟨0,0⟩] := by
  cases hv with
  | root hv =>
    simp at hv
    rcases hv with rfl | rfl <;> simp
  | slot _ hread hv =>
    rcases sharedAndCyclic_read hread with ⟨_,hvalues⟩ | ⟨_,hvalues⟩ | ⟨_,hvalues⟩
    · rw [hvalues] at hv
      simp at hv
      simp [hv]
    · rw [hvalues] at hv
      simp at hv
      simp [hv]
    · rw [hvalues] at hv
      simp at hv
      simp [hv]

theorem sharedAndCyclic_readable {c : CellId}
    (hc : sharedAndCyclic.Occurs [.table 0,.table 2] (.table c)) :
    ∃ table, sharedAndCyclic.read c = .ok table := by
  have hmem := sharedAndCyclic_occurs hc
  obtain rfl | rfl | rfl : c = 0 ∨ c = 1 ∨ c = 2 := by simpa using hmem
  · exact ⟨_,rfl⟩
  · exact ⟨_,rfl⟩
  · exact ⟨_,rfl⟩

theorem sharedAndCyclic_not_cyclic : ¬ sharedAndCyclic.Cyclic (.table 0) := by
  rintro ⟨c,hc,hcycle⟩
  have hreached : ∀ d, Relation.ReflTransGen sharedAndCyclic.Edge 0 d → d = 0 ∨ d = 1 := by
    intro d hd
    induction hd with
    | refl => exact .inl rfl
    | tail _ hedge ih =>
      rcases sharedAndCyclic_edge hedge with ⟨_,rfl⟩ | ⟨rfl,_⟩
      · exact .inr rfl
      · rcases ih with ih | ih <;> cases ih
  have hback := reaches_of_occurs hc c rfl
  obtain ⟨d,hd,hedge⟩ := Relation.TransGen.tail'_iff.mp hcycle
  rcases sharedAndCyclic_edge hedge with ⟨rfl,rfl⟩ | ⟨_,rfl⟩
  · obtain ⟨e,hedge',_⟩ := Relation.TransGen.head'_iff.mp hcycle
    rcases sharedAndCyclic_edge hedge' with ⟨h1,_⟩ | ⟨h1,_⟩ <;> cases h1
  · rcases hreached 2 hback with h2 | h2 <;> cases h2

theorem sharedAndCyclic_cyclic : sharedAndCyclic.Cyclic (.table 2) := by
  have hread : sharedAndCyclic.read 2 = .ok (OrderedMap.empty.insert (.string "self") (.table 2)) := rfl
  exact ⟨2,.root List.mem_cons_self,.single ⟨_,hread,by decide⟩⟩

end Heap

theorem GlobalState.only_cycles_refused_sharedAndCyclic : let e := run [.newPool,.create 0 []]
    let fresh : Capture := { registry := 0 }
    (Arises unloadable e ∧ 0 < e.world.store.registries.size ∧
      (∀ c, Heap.sharedAndCyclic.Occurs [.table 0,.table 2] (.table c) →
        ∃ table, Heap.sharedAndCyclic.read c = .ok table) ∧
      ∀ id, Heap.sharedAndCyclic.Occurs [.table 0,.table 2] (.shared id) →
      e.world.store.isAlive 0 id = true) ∧
    (∃ object, (fresh.store e.world.store Heap.sharedAndCyclic (.table 0)).1 = .ok object) ∧
      (fresh.store e.world.store Heap.sharedAndCyclic (.table 2)).1 = .error .cyclicTable ∧
      (fresh.storeAll e.world.store Heap.sharedAndCyclic [.table 0,.table 2]).1 =
      .error .cyclicTable := by
  intro e fresh
  have harises : Arises unloadable e := arises_run unloadable _
  have hr : 0 < e.world.store.registries.size := by decide
  have hreadable := fun c (hc : Heap.sharedAndCyclic.Occurs [.table 0,.table 2] (.table c)) =>
    Heap.sharedAndCyclic_readable hc
  have halive : ∀ id, Heap.sharedAndCyclic.Occurs [.table 0,.table 2] (.shared id) →
      e.world.store.isAlive 0 id = true := by
    intro id hid
    obtain rfl : id = ⟨0,0⟩ := by simpa using Heap.sharedAndCyclic_occurs hid
    decide
  obtain ⟨heach,_,hfirst⟩ := only_cycles_refused harises Heap.sharedAndCyclic _ 0 hr hreadable halive
  obtain ⟨_,_,_,_,_,hall⟩ := hfirst [.table 0] (.table 2) [] rfl
    (by simpa using Heap.sharedAndCyclic_not_cyclic) Heap.sharedAndCyclic_cyclic
  exact ⟨⟨harises,hr,hreadable,halive⟩,(heach _ (by simp)).2.mpr Heap.sharedAndCyclic_not_cyclic,
    (heach _ (by simp)).1.mpr Heap.sharedAndCyclic_cyclic,hall⟩

end Cycles

end Workers
