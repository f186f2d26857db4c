import Workers.Proofs.Roundtrip.Service
/-! # Objects that are loaded, adopted and handed out

Each operation on the way of a value through a worker succeeds as long as the entries are alive: loading
gives the values that the objects stand for, a worker that adopts objects keeps what they name, and the
values that it returns become objects for the same values.
-/
namespace Workers

def Stored.toValue : Stored → Value
  | .nil => .nil
  | .boolean b => .boolean b
  | .integer i => .integer i
  | .float x => .float x
  | .string s => .string s
  | .function f => .function f
  | .shared h => .shared h.entry

@[simp] theorem Stored.toValue_weakened (object : Stored) :
    object.weakened.toValue = object.toValue := by
  cases object <;> rfl

@[simp] theorem Stored.shares_weakened (object : Stored) : object.weakened.shares = 0 := by
  cases object with
  | shared handle =>
    rw [Stored.weakened, Stored.shares_shared]
    exact TableHandle.share_of_weak Bool.false_ne_true
  | nil | boolean | integer | float | string | function => rfl

def Local (r : RegistryId) (objects : List Stored) : Prop :=
  ∀ handle, Stored.shared handle ∈ objects → handle.registry = r

/-- Objects of a registry that stand for values, without references of their own. -/
structure Tokens (r : RegistryId) (us : List Value) (objects : List Stored) : Prop where
  values : objects.map Stored.toValue = us
  home : Local r objects
  weak : ∀ handle, Stored.shared handle ∈ objects → handle.strong = false

section Tokens

variable {r : RegistryId} {us : List Value} {objects : List Stored} {object : Stored}

theorem Tokens.nil (r : RegistryId) : Tokens r [] [] := ⟨rfl,nofun,nofun⟩

theorem Tokens.named (h : Tokens r us objects) {handle : TableHandle} (hmem : .shared handle ∈ objects) :
    .shared handle.entry ∈ us := by
  rw [← h.values]
  exact List.mem_map.mpr ⟨_,hmem,rfl⟩

theorem Tokens.shares_eq (h : Tokens r us objects) : (objects.map Stored.shares).sum = 0 := by
  refine List.sum_eq_zero fun m hm => ?_
  obtain ⟨object,hmem,rfl⟩ := List.mem_map.mp hm
  cases object with
  | shared handle =>
    have hweak := h.weak handle hmem
    rw [Stored.shares_shared, TableHandle.share_of_weak (by simp [hweak])]
  | nil | boolean | integer | float | string | function => rfl

theorem Tokens.drop_eq (h : Tokens r us objects) (s : Store) : s.drop objects = s := by
  unfold Store.drop
  induction objects generalizing us with
  | nil => exact Store.settle_nil s
  | cons object rest ih =>
    have hrest := ih ⟨rfl,fun handle hmem => h.home handle (List.mem_cons_of_mem object hmem),
      fun handle hmem => h.weak handle (List.mem_cons_of_mem object hmem)⟩
    cases object with
    | shared handle =>
      have hweak : ¬ handle.strong = true := by simp [h.weak handle List.mem_cons_self]
      exact (Store.settle_cons_weak s hweak _).trans hrest
    | nil | boolean | integer | float | string | function => exact hrest

theorem Tokens.cons {u : Value} (h : Tokens r us objects) (hvalue : object.toValue = u)
    (hhome : ∀ handle, object = .shared handle → handle.registry = r) :
    Tokens r (u :: us) (object.weakened :: objects) where
  values := by rw [List.map_cons, Stored.toValue_weakened, hvalue, h.values]
  home handle hmem := by
    rcases List.mem_cons.mp hmem with heq | hmem
    · cases object with
      | shared g =>
        cases heq
        exact hhome g rfl
      | nil | boolean | integer | float | string | function => cases heq
    · exact h.home handle hmem
  weak handle hmem := by
    rcases List.mem_cons.mp hmem with heq | hmem
    · cases object with
      | shared g =>
        cases heq
        rfl
      | nil | boolean | integer | float | string | function => cases heq
    · exact h.weak handle hmem

/-- Objects whose references have been taken over. -/
theorem tokens_weakened (hvalues : objects.map Stored.toValue = us) (hhome : Local r objects) :
    Tokens r us (objects.map Stored.weakened) := by
  induction objects generalizing us with
  | nil =>
    obtain rfl : [] = us := hvalues
    exact .nil r
  | cons object rest ih =>
    obtain rfl : (object :: rest).map Stored.toValue = us := hvalues
    exact (ih rfl fun handle hmem => hhome handle (List.mem_cons_of_mem object hmem)).cons rfl
      fun handle heq => hhome handle (heq ▸ List.mem_cons_self)

end Tokens

theorem Context.load_eq {c : Context} {s : Store} {object : Stored}
    (hlive : ∀ handle, object = .shared handle → handle.registry = c.registry ∧
      s.isAlive c.registry handle.entry = true) :
    ∃ c' t, c.load s object = .ok (object.toValue,c',t) := by
  cases object with
  | shared handle =>
    obtain ⟨hregistry,halive⟩ := hlive handle rfl
    simp only [load, Stored.checkRegistry, if_pos hregistry, Except.bind, addReference]
    split
    · exact ⟨_,_,rfl⟩
    · obtain ⟨t,ht⟩ := Store.addReference_of_alive halive c.holder
      rw [ht]
      exact ⟨_,_,rfl⟩
  | nil | boolean | integer | float | string | function => exact ⟨c,s,rfl⟩

namespace World

variable {w w' w'' : World} {h : WorkerId} {c : ContextId} {r : RegistryId} {us : List Value}
    {objects : List Stored}
variable {object : Stored} {out : Multiset Share}

structure ChecksOut (w : World) (c : ContextId) (w' : World) : Prop where
  eq : ∃ s references, w' = (w.setStore s).setContext c { w.context c with references }
  keeps : w.store.Keeps w'.store
  moves : ∀ out, Moves w out w' out

theorem ChecksOut.refl (w : World) (c : ContextId) : w.ChecksOut c w :=
  ⟨⟨w.store,(w.context c).references,(World.setContext_self w c).symm⟩,.refl _,.refl w⟩

theorem ChecksOut.context (hf : w.ChecksOut c w') (hc : c < w.contexts.size) :
    ∃ references, w'.context c = { w.context c with references } := by
  obtain ⟨s,references,rfl⟩ := hf.eq
  exact ⟨references,context_setContext_self (w := w.setStore s) hc _⟩

theorem setContext_setContext (w : World) (c : ContextId) (first second : Context) :
    (w.setContext c first).setContext c second = w.setContext c second := by
  have hmodify : ((w.contexts.modify c fun _ => first).modify c fun _ => second) =
      w.contexts.modify c fun _ => second := by
    apply Array.ext_getElem?
    intro i
    simp only [Array.getElem?_modify]
    split <;> simp [Function.comp_def]
  simp [setContext, hmodify]

theorem ChecksOut.trans (hf : w.ChecksOut c w') (hf' : w'.ChecksOut c w'')
    (hc : c < w.contexts.size) : w.ChecksOut c w'' := by
  refine ⟨?_,hf.keeps.trans hf'.keeps,fun out => (hf.moves out).trans (hf'.moves out)⟩
  obtain ⟨references,hcontext⟩ := hf.context hc
  obtain ⟨s,first,rfl⟩ := hf.eq
  obtain ⟨t,second,rfl⟩ := hf'.eq
  refine ⟨t,second,?_⟩
  rw [hcontext]
  exact setContext_setContext (w.setStore t) c _ _

/-- All objects are loaded if their entries are alive. -/
theorem loadAll_eq (hc : c < w.contexts.size)
    (hlive : ∀ handle, Stored.shared handle ∈ objects → handle.registry = (w.context c).registry ∧
      w.store.isAlive (w.context c).registry handle.entry = true) :
    ∃ w', w.loadAll c objects = (.ok (objects.map Stored.toValue),w') ∧ w.ChecksOut c w' := by
  induction objects generalizing w with
  | nil => exact ⟨w,rfl,.refl w c⟩
  | cons object rest ih =>
    obtain ⟨context,s,hload⟩ := Context.load_eq fun handle heq => hlive handle (heq ▸ List.mem_cons_self)
    have hkeeps := Context.keeps_load hload
    have hone : w.ChecksOut c ((w.setStore s).setContext c context) :=
      ⟨⟨s,context.references,by rw [← load_record hload]⟩,hkeeps,fun out => moves_load hc hload out⟩
    obtain ⟨references,hcontext⟩ := hone.context hc
    have hc' : c < ((w.setStore s).setContext c context).contexts.size := by rwa [size_setContext]
    have hrest : ∀ handle, Stored.shared handle ∈ rest →
        handle.registry = (((w.setStore s).setContext c context).context c).registry ∧
          ((w.setStore s).setContext c context).store.isAlive
            (((w.setStore s).setContext c context).context c).registry handle.entry = true := by
      intro handle hmem
      rw [hcontext, hone.keeps.isAlive]
      exact hlive handle (List.mem_cons_of_mem object hmem)
    obtain ⟨w',hall,hchecks⟩ := ih hc' hrest
    refine ⟨w',?_,hone.trans hchecks hc⟩
    rw [loadAll, hload]
    simp only [hall]
    rfl

structure AdoptsEntries (w : World) (h : WorkerId) (w' : World) : Prop where
  eq : ∃ s references, w' = (w.setHandle h { w.handle h with references }).setStore s
  kept : ∀ id ∈ (w.handle h).references, id ∈ (w'.handle h).references
  onlyRemoves : w.store.OnlyRemoves w'.store

theorem setHandle_self (w : World) (h : WorkerId) : w.setHandle h (w.handle h) = w := by
  have hmodify : (w.handles.modify h fun _ => w.handle h) = w.handles := by
    apply Array.ext_getElem?
    intro i
    rw [Array.getElem?_modify]
    split
    · rename_i hi
      subst hi
      cases hc : w.handles[h]? <;> simp [World.handle, hc]
    · rfl
  simp [setHandle, hmodify]

theorem AdoptsEntries.of_store {s : Store} (hremoves : w.store.OnlyRemoves s) :
    w.AdoptsEntries h (w.setStore s) :=
  ⟨⟨s,(w.handle h).references,by rw [setHandle_self]⟩,fun _ hid => hid,hremoves⟩

theorem AdoptsEntries.refl (w : World) (h : WorkerId) : w.AdoptsEntries h w := .of_store (.refl w.store)

theorem AdoptsEntries.handle (ht : w.AdoptsEntries h w') (hh : h < w.handles.size) :
    ∃ references, w'.handle h = { w.handle h with references } := by
  obtain ⟨s,references,rfl⟩ := ht.eq
  exact ⟨references,handle_setHandle_self hh _⟩

theorem AdoptsEntries.size_eq (ht : w.AdoptsEntries h w') : w'.handles.size = w.handles.size := by
  obtain ⟨s,references,rfl⟩ := ht.eq
  exact size_setHandle w h _

theorem AdoptsEntries.trans (ht : w.AdoptsEntries h w') (ht' : w'.AdoptsEntries h w'')
    (hh : h < w.handles.size) : w.AdoptsEntries h w'' := by
  refine ⟨?_,fun id hid => ht'.kept id (ht.kept id hid),ht.onlyRemoves.trans ht'.onlyRemoves⟩
  obtain ⟨references,hhandle⟩ := ht.handle hh
  obtain ⟨s,first,rfl⟩ := ht.eq
  obtain ⟨t,second,rfl⟩ := ht'.eq
  refine ⟨t,second,?_⟩
  rw [hhandle]
  exact setHandle_setHandle (w.setStore t) h _ _

theorem addReference_eq (hh : h < w.handles.size) {id : EntryId}
    (halive : w.store.isAlive (w.handle h).registry id = true) :
    ∃ w', w.addReference h id = .ok w' ∧ w.AdoptsEntries h w' ∧ id ∈ (w'.handle h).references := by
  unfold addReference
  simp only
  split
  · rename_i hid
    exact ⟨w,rfl,.refl w h,hid⟩
  · obtain ⟨s,hs⟩ := Store.addReference_of_alive halive (w.handle h).holder
    have hhandle : ∀ references, ((w.setStore s).setHandle h { w.handle h with references }).handle h =
        { w.handle h with references } :=
        fun references => handle_setHandle_self (w := w.setStore s) hh _
    rw [hs]
    refine ⟨_,rfl,⟨⟨s,_,rfl⟩,fun id' hid' => ?_,(Store.keeps_addReference hs).onlyRemoves⟩,?_⟩
    · rw [hhandle]
      exact List.mem_append_left [id] hid'
    · rw [hhandle]
      exact List.mem_append_right _ (List.mem_singleton.mpr rfl)

/-- A worker adopts an object whose entry is alive, and the object gives up its reference. -/
theorem adopt_eq (hh : h < w.handles.size)
    (hlive : ∀ handle, object = .shared handle → handle.registry = (w.handle h).registry ∧
      w.store.isAlive (w.handle h).registry handle.entry = true) :
    ∃ w', w.adopt h object = (.ok object.weakened,w') ∧ w.AdoptsEntries h w' ∧
      ∀ handle, object = .shared handle → handle.entry ∈ (w'.handle h).references := by
  cases object with
  | shared handle =>
    obtain ⟨hregistry,halive⟩ := hlive handle rfl
    obtain ⟨u,hu,htakes,hid⟩ := addReference_eq hh halive
    have hsize : h < u.handles.size := by rwa [htakes.size_eq]
    refine ⟨_,Code.adopt_of_secure (by rw [secure_of_shared, if_pos hregistry, hu]),
      htakes.trans (.of_store (Store.onlyRemoves_settle _ _)) hh,?_⟩
    rintro _ ⟨⟩
    exact hid
  | nil | boolean | integer | float | string | function => exact ⟨w,rfl,.refl w h,(by simp)⟩

theorem Accounted.live_of_object (hw : w.Accounted out) {handle : TableHandle}
    (hstrong : handle.strong = true) (hout : (Stored.shared handle).shares ≤ out) :
    w.store.isAlive handle.registry handle.entry = true := by
  have hshare : (⟨handle.registry,handle.entry,handle.holder⟩ : Share) ∈
      (Stored.shared handle).shares := by
    rw [Stored.shares_shared, TableHandle.share_of_strong hstrong]
    exact Multiset.mem_singleton_self _
  exact hw.live_of_out (Multiset.mem_of_le hout hshare)

/-- A worker adopts strong objects in order, however many of them name one entry. -/
theorem adoptAll_eq (hh : h < w.handles.size) (hown : (w.handle h).owners ≠ 0) (n : ℕ)
    (hhome : Local (w.handle h).registry objects)
    (hstrong : ∀ handle, .shared handle ∈ objects → handle.strong = true)
    (hw : w.Accounted ((objects.map Stored.shares).sum + out)) :
    ∃ w', w.adoptAll h n objects = (.ok (objects.map Stored.weakened),w') ∧ w.AdoptsEntries h w' ∧
      (∀ handle, .shared handle ∈ objects → handle.entry ∈ (w'.handle h).references) ∧
      w'.Accounted out := by
  induction objects generalizing w n with
  | nil => exact ⟨w,rfl,.refl w h,nofun,by simpa using hw⟩
  | cons object rest ih =>
    rw [List.map_cons, List.sum_cons, add_assoc] at hw
    have hlive : ∀ handle, object = .shared handle →
        handle.registry = (w.handle h).registry ∧
          w.store.isAlive (w.handle h).registry handle.entry = true := by
      rintro handle rfl
      have hregistry := hhome handle List.mem_cons_self
      have halive := hw.live_of_object (hstrong handle List.mem_cons_self) (Multiset.le_add_right _ _)
      rw [hregistry] at halive
      exact ⟨hregistry,halive⟩
    obtain ⟨u,hu,htakes,hentry⟩ := adopt_eq hh hlive
    have hmoves := moves_adopt hh hown object ((rest.map Stored.shares).sum + out)
    rw [hu, granted_ok, Stored.shares_weakened, zero_add] at hmoves
    obtain ⟨references,hhandle⟩ := htakes.handle hh
    have hsize : h < u.handles.size := by rwa [htakes.size_eq]
    have hregistry : (u.handle h).registry = (w.handle h).registry := by rw [hhandle]
    have howners : (u.handle h).owners ≠ 0 := by rwa [hhandle]
    have hhome' : Local (u.handle h).registry rest := fun handle hmem =>
      (hhome handle (List.mem_cons_of_mem object hmem)).trans hregistry.symm
    obtain ⟨w',hall,htakes',hentries,hout⟩ := ih hsize howners (n + 1) hhome'
      (fun handle hmem => hstrong handle (List.mem_cons_of_mem object hmem)) (hmoves.accounted hw)
    refine ⟨w',?_,htakes.trans htakes' hh,fun handle hmem => ?_,hout⟩
    · rw [adoptAll, hu]
      simp only [hall]
      rfl
    · rcases List.mem_cons.mp hmem with heq | hmem
      · exact htakes'.kept _ (hentry handle heq.symm)
      · exact hentries handle hmem

theorem KeepsEntries.adoptsEntries (hw : w.KeepsEntries h r us) (ht : w.AdoptsEntries h w')
    (hout : ∃ out, w'.Accounted out) : w'.KeepsEntries h r us where
  range := by rw [ht.size_eq]; exact hw.range
  registry := by
    obtain ⟨references,hhandle⟩ := ht.handle hw.range
    rw [hhandle]
    exact hw.registry
  kept id hid := ht.kept id (hw.kept id hid)
  accounted := hout

end World

theorem Capture.store_scalar {u : Value} {object : Stored} (hu : u.scalar? = some object)
    (c : Capture) (s : Store) (h : Heap) : c.store s h u = (.ok object,c,s) := by
  cases u <;> cases hu <;> simp [Capture.store, Capture.storeValue]

theorem Capture.store_shared (c : Capture) (s : Store) (h : Heap) (id : EntryId) :
    c.store s h (.shared id) =
    match TableHandle.attach s c.registry id with
    | (.ok handle,s) => (.ok (.shared handle),c,s)
    | (.error fault,s) => (.error fault,c,s) := by
  simp only [Capture.store, Capture.storeValue]
  rcases TableHandle.attach s c.registry id with ⟨fault | handle,t⟩ <;> rfl

theorem Value.toValue_scalar {u : Value} {object : Stored} (hu : u.scalar? = some object) :
    object.toValue = u := by
  cases u <;> cases hu <;> rfl

namespace World

variable {w w' : World} {h : WorkerId} {r : RegistryId} {us rest : List Value} {u : Value}
    {out : Multiset Share}

theorem moves_attach (w : World) (r : RegistryId) (id : EntryId) (out : Multiset Share) :
    Moves w out (w.setStore (TableHandle.attach w.store r id).2)
      (granted TableHandle.share (TableHandle.attach w.store r id).1 + out) := by
  refine Moves.of_store (TableHandle.later_attach _ _ _) (fun hhandles => OfHandles.add ?_ hhandles)
    fun others hb => ?_
  · cases (TableHandle.attach w.store r id).1 with
    | error fault => exact fun x hx => by simp at hx
    | ok handle =>
      have hhandles := ofHandles_object (.shared handle)
      rwa [Stored.shares_shared] at hhandles
  · rw [add_assoc]
    exact TableHandle.balanced_attach hb id

/-- A value that is no local table becomes an object, and nothing else comes of it. -/
theorem captures_eq (hforeign : ∀ cell, u ≠ .table cell)
    (halive : ∀ id, u = .shared id → w.store.isAlive r id = true) (out : Multiset Share) :
    ∃ object s, ({ registry := r } : Capture).store w.store w.memory.heap u =
        (.ok object,{ registry := r },s) ∧ object.toValue = u ∧
      (∀ handle, object = .shared handle → handle.registry = r) ∧ w.store.Keeps s ∧
      Moves w out (w.setStore s) (object.shares + out) := by
  cases hu : u.scalar? with
  | some object =>
    refine ⟨object,w.store,Capture.store_scalar hu _ _ _,Value.toValue_scalar hu,?_,.refl _,?_⟩
    · rintro handle rfl
      cases u <;> cases hu
    · have hshares : object.shares = 0 := by cases u <;> cases hu <;> rfl
      rw [hshares, zero_add]
      exact .refl w out
  | none =>
    cases u with
    | table cell => exact absurd rfl (hforeign cell)
    | shared id =>
      obtain ⟨number,t,hattach,hkeeps⟩ := TableHandle.attach_of_alive (halive id rfl)
      have hmoves := moves_attach w r id out
      rw [hattach, granted_ok, ← Stored.shares_shared] at hmoves
      refine ⟨.shared { entry := id, number, registry := r, strong := true },t,?_,rfl,?_,hkeeps,hmoves⟩
      · rw [Capture.store_shared, hattach]
      · rintro _ ⟨⟩
        rfl
    | nil | boolean | integer | float | string | function => cases hu

/-- The values that a worker returns become objects that it keeps, if it has kept what they name. -/
theorem collect_eq (hw : w.KeepsEntries h r us) (hown : (w.handle h).owners ≠ 0)
    (done : List Stored) (hrest : ∀ u ∈ rest, u ∈ us) (hforeign : ∀ cell, Value.table cell ∉ rest) :
    ∃ results w', w.collect h { registry := r } done rest = (.ok (done ++ results),w') ∧
    Tokens r rest results ∧
      w.AdoptsEntries h w' ∧ w'.KeepsEntries h r us := by
  induction rest generalizing w done with
  | nil =>
    have hfinish : ({ registry := r } : Capture).finish w.store = w.store := Store.settle_nil _
    refine ⟨[],w,?_,.nil r,.refl w h,hw⟩
    rw [collect, hfinish, List.append_nil]
    rfl
  | cons u rest ih =>
    obtain ⟨out,hout⟩ := hw.accounted
    have hplain : ∀ cell, u ≠ .table cell := fun cell heq => hforeign cell (heq ▸ List.mem_cons_self)
    have halive : ∀ id, u = .shared id → w.store.isAlive r id = true := fun id heq =>
      hw.alive (heq ▸ hrest u List.mem_cons_self)
    obtain ⟨object,s,hstore,hvalue,hhome,hkeeps,hmoves⟩ := captures_eq hplain halive out
    have hlive : ∀ handle, object = .shared handle →
      handle.registry = ((w.setStore s).handle h).registry ∧
        (w.setStore s).store.isAlive ((w.setStore s).handle h).registry handle.entry = true := by
      rintro handle rfl
      change handle.registry = (w.handle h).registry ∧
        s.isAlive (w.handle h).registry handle.entry = true
      rw [hw.registry, hkeeps.isAlive]
      exact ⟨hhome handle rfl,halive handle.entry hvalue.symm⟩
    obtain ⟨w₁,hadopt,htakes,_⟩ := adopt_eq (w := w.setStore s) (h := h) hw.range hlive
    have hmoved := moves_adopt (w := w.setStore s) (h := h) hw.range hown object out
    rw [hadopt, granted_ok, Stored.shares_weakened, zero_add] at hmoved
    have htaken : w.AdoptsEntries h w₁ :=
      AdoptsEntries.trans (.of_store hkeeps.onlyRemoves) htakes hw.range
    have hw₁ : w₁.KeepsEntries h r us :=
      hw.adoptsEntries htaken ⟨out,hmoved.accounted (hmoves.accounted hout)⟩
    have hown₁ : (w₁.handle h).owners ≠ 0 := by
      obtain ⟨references,hhandle⟩ := htaken.handle hw.range
      rwa [hhandle]
    obtain ⟨results,w',hall,htokens,htakes',hw'⟩ := ih hw₁ hown₁ (done ++ [object.weakened])
      (fun v hv => hrest v (List.mem_cons_of_mem u hv)) fun cell hmem =>
      hforeign cell (List.mem_cons_of_mem u hmem)
    refine ⟨object.weakened :: results,w',?_,htokens.cons hvalue hhome,htaken.trans htakes' hw.range,hw'⟩
    rw [collect, hstore]
    simp only [hadopt]
    rw [hall, List.append_assoc]
    rfl

end World

/-- Copies of objects whose entries are alive name the same entries, and are strong. -/
theorem Stored.copyAll_eq {s : Store} {r : RegistryId} {objects : List Stored}
    (hhome : Local r objects)
    (halive : ∀ handle, .shared handle ∈ objects → s.isAlive r handle.entry = true) :
    ∃ copies t, copyAll s objects = (copies,t) ∧ copies.map toValue = objects.map toValue ∧
    Local r copies ∧
      s.Keeps t ∧ ∀ handle, .shared handle ∈ copies → t.isAlive r handle.entry = true := by
  induction objects generalizing s with
  | nil => exact ⟨[],s,rfl,rfl,(fun _ hmem => by cases hmem),.refl s,fun _ hmem => by cases hmem⟩
  | cons object rest ih =>
    have hcopy : ∃ copied t, object.copy s = (copied,t) ∧ copied.toValue = object.toValue ∧ s.Keeps t ∧
        ∀ handle, copied = .shared handle → handle.registry = r ∧ s.isAlive r handle.entry = true := by
      cases object with
      | shared handle =>
        have hregistry := hhome handle List.mem_cons_self
        have hlive := halive handle List.mem_cons_self
        rw [← hregistry] at hlive
        obtain ⟨number,t,hcopy,hkeeps⟩ := TableHandle.copy_of_alive hlive
        refine ⟨.shared { entry := handle.entry, number, registry := handle.registry, strong := true },t,
          by rw [copy, hcopy],rfl,hkeeps,?_⟩
        rintro _ ⟨⟩
        exact ⟨hregistry,halive handle List.mem_cons_self⟩
      | nil | boolean | integer | float | string | function => exact ⟨_,s,rfl,rfl,.refl s,(by simp)⟩
    obtain ⟨copied,t,hone,hvalue,hkeeps,hlive⟩ := hcopy
    obtain ⟨copies,u,hall,hvalues,hhome',hkeeps',hlive'⟩ := ih (s := t)
      (fun handle hmem => hhome handle (List.mem_cons_of_mem object hmem)) fun handle hmem => by
        rw [hkeeps.isAlive]
        exact halive handle (List.mem_cons_of_mem object hmem)
    refine ⟨copied :: copies,u,?_,?_,fun handle hmem => ?_,hkeeps.trans hkeeps',fun handle hmem => ?_⟩
    · rw [copyAll, hone]
      simp only [hall]
    · rw [List.map_cons, List.map_cons, hvalue, hvalues]
    · rcases List.mem_cons.mp hmem with heq | hmem
      · exact (hlive handle heq.symm).1
      · exact hhome' handle hmem
    · rcases List.mem_cons.mp hmem with heq | hmem
      · rw [hkeeps'.isAlive, hkeeps.isAlive]
        exact (hlive handle heq.symm).2
      · exact hlive' handle hmem

end Workers
