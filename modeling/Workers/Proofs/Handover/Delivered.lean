import Workers.Proofs.Capture.Sharing
import Workers.Proofs.Handover.Programs
import Workers.Proofs.Handover.Safe
/-! # What a worker delivers

The results of a worker stand for the values that its routine returned: the same list, with an entry
for each local table.  `Code.Yields` follows code through whatever its calls answer and says what it
has filed and published by its end.  Collecting results files one table for each local table that
the values lead to, and nothing else, before it has a list of results to show.
-/
namespace Workers

def Stored.firm : Stored → Stored
  | .shared h => .shared { h with strong := true }
  | object => object

@[simp] theorem Stored.firm_weakened (object : Stored) : object.weakened.firm = object.firm := by
  cases object <;> rfl

def Stands (r : RegistryId) (names : CellId → EntryId → Prop) (v : Value) (object : Stored) : Prop :=
  Mirrors r names v object.firm

abbrev StandsAll (r : RegistryId) (names : CellId → EntryId → Prop) :
    List (Key × Value) → List (Key × Stored) → Prop :=
  List.Forall₂ fun e f => e.1 = f.1 ∧ Stands r names e.2 f.2

structure Filing where
  registry : RegistryId
  entry : EntryId
  table : SharedTable

/-- The objects stand for the values of a list, and the filings for the local tables that these lead
to: one filing for each table, with the same keys and values. -/
structure Conveyed (h : Heap) (vs : List Value) (r : RegistryId) (filed : List Filing)
    (objects : List Stored) (cells : List CellId) (entry : CellId → EntryId) : Prop where
  nodup : cells.Nodup
  mem_cells : ∀ c, c ∈ cells ↔ h.Occurs vs (.table c)
  roots : List.Forall₂ (Stands r fun c id => entry c = id) vs objects
  filed : List.Forall₂ (fun c (f : Filing) => f.registry = r ∧ f.entry = entry c ∧
      ∃ table, h.read c = .ok table ∧
    StandsAll r (fun c id => entry c = id) table.entries f.table.entries) cells filed

section Stands

variable {r : RegistryId} {names names' : CellId → EntryId → Prop} {v : Value} {object : Stored}

theorem Stands.mono (h : Stands r names v object) (hn : ∀ c id, names c id → names' c id) :
    Stands r names' v object := Mirrors.mono h hn

theorem StandsAll.mono {es : List (Key × Value)} {fs : List (Key × Stored)} (h : StandsAll r names es fs)
    (hn : ∀ c id, names c id → names' c id) : StandsAll r names' es fs :=
  h.imp fun _ _ hef => ⟨hef.1,hef.2.mono hn⟩

theorem StandsAll.values {es : List (Key × Value)} {fs : List (Key × Stored)}
    (h : StandsAll r names es fs) :
    List.Forall₂ (Stands r names) (es.map Prod.snd) (fs.map Prod.snd) := by
  induction h with
  | nil => exact .nil
  | cons hef _ ih => exact .cons hef.2 ih

theorem stands_scalar (hv : v.scalar? = some object) : Stands r names v object := by
  cases v <;> cases hv <;> exact .scalar rfl

/-- Only the entry of a table is named. -/
theorem Stands.named {c : CellId} (h : Stands r names (.table c) object) :
    ∃ handle, object = .shared handle ∧ names c handle.entry := by
  cases object with
  | shared handle =>
    refine ⟨handle,rfl,?_⟩
    cases h with
    | scalar hscalar => cases hscalar
    | table number hname => exact hname
  | nil | boolean | integer | float | string | function =>
    cases h with
    | scalar hscalar => cases hscalar

end Stands

namespace World

theorem secure_writes {w w' : World} {h : WorkerId} {object : Stored} (hw : w.secure h object = .ok w') :
    w' = w ∨ ∃ s references, w' = (w.setHandle h { w.handle h with references }).setStore s := by
  cases object with
  | shared f =>
    rw [secure_of_shared] at hw
    split at hw
    · exact addReference_writes hw
    · cases hw
  | nil | boolean | integer | float | string | function =>
    cases hw
    exact .inl rfl

section Fields

variable {w : World} {β : Type} (f : WorkerHandle → β)

theorem setHandle_keeps (h : WorkerId) (handle : WorkerHandle) (hf : f handle = f (w.handle h))
    (i : WorkerId) :
    f ((w.setHandle h handle).handle i) = f (w.handle i) := by
  rw [handle_setHandle]
  split
  · rename_i hi
    rw [hf, hi.1]
  · rfl

theorem secure_keeps {w' : World} {h : WorkerId} {object : Stored} (hw : w.secure h object = .ok w')
    (hf : ∀ handle references, f { handle with references } = f handle) (i : WorkerId) :
    f (w'.handle i) = f (w.handle i) := by
  obtain rfl | ⟨s,references,rfl⟩ := secure_writes hw
  · rfl
  · exact setHandle_keeps f h _ (hf _ references) i

end Fields

end World

namespace Code

open Capture (Made names names_append Refusal)

variable {α β : Type} {i : WorkerId} {code : Code α} {shown : List Stored} {filed : List Filing}
variable {Q Q' : α → List Stored → List Filing → Prop}

/-- Whatever the calls answer, the code comes to an end as `Q` says, given the results that the handle
shows then and the tables filed by then, the last one first. -/
def Yields (i : WorkerId) :
    Code α → List Stored → List Filing → (α → List Stored → List Filing → Prop) → Prop
  | .done a, shown, filed, Q => Q a shown filed
  | .number _ k, shown, filed, Q => ∀ n, (k n).Yields i shown filed Q
  | .create r table _ k, shown, filed, Q => ∀ id, (k id).Yields i shown (⟨r,id,table⟩ :: filed) Q
  | .addReference _ _ _ k, shown, filed, Q => ∀ outcome, (k outcome).Yields i shown filed Q
  | .drop _ k, shown, filed, Q => k.Yields i shown filed Q
  | .secure _ _ k, shown, filed, Q => ∀ outcome, (k outcome).Yields i shown filed Q
  | .load _ _ k, shown, filed, Q => ∀ outcome, (k outcome).Yields i shown filed Q
  | .close _ k, shown, filed, Q => k.Yields i shown filed Q
  | .take _ k, shown, filed, Q => ∀ c, (k c).Yields i shown filed Q
  | .publish j results k, _, filed, Q => j = i ∧ k.Yields i results filed Q
  | .captured _ k, shown, filed, Q => k.Yields i shown filed Q

theorem Yields.imp (h : code.Yields i shown filed Q)
    (hQ : ∀ a shown filed, Q a shown filed → Q' a shown filed) :
    code.Yields i shown filed Q' := by
  induction code generalizing shown filed with
  | done a => exact hQ a shown filed h
  | number r k ih => exact fun n => ih n (h n)
  | create r table holder k ih => exact fun id => ih id (h id)
  | addReference r id holder k ih => exact fun outcome => ih outcome (h outcome)
  | secure j object k ih => exact fun outcome => ih outcome (h outcome)
  | load c object k ih => exact fun outcome => ih outcome (h outcome)
  | take j k ih => exact fun c => ih c (h c)
  | drop handles k ih | close c k ih | captured object k ih => exact ih h
  | publish j results k ih => exact ⟨h.1,ih h.2⟩

theorem yields_bind {f : α → Code β} {Q : β → List Stored → List Filing → Prop}
    (h : code.Yields i shown filed fun a shown filed => (f a).Yields i shown filed Q) :
    (code.bind f).Yields i shown filed Q := by
  induction code generalizing shown filed with
  | done a => exact h
  | number r k ih => exact fun n => ih n (h n)
  | create r table holder k ih => exact fun id => ih id (h id)
  | addReference r id holder k ih => exact fun outcome => ih outcome (h outcome)
  | secure j object k ih => exact fun outcome => ih outcome (h outcome)
  | load c object k ih => exact fun outcome => ih outcome (h outcome)
  | take j k ih => exact fun c => ih c (h c)
  | drop handles k ih | close c k ih | captured object k ih => exact ih h
  | publish j results k ih => exact ⟨h.1,ih h.2⟩

def files (w : World) : Code α → List Filing
  | .create r table holder _ => [⟨r,(w.store.create r table holder).1,table⟩]
  | _ => []

/-- A step of the code leaves what is left of it to come to the same end. -/
theorem Yields.step {w : World} (hi : i < w.handles.size)
    (h : code.Yields i (w.handle i).result filed Q) :
    (code.step w).1.Yields i ((code.step w).2.handle i).result (code.files w ++ filed) Q := by
  cases code with
  | done a | captured object k => exact h
  | number r k | create r table holder k => exact h _
  | addReference r id holder k | load c object k =>
    simp only [Code.step]
    split <;> exact h _
  | drop handles k =>
    cases handles with
    | nil => exact h
    | cons f rest =>
      simp only [Code.step]
      split <;> exact h
  | secure j object k =>
    simp only [Code.step]
    split
    · rename_i w' hw
      rw [World.secure_keeps WorkerHandle.result hw (fun _ _ => rfl)]
      exact h _
    · exact h _
  | close c k =>
    simp only [Code.step]
    split <;> exact h
  | take j k =>
    simp only [Code.step]
    split
    · have hsame := World.setHandle_keeps WorkerHandle.result j { w.handle j with context := none } rfl i
      simp only [hsame]
      exact h _
    · exact h _
  | publish j results k =>
    obtain ⟨rfl,h⟩ := h
    simp only [Code.step, World.handle_setHandle_self hi]
    exact h

/-- Of the record of a worker handle, code writes the context, the references and the results only. -/
theorem step_keeps {β : Type} (f : WorkerHandle → β)
    (hf : ∀ handle context references result, f { handle with context, references, result } = f handle)
    (code : Code α) (w : World) (j : WorkerId) : f ((code.step w).2.handle j) = f (w.handle j) := by
  cases code with
  | done | number | create | captured => rfl
  | addReference r id holder k | load c object k =>
    simp only [Code.step]
    split <;> rfl
  | drop handles k =>
    cases handles with
    | nil => rfl
    | cons h rest =>
      simp only [Code.step]
      split <;> rfl
  | secure h object k =>
    simp only [Code.step]
    split
    · rename_i w' hw
      exact World.secure_keeps f hw
        (fun handle references => hf handle handle.context references handle.result) j
    · rfl
  | close c k =>
    simp only [Code.step]
    split <;> rfl
  | take h k =>
    simp only [Code.step]
    split
    · exact World.setHandle_keeps f h _ (hf (w.handle h) none (w.handle h).references
        (w.handle h).result) j
    · rfl
  | publish h results k =>
    exact World.setHandle_keeps f h _ (hf (w.handle h) (w.handle h).context
      (w.handle h).references results) j

structure Filled (h : Heap) (vs : List Value) (r : RegistryId) (made : List Made) (kept : Kept)
    (filed : List Filing) : Prop where
  captured : kept = made.map fun m => (m.cell,m.kept)
  logged : filed = made.map fun m => ⟨r,m.kept.entry,m.table⟩
  occurs : ∀ m ∈ made, h.Occurs vs (.table m.cell)
  nodup : (made.map Made.cell).Nodup
  registry : ∀ m ∈ made, m.kept.registry = r
  stands : ∀ m ∈ made, ∃ table, h.read m.cell = .ok table ∧
      StandsAll r (names made) table.entries m.table.entries

structure Adds (h : Heap) (vs : List Value) (r : RegistryId) (path : List CellId)
    (made new : List Made) (kept : Kept) (filed : List Filing) : Prop where
  filled : Filled h vs r (new ++ made) kept filed
  off : ∀ m ∈ new, m.cell ∉ path

variable {h : Heap} {vs : List Value} {r : RegistryId} {path : List CellId} {kept kept' kept'' : Kept}
variable {made new new' : List Made} {filed' filed'' : List Filing} {c : CellId}

theorem Filled.adds (hf : Filled h vs r made kept filed) (path : List CellId) :
    Adds h vs r path made [] kept filed :=
  ⟨hf,nofun⟩

theorem Adds.trans (ha : Adds h vs r path made new kept filed)
    (ha' : Adds h vs r path (new ++ made) new' kept' filed') :
    Adds h vs r path made (new' ++ new) kept' filed' := by
  refine ⟨?_,fun m hm => ?_⟩
  · rw [List.append_assoc]
    exact ha'.filled
  · rcases List.mem_append.mp hm with hm | hm
    · exact ha'.off m hm
    · exact ha.off m hm

/-- A finished table is filed, and the memo has its cell from now on. -/
theorem Filled.file (hf : Filled h vs r made kept filed) {table : LocalTable} {shared : SharedTable}
    {own : TableHandle} (hoccurs : h.Occurs vs (.table c)) (hread : h.read c = .ok table)
    (hnew : ∀ m ∈ made, m.cell ≠ c) (hstands : StandsAll r (names made) table.entries shared.entries)
    (hown : own.registry = r) :
    Filled h vs r (⟨c,own,shared⟩ :: made) ((c,own) :: kept) (⟨r,own.entry,shared⟩ :: filed) := by
  have hmore : ∀ d j, names made d j → names (⟨c,own,shared⟩ :: made) d j :=
    fun d j hn => names_append [⟨c,own,shared⟩] hn
  refine ⟨?_,?_,List.forall_mem_cons.mpr ⟨hoccurs,hf.occurs⟩,?_,
    List.forall_mem_cons.mpr ⟨hown,hf.registry⟩,?_⟩
  · rw [hf.captured, List.map_cons]
  · rw [hf.logged, List.map_cons]
  · refine List.nodup_cons.mpr ⟨fun hm => ?_,hf.nodup⟩
    obtain ⟨m,hm,hcell⟩ := List.mem_map.mp hm
    exact hnew m hm hcell
  · refine List.forall_mem_cons.mpr ⟨⟨table,hread,hstands.mono hmore⟩,fun m hm => ?_⟩
    obtain ⟨table',hread',hm'⟩ := hf.stands m hm
    exact ⟨table',hread',hm'.mono hmore⟩

def ValueFiled (h : Heap) (vs : List Value) (r : RegistryId) (path : List CellId) (kept : Kept)
    (v : Value) : Prop :=
  h.Occurs vs v → ∀ i shown made filed, Filled h vs r made kept filed →
    (storeValue h r path kept v).Yields i shown filed fun o _ filed => ∀ object, o.1 = .ok object →
      ∃ new, Adds h vs r path made new o.2 filed ∧ Stands r (names (new ++ made)) v object

def EntriesFiled (h : Heap) (vs : List Value) (r : RegistryId) (path : List CellId) (kept : Kept)
    (done : SharedTable) (es : List (Key × Value)) : Prop :=
  (∀ e ∈ es, h.Occurs vs e.2) → (done.keys ++ es.map Prod.fst).Nodup →
    ∀ i shown made filed before, Filled h vs r made kept filed →
    StandsAll r (names made) before done.entries →
      (storeEntries h r path kept done es).Yields i shown filed fun o _ filed =>
      ∀ shared, o.1 = .ok shared →
        ∃ new, Adds h vs r path made new o.2 filed ∧
        StandsAll r (names (new ++ made)) (before ++ es) shared.entries

theorem filed_scalar {v : Value} {object : Stored} (hv : v.scalar? = some object)
    (hcode : storeValue h r path kept v = .done (.ok object,kept)) : ValueFiled h vs r path kept v := by
  intro _ i shown made filed hf
  rw [hcode]
  rintro _ ⟨⟩
  exact ⟨[],hf.adds path,stands_scalar hv⟩

theorem filed_shared (id : EntryId) : ValueFiled h vs r path kept (.shared id) := by
  intro _ i shown made filed hf
  rw [storeValue]
  refine yields_bind fun n outcome => ?_
  cases outcome with
  | error fault => rintro _ ⟨⟩
  | ok _ =>
    rintro _ ⟨⟩
    exact ⟨[],hf.adds path,.shared id n⟩

/-- A copy names the entry of the handle that the capture keeps. -/
theorem filed_again {handle : TableHandle} (hc : c ∉ path) (hl : kept.lookup c = some handle) :
    ValueFiled h vs r path kept (.table c) := by
  intro _ i shown made filed hf
  rw [storeValue, dif_neg hc, hl]
  rw [hf.captured] at hl
  obtain ⟨m,hm,hcell,rfl⟩ := Capture.lookup_made hl
  have hstands : ∀ number strong,
      Stands r (names ([] ++ made)) (.table c) (.shared { m.kept with number, strong }) := by
    intro number strong
    obtain rfl := hf.registry m hm
    exact .table number ⟨m,hm,hcell,rfl⟩
  refine yields_bind fun n outcome => ?_
  cases outcome with
  | error fault =>
    rintro _ ⟨⟩
    exact ⟨[],hf.adds path,hstands n false⟩
  | ok _ =>
    rintro _ ⟨⟩
    exact ⟨[],hf.adds path,hstands n true⟩

/-- A cell that is stored is not among the cells stored meanwhile, as it is on their path. -/
theorem filed_table {table : LocalTable} (hc : c ∉ path) (hl : kept.lookup c = none)
    (hread : h.read c = .ok table)
    (hentries : EntriesFiled h vs r (c :: path) kept .empty table.entries) :
    ValueFiled h vs r path kept (.table c) := by
  intro hoccurs i shown made filed hf
  have hslots : ∀ e ∈ table.entries, h.Occurs vs e.2 :=
    fun e he => .slot hoccurs hread (List.mem_map.mpr ⟨e,he,rfl⟩)
  rw [storeValue_table hc hl hread]
  refine yields_bind ((hentries hslots table.nodup i shown made filed [] hf .nil).imp
    fun ⟨o,kept'⟩ shown' filed' ho => ?_)
  cases o with
  | error refusal => exact nofun
  | ok shared =>
    obtain ⟨new,⟨hfilled,hoff⟩,hstands⟩ := ho shared rfl
    have hnot : ∀ m ∈ new ++ made, m.cell ≠ c := by
      intro m hm
      rcases List.mem_append.mp hm with hm | hm
      · exact fun hcell => hoff m hm (hcell ▸ List.mem_cons_self)
      · rw [hf.captured] at hl
        exact Capture.not_made hl m hm
    have hadds : ∀ id number strong, Adds h vs r path made (⟨c,⟨id,number,r,strong⟩,shared⟩ :: new)
        ((c,⟨id,number,r,strong⟩) :: kept') (⟨r,id,shared⟩ :: filed') := by
      intro id number strong
      refine ⟨hfilled.file hoccurs hread hnot hstands rfl,
        List.forall_mem_cons.mpr ⟨hc,fun m hm hmem => ?_⟩⟩
      exact hoff m hm (List.mem_cons_of_mem c hmem)
    refine yields_bind fun n id => yields_bind fun n' outcome => ?_
    cases outcome with
    | error fault =>
      rintro _ ⟨⟩
      exact ⟨_,hadds id n' false,.table n ⟨_,List.mem_cons_self,rfl,rfl⟩⟩
    | ok _ =>
      rintro _ ⟨⟩
      exact ⟨_,hadds id n' true,.table n ⟨_,List.mem_cons_self,rfl,rfl⟩⟩

/-- The next value of a table joins those stored, under a key that none of them has. -/
theorem filed_next {done : SharedTable} {key : Key} {v : Value} {rest : List (Key × Value)}
    (hvalue : ValueFiled h vs r path kept v)
    (hrest : ∀ object kept', EntriesFiled h vs r path kept' (done.insert key object) rest) :
    EntriesFiled h vs r path kept done ((key,v) :: rest) := by
  intro hes hnodup i shown made filed before hf hbefore
  obtain ⟨hoccurs,hes⟩ := List.forall_mem_cons.mp hes
  rw [storeEntries]
  refine yields_bind ((hvalue hoccurs i shown made filed hf).imp fun kept₁ shown' filed' ho => ?_)
  obtain ⟨o,kept'⟩ := kept₁
  cases o with
  | error refusal => rintro _ ⟨⟩
  | ok object =>
    obtain ⟨new,hadds,hstands⟩ := ho object rfl
    have hfresh : key ∉ done.keys := by
      intro hk
      exact (List.nodup_append.mp hnodup).2.2 key hk key (by simp) rfl
    have hnodup' : ((done.insert key object).keys ++ rest.map Prod.fst).Nodup := by
      rw [OrderedMap.keys_insert_of_not_mem object hfresh, List.append_assoc]
      exact hnodup
    have hentries : (done.insert key object).entries = done.entries ++ [(key,object)] := by
      have hk : key ∉ done.entries.map Prod.fst := hfresh
      simp only [OrderedMap.insert, dif_neg hk]
    have hbefore' : StandsAll r (names (new ++ made)) (before ++ [(key,v)])
        (done.insert key object).entries := by
      rw [hentries]
      exact List.rel_append (hbefore.mono fun _ _ hn => names_append new hn) (.cons ⟨rfl,hstands⟩ .nil)
    refine (hrest object kept' hes hnodup' i shown' (new ++ made) filed' _ hadds.filled hbefore').imp
      fun o _ filed'' ho' shared hshared => ?_
    obtain ⟨new',hadds',hall⟩ := ho' shared hshared
    exact ⟨new' ++ new,hadds.trans hadds',by simpa using hall⟩

theorem filed_store (h : Heap) (vs : List Value) (r : RegistryId) :
    (∀ path kept v, ValueFiled h vs r path kept v) ∧
    ∀ path kept done es, EntriesFiled h vs r path kept done es := by
  apply storeValue.mutual_induct h (ValueFiled h vs r) (EntriesFiled h vs r)
  case case1 => exact fun path kept => filed_scalar rfl (by rw [storeValue])
  case case2 => exact fun path kept b => filed_scalar rfl (by rw [storeValue])
  case case3 => exact fun path kept n => filed_scalar rfl (by rw [storeValue])
  case case4 => exact fun path kept x => filed_scalar rfl (by rw [storeValue])
  case case5 => exact fun path kept s => filed_scalar rfl (by rw [storeValue])
  case case6 => exact fun path kept f => filed_scalar rfl (by rw [storeValue])
  case case7 => exact fun path kept id => filed_shared id
  case case8 =>
    intro path kept c hc _ i shown made filed _
    rw [storeValue, dif_pos hc]
    rintro _ ⟨⟩
  case case9 => exact fun path kept c hc handle hl => filed_again hc hl
  case case10 =>
    intro path kept c hc hl fault hread _ i shown made filed _
    rw [storeValue_unreadable hc hl hread]
    rintro _ ⟨⟩
  case case11 => exact fun path kept c hc hl table hread ih => filed_table hc hl hread ih
  case case12 =>
    intro path kept done _ _ i shown made filed before hf hbefore
    rw [storeEntries]
    rintro _ ⟨⟩
    exact ⟨[],hf.adds path,by simpa using hbefore⟩
  case case13 => exact fun path kept done key v rest ihrest ihvalue => filed_next ihvalue ihrest

theorem yields_capture {c : Capture} (hc : c.registry = r) {v : Value} (hv : h.Occurs vs v)
    (hf : Filled h vs r made c.captured filed) :
    (capture c h v).Yields i shown filed fun o _ filed' =>
      ∀ object, o.1 = .ok object → o.2.registry = r ∧
        ∃ new, Filled h vs r (new ++ made) o.2.captured filed' ∧
        Stands r (names (new ++ made)) v object := by
  unfold capture
  rw [hc]
  refine yields_bind (((filed_store h vs r).1 c.path c.captured v hv i shown made filed hf).imp
    fun ⟨o,kept⟩ shown' filed' ho => ?_)
  cases o with
  | error refusal => exact nofun
  | ok object =>
    rintro _ ⟨⟩
    obtain ⟨new,hadds,hstands⟩ := ho object rfl
    exact ⟨rfl,new,hadds.filled,hstands⟩

theorem yields_adopt (j : WorkerId) (object : Stored) :
    (adopt j object).Yields i shown filed fun o _ filed' =>
    filed' = filed ∧ ∀ moved, o = .ok moved → moved = object.weakened := by
  intro outcome
  cases outcome with
  | error fault => exact ⟨rfl,nofun⟩
  | ok _ =>
    refine ⟨rfl,?_⟩
    rintro _ ⟨⟩
    rfl

theorem yields_loadAll (c : ContextId) (objects : List Stored) :
    (loadAll c objects).Yields i shown filed fun _ _ filed' => filed' = filed := by
  induction objects with
  | nil => rfl
  | cons object rest ih =>
    intro outcome
    cases outcome with
    | error fault => rfl
    | ok value => exact yields_bind (ih.imp fun _ _ _ hfiled => hfiled)

/-- Results that have been collected stand for the values, in their order. -/
theorem yields_collect (j : WorkerId) {c : Capture} (hc : c.registry = r) {done : List Stored}
    {front : List Value} (values : List Value) (hvalues : ∀ v ∈ values, h.Occurs vs v)
    (hf : Filled h vs r made c.captured filed)
    (hdone : List.Forall₂ (Stands r (names made)) front done) :
    (collect j h c done values).Yields i shown filed fun o _ filed' => ∀ results, o = .ok results →
      ∃ made kept, Filled h vs r made kept filed' ∧
      List.Forall₂ (Stands r (names made)) (front ++ values) results := by
  induction values generalizing c done front made shown filed with
  | nil =>
    rintro _ ⟨⟩
    exact ⟨made,_,hf,by simpa using hdone⟩
  | cons v rest ih =>
    obtain ⟨hv,hrest⟩ := List.forall_mem_cons.mp hvalues
    rw [collect]
    refine yields_bind ((yields_capture hc hv hf).imp fun captured shown' filed' ho => ?_)
    obtain ⟨o,c'⟩ := captured
    cases o with
    | error fault => rintro _ ⟨⟩
    | ok object =>
      obtain ⟨hc',new,hf',hstands⟩ := ho object rfl
      refine yields_bind ((yields_adopt j object).imp fun o shown'' filed'' hadopted => ?_)
      obtain ⟨rfl,hmoved⟩ := hadopted
      cases o with
      | error fault => rintro _ ⟨⟩
      | ok moved =>
        obtain rfl := hmoved moved rfl
        have hlast : Stands r (names (new ++ made)) v object.weakened := by
          rwa [Stands, Stored.firm_weakened]
        have hdone' : List.Forall₂ (Stands r (names (new ++ made))) (front ++ [v])
            (done ++ [object.weakened]) :=
          List.rel_append (hdone.imp fun _ _ hs => hs.mono fun _ _ hn => names_append new hn)
            (.cons hlast .nil)
        refine (ih hc' hrest hf' hdone').imp fun o _ _ ho' results hresults => ?_
        simpa using ho' results hresults

/-- A value of the graph has an object that stands for it. -/
theorem Filled.stands_of_occurs {objects : List Stored} (hf : Filled h vs r made kept filed)
    (hroots : List.Forall₂ (Stands r (names made)) vs objects) {v : Value} (hv : h.Occurs vs v) :
    ∃ object, Stands r (names made) v object := by
  induction hv with
  | root hv =>
    obtain ⟨object,_,hstands⟩ := forall₂_exists_of_mem hroots hv
    exact ⟨object,hstands⟩
  | slot _ hread hv ih =>
    obtain ⟨object,hstands⟩ := ih
    obtain ⟨_,_,m,hm,rfl,_⟩ := hstands.named
    obtain ⟨table,hread',hall⟩ := hf.stands m hm
    rw [hread] at hread'
    cases hread'
    obtain ⟨found,_,hfound⟩ := forall₂_exists_of_mem hall.values hv
    exact ⟨found,hfound⟩

theorem Filled.conveyed {objects : List Stored} (hf : Filled h vs r made kept filed)
    (hroots : List.Forall₂ (Stands r (names made)) vs objects) :
    Conveyed h vs r filed objects (made.map Made.cell) (Capture.entryOf made) := by
  have hentry : ∀ c id, names made c id → Capture.entryOf made c = id :=
    fun c id => Capture.entryOf_eq hf.nodup
  refine ⟨hf.nodup,fun c => ⟨fun hmem => ?_,fun hoccurs => ?_⟩,hroots.imp fun _ _ hs =>
    hs.mono hentry,?_⟩
  · obtain ⟨m,hm,rfl⟩ := List.mem_map.mp hmem
    exact hf.occurs m hm
  · obtain ⟨object,hstands⟩ := hf.stands_of_occurs hroots hoccurs
    obtain ⟨_,_,m,hm,hcell,_⟩ := hstands.named
    exact List.mem_map.mpr ⟨m,hm,hcell⟩
  · rw [hf.logged, List.forall₂_map_left_iff, List.forall₂_map_right_iff, List.forall₂_same]
    intro m hm
    obtain ⟨table,hread,hall⟩ := hf.stands m hm
    exact ⟨rfl,(hentry m.cell m.kept.entry ⟨m,hm,rfl,rfl⟩).symm,table,hread,hall.mono hentry⟩

end Code

end Workers
