import Workers.Proofs.Capture.Graph
/-! # What a capture refuses

A value is stored by going down into the tables that it leads to, slot by slot, and comes to an end
at the first one that cannot be stored.  Whether a value can be stored, and on what it fails, can be
said by the graph alone.
-/
namespace Workers

namespace Heap

variable {h : Heap} {vs : List Value} {s : Store} {r : RegistryId} {c d : CellId} {u v w : Value}
    {table : LocalTable}

theorem Occurs.trans (hv : h.Occurs vs v) (hw : h.Occurs [v] w) : h.Occurs vs w := by
  induction hw with
  | root hmem =>
    rw [List.mem_singleton.mp hmem]
    exact hv
  | slot _ hread hmem ih => exact .slot ih hread hmem

theorem occurs_table (hw : h.Occurs [.table c] w) :
    w = .table c ∨ ∃ table, h.read c = .ok table ∧ ∃ v ∈ table.values, h.Occurs [v] w := by
  induction hw with
  | root hmem => exact .inl (List.mem_singleton.mp hmem)
  | slot _ hread hmem ih =>
    rcases ih with hself | ⟨table,hread',v,hv,hoccurs⟩
    · cases hself
      exact .inr ⟨_,hread,_,hmem,.root List.mem_cons_self⟩
    · exact .inr ⟨table,hread',v,hv,.slot hoccurs hread hmem⟩

theorem occurs_leaf (hv : ∀ c, v ≠ .table c) (hw : h.Occurs [v] w) : w = v := by
  induction hw with
  | root hmem => exact List.mem_singleton.mp hmem
  | slot _ _ _ ih => exact absurd ih.symm (hv _)

theorem reaches_of_occurs (hw : h.Occurs [.table c] w) :
    ∀ d, w = .table d → Relation.ReflTransGen h.Edge c d := by
  induction hw with
  | root hmem =>
    intro d hd
    rw [List.mem_singleton.mp hmem] at hd
    cases hd
    exact .refl
  | slot _ hread hmem ih =>
    rintro d rfl
    exact (ih _ rfl).tail ⟨_,hread,hmem⟩

theorem occurs_of_reaches (hd : Relation.ReflTransGen h.Edge c d) : h.Occurs [.table c] (.table d) := by
  induction hd with
  | refl => exact .root List.mem_cons_self
  | tail _ hedge ih =>
    obtain ⟨table,hread,hmem⟩ := hedge
    exact .slot ih hread hmem

theorem Storable.of_occurs (hs : h.Storable vs s r) (hv : h.Occurs vs v) : h.Storable [v] s r :=
  ⟨fun c hc => hs.acyclic c (hv.trans hc),fun c hc => hs.readable c (hv.trans hc),
    fun id hid => hs.alive id (hv.trans hid)⟩

theorem storable_scalar {object : Stored} (hv : v.scalar? = some object) : h.Storable [v] s r := by
  have hleaf : ∀ c, v ≠ .table c := by
    rintro c rfl
    cases hv
  refine ⟨fun c hc => ?_,fun c hc => ?_,fun id hid => ?_⟩
  · exact absurd (occurs_leaf hleaf hc).symm (hleaf c)
  · exact absurd (occurs_leaf hleaf hc).symm (hleaf c)
  · rw [← occurs_leaf hleaf hid] at hv
    cases hv

theorem storable_shared {id : EntryId} : h.Storable [.shared id] s r ↔ s.isAlive r id = true := by
  constructor
  · exact fun hs => hs.alive id (.root List.mem_cons_self)
  · intro halive
    have hleaf : ∀ c, Value.shared id ≠ .table c := fun c hc => nomatch hc
    refine ⟨fun c hc => ?_,fun c hc => ?_,fun id' hid => ?_⟩
    · cases occurs_leaf hleaf hc
    · cases occurs_leaf hleaf hc
    · cases occurs_leaf hleaf hid
      exact halive

/-- A table can be stored if its values can: a way back to it would be a cycle for one of them. -/
theorem storable_table (hread : h.read c = .ok table) :
    h.Storable [.table c] s r ↔ ∀ v ∈ table.values, h.Storable [v] s r := by
  constructor
  · exact fun hs v hv => hs.of_occurs (.slot (.root List.mem_cons_self) hread hv)
  intro hslots
  have hbelow : ∀ w, h.Occurs [.table c] w → w = .table c ∨ ∃ v ∈ table.values, h.Occurs [v] w := by
    intro w hw
    rcases occurs_table hw with hself | ⟨table',hread',hmem⟩
    · exact .inl hself
    · rw [hread] at hread'
      cases hread'
      exact .inr hmem
  refine ⟨fun d hd hcycle => ?_,fun d hd => ?_,fun id hid => ?_⟩
  · rcases hbelow _ hd with hself | ⟨v,hv,hoccurs⟩
    · cases hself
      obtain ⟨e,⟨table',hread',he⟩,hback⟩ := Relation.TransGen.head'_iff.mp hcycle
      rw [hread] at hread'
      cases hread'
      exact (hslots _ he).acyclic c (occurs_of_reaches hback) hcycle
    · exact (hslots v hv).acyclic d hoccurs hcycle
  · rcases hbelow _ hd with hself | ⟨v,hv,hoccurs⟩
    · cases hself
      exact ⟨table,hread⟩
    · exact (hslots v hv).readable d hoccurs
  · rcases hbelow _ hid with hself | ⟨v,hv,hoccurs⟩
    · cases hself
    · exact (hslots v hv).alive id hoccurs

def FirstUnstorable (h : Heap) (s : Store) (r : RegistryId) (values : List Value) (v : Value) : Prop :=
  ∃ front rest, values = front ++ v :: rest ∧ (∀ u ∈ front, h.Storable [u] s r) ∧ ¬ h.Storable [v] s r

theorem firstUnstorable_cons {values : List Value} : h.FirstUnstorable s r (u :: values) v ↔
    ¬ h.Storable [u] s r ∧ v = u ∨ h.Storable [u] s r ∧ h.FirstUnstorable s r values v := by
  constructor
  · rintro ⟨front,rest,hsplit,hfront,hv⟩
    cases front with
    | nil =>
      cases hsplit
      exact .inl ⟨hv,rfl⟩
    | cons u' front =>
      cases hsplit
      obtain ⟨hu,hfront⟩ := List.forall_mem_cons.mp hfront
      exact .inr ⟨hu,front,rest,rfl,hfront,hv⟩
  · rintro (⟨hu,rfl⟩ | ⟨hu,front,rest,rfl,hfront,hv⟩)
    · exact ⟨[],values,rfl,nofun,hu⟩
    · exact ⟨u :: front,rest,rfl,List.forall_mem_cons.mpr ⟨hu,hfront⟩,hv⟩

theorem FirstUnstorable.unique {values : List Value} (hv : h.FirstUnstorable s r values v)
    (hw : h.FirstUnstorable s r values w) : v = w := by
  induction values with
  | nil =>
    obtain ⟨front,rest,hsplit,_⟩ := hv
    simp at hsplit
  | cons u values ih =>
    rcases firstUnstorable_cons.mp hv with ⟨hu,rfl⟩ | ⟨hu,hv⟩
    · rcases firstUnstorable_cons.mp hw with ⟨_,rfl⟩ | ⟨hu',_⟩
      · rfl
      · exact absurd hu' hu
    · rcases firstUnstorable_cons.mp hw with ⟨hu',_⟩ | ⟨_,hw⟩
      · exact absurd hu hu'
      · exact ih hv hw

theorem exists_firstUnstorable {values : List Value} (hs : ¬ ∀ v ∈ values, h.Storable [v] s r) :
    ∃ v, h.FirstUnstorable s r values v := by
  induction values with
  | nil => exact absurd (fun _ hv => nomatch hv) hs
  | cons u values ih =>
    by_cases hu : h.Storable [u] s r
    · obtain ⟨v,hv⟩ := ih fun hall => hs (List.forall_mem_cons.mpr ⟨hu,hall⟩)
      exact ⟨v,firstUnstorable_cons.mpr (.inr ⟨hu,hv⟩)⟩
    · exact ⟨u,firstUnstorable_cons.mpr (.inl ⟨hu,rfl⟩)⟩

theorem FirstUnstorable.mem {values : List Value} (hv : h.FirstUnstorable s r values v) :
    v ∈ values := by
  obtain ⟨front,rest,rfl,_⟩ := hv
  simp

theorem FirstUnstorable.not_storable {values : List Value} (hv : h.FirstUnstorable s r values v) :
    ¬ h.Storable [v] s r := by
  obtain ⟨_,_,_,_,hv⟩ := hv
  exact hv

/-- Going down into the first value that cannot be stored, again and again, from the end of a path:
the fault that this comes upon. -/
inductive DescentFault (h : Heap) (s : Store) (r : RegistryId) : List CellId → Value → Fault → Prop
  | broken {path : List CellId} {id : EntryId} (hdead : s.isAlive r id = false) :
      DescentFault h s r path (.shared id) .brokenReference
  | cyclic {path : List CellId} {c : CellId} (hc : c ∈ path) :
      DescentFault h s r path (.table c) .cyclicTable
  | unreadable {path : List CellId} {c : CellId} {fault : Fault} (hc : c ∉ path)
      (hread : h.read c = .error fault) :
      DescentFault h s r path (.table c) fault
  | slot {path : List CellId} {c : CellId} {table : LocalTable} {v : Value} {fault : Fault}
      (hc : c ∉ path) (hread : h.read c = .ok table)
      (hfirst : h.FirstUnstorable s r table.values v)
      (hv : DescentFault h s r (c :: path) v fault) :
      DescentFault h s r path (.table c) fault

theorem DescentFault.unique {path : List CellId} {fault fault' : Fault}
    (hf : h.DescentFault s r path v fault) (hf' : h.DescentFault s r path v fault') :
    fault = fault' := by
  induction hf with
  | broken =>
    cases hf'
    rfl
  | cyclic hc =>
    cases hf' with
    | cyclic => rfl
    | unreadable hc' => exact absurd hc hc'
    | slot hc' => exact absurd hc hc'
  | unreadable hc hread =>
    cases hf' with
    | cyclic hc' => exact absurd hc' hc
    | unreadable _ hread' =>
      rw [hread] at hread'
      exact Except.error.inj hread'
    | slot _ hread' =>
      rw [hread] at hread'
      cases hread'
  | slot hc hread hfirst _ ih =>
    cases hf' with
    | cyclic hc' => exact absurd hc' hc
    | unreadable _ hread' =>
      rw [hread] at hread'
      cases hread'
    | slot _ hread' hfirst' hv' =>
      rw [hread] at hread'
      cases hread'
      rw [hfirst'.unique hfirst] at hv'
      exact ih hv'

/-- A graph of readable tables and live shared ones has nothing else to come upon than a cycle. -/
theorem DescentFault.eq_cyclicTable {path : List CellId} {fault : Fault}
    (hf : h.DescentFault s r path v fault) (hv : h.Occurs vs v)
    (hreadable : ∀ c, h.Occurs vs (.table c) → ∃ table, h.read c = .ok table)
    (halive : ∀ id, h.Occurs vs (.shared id) → s.isAlive r id = true) : fault = .cyclicTable := by
  induction hf with
  | broken hdead =>
    rw [halive _ hv] at hdead
    cases hdead
  | cyclic => rfl
  | unreadable _ hread =>
    obtain ⟨table,hread'⟩ := hreadable _ hv
    rw [hread] at hread'
    cases hread'
  | slot _ hread hfirst _ ih => exact ih (.slot hv hread hfirst.mem)

def PathUnstorable (h : Heap) (s : Store) (r : RegistryId) (path : List CellId) (v : Value) : Prop :=
  ∀ d ∈ path, ¬ h.Storable [.table d] s r ∨ ∀ c, v = .table c → Relation.TransGen h.Edge d c

theorem PathUnstorable.not_storable {path : List CellId}
    (hb : h.PathUnstorable s r path (.table c)) (hc : c ∈ path) :
    ¬ h.Storable [.table c] s r := by
  rcases hb c hc with hnot | hcycle
  · exact hnot
  · exact fun hs => hs.acyclic c (.root List.mem_cons_self) (hcycle c rfl)

theorem PathUnstorable.slot {path : List CellId} (hb : h.PathUnstorable s r path (.table c))
    (hread : h.read c = .ok table) (hv : v ∈ table.values) :
    h.PathUnstorable s r (c :: path) v := by
  intro d hd
  have hedge : ∀ e, v = .table e → h.Edge c e := fun e he => ⟨table,hread,he ▸ hv⟩
  rcases List.mem_cons.mp hd with rfl | hd
  · exact .inr fun e he => .single (hedge e he)
  · exact (hb d hd).imp_right fun hleads e he => (hleads c rfl).tail (hedge e he)

end Heap

end Workers
