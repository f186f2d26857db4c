import Mathlib.Data.List.Forall2
import Mathlib.Logic.Relation
import Workers.Proofs.Capture.Keeps
/-! # Graphs of local tables and what their copies look like

The values of a list and all that is in the tables they lead to make up a graph.  A copy of it is
told by the entry that stands for each table: every value has its stored form, in its place.
-/
namespace Workers

namespace Heap

def Edge (h : Heap) (c d : CellId) : Prop := ∃ table, h.read c = .ok table ∧ .table d ∈ table.values

/-- The values of a graph: those of the list, and those in a table of the graph. -/
inductive Occurs (h : Heap) (vs : List Value) : Value → Prop
  | root {v : Value} (hv : v ∈ vs) : Occurs h vs v
  | slot {c : CellId} {table : LocalTable} {v : Value} (hc : Occurs h vs (.table c))
      (hread : h.read c = .ok table) (hv : v ∈ table.values) : Occurs h vs v

/-- A graph that can be stored: no table leads back to itself, none is poisoned, and the shared
tables in it are alive. -/
structure Storable (h : Heap) (vs : List Value) (s : Store) (r : RegistryId) : Prop where
  acyclic : ∀ c, h.Occurs vs (.table c) → ¬ Relation.TransGen h.Edge c c
  readable : ∀ c, h.Occurs vs (.table c) → ∃ table, h.read c = .ok table
  alive : ∀ id, h.Occurs vs (.shared id) → s.isAlive r id = true

def slots (h : Heap) (c : CellId) : List Value :=
  match h.read c with
  | .ok table => table.values
  | .error _ => []

def follow (h : Heap) : Value → List Key → Option Value
  | v, [] => some v
  | .table c, key :: path =>
    match h.read c with
    | .ok table => (table.get? key).bind fun v => h.follow v path
    | .error _ => none
  | _, _ :: _ => none

end Heap

def Store.follow (s : Store) : Stored → List Key → Option Stored
  | object, [] => some object
  | .shared handle, key :: path =>
    match s.readTable handle.registry handle.entry with
    | .ok table => (table.get? key).bind fun object => s.follow object path
    | .error _ => none
  | _, _ :: _ => none

inductive Mirrors (r : RegistryId) (names : CellId → EntryId → Prop) : Value → Stored → Prop
  | scalar {v : Value} {object : Stored} (h : v.scalar? = some object) : Mirrors r names v object
  | shared (id : EntryId) (number : ℕ) :
      Mirrors r names (.shared id) (.shared { entry := id, number, registry := r, strong := true })
  | table {c : CellId} {id : EntryId} (number : ℕ) (h : names c id) :
      Mirrors r names (.table c) (.shared { entry := id, number, registry := r, strong := true })

abbrev MirrorsAll (r : RegistryId) (names : CellId → EntryId → Prop) :
    List (Key × Value) → List (Key × Stored) → Prop :=
  List.Forall₂ fun e f => e.1 = f.1 ∧ Mirrors r names e.2 f.2

/-- What storing the values of a graph through one capture has come to, once the capture is gone. -/
structure Copied (h : Heap) (vs : List Value) (s : Store) (r : RegistryId) (objects : List Stored)
    (t : Store) (cells : List CellId) (entry : CellId → EntryId) : Prop where
  nodup : cells.Nodup
  mem_cells : ∀ c, c ∈ cells ↔ h.Occurs vs (.table c)
  /-- Every table has an entry of its own, which was not alive before. -/
  injective : ∀ c ∈ cells, ∀ d ∈ cells, entry c = entry d → c = d
  fresh : ∀ c ∈ cells, s.isAlive r (entry c) = false
  roots : List.Forall₂ (Mirrors r fun c id => entry c = id) vs objects
  tables : ∀ c ∈ cells, ∃ table shared, h.read c = .ok table ∧
      t.table r (entry c) = .ok { content := shared } ∧
    MirrorsAll r (fun c id => entry c = id) table.entries shared.entries
  /-- What a path of keys leads to has its stored form at the end of the same path. -/
  paths : ∀ v object, (v,object) ∈ vs.zip objects → ∀ path w, h.follow v path = some w →
    ∃ found, t.follow object path = some found ∧ Mirrors r (fun c id => entry c = id) w found
  /-- There are no other paths, but for those that go on in a table that was shared already. -/
  back : ∀ v object, (v,object) ∈ vs.zip objects → ∀ path found, t.follow object path = some found →
    (∃ w, h.follow v path = some w ∧ Mirrors r (fun c id => entry c = id) w found) ∨
      ∃ front key rest id, path = front ++ key :: rest ∧ h.follow v front = some (.shared id)
  /-- Two paths lead to the same new entry just when they lead to the same local table. -/
  same : ∀ v object v' object', (v,object) ∈ vs.zip objects → (v',object') ∈ vs.zip objects →
    ∀ path path' w w', h.follow v path = some w → h.follow v' path' = some w' →
      ((∃ c ∈ cells, (t.follow object path).bind Stored.entryId? = some (entry c) ∧
        (t.follow object' path').bind Stored.entryId? = some (entry c)) ↔ ∃ c, w = .table c ∧
          w' = .table c)
  kept : ∀ q id g, s.table q id = .ok g → t.table q id = .ok g
  alive : ∀ q id, t.isAlive q id = true → s.isAlive q id = true ∨ q = r ∧ ∃ c ∈ cells, entry c = id
  live : t.liveEntries r = s.liveEntries r + cells.length
  /-- An entry is referenced from each place where its table occurs, and from nowhere else. -/
  count : ∀ c ∈ cells, t.referenceCount r (entry c) =
    vs.count (.table c) + (cells.map fun d => (h.slots d).count (.table c)).sum

def Capture.storeAll (c : Capture) (s : Store) (h : Heap) :
    List Value → Except Fault (List Stored) × Capture × Store
  | [] => (.ok [],c,s)
  | v :: rest =>
    match c.store s h v with
    | (.error fault,c,s) => (.error fault,c,s)
    | (.ok object,c,s) =>
      match c.storeAll s h rest with
      | (.error fault,c,s) => (.error fault,c,s)
      | (.ok objects,c,s) => (.ok (object :: objects),c,s)

section Mirrors

variable {r : RegistryId} {names names' : CellId → EntryId → Prop} {v : Value} {object : Stored}

theorem Mirrors.mono (h : Mirrors r names v object) (hn : ∀ c id, names c id → names' c id) :
    Mirrors r names' v object := by
  cases h with
  | scalar h => exact .scalar h
  | shared id number => exact .shared id number
  | table number h => exact .table number (hn _ _ h)

theorem MirrorsAll.mono {es : List (Key × Value)} {fs : List (Key × Stored)}
    (h : MirrorsAll r names es fs) (hn : ∀ c id, names c id → names' c id) :
    MirrorsAll r names' es fs :=
  h.imp fun _ _ hef => ⟨hef.1,hef.2.mono hn⟩

/-- The keys agree, so a look-up finds a value just when it finds its stored form. -/
theorem MirrorsAll.get? {es : LocalTable} {fs : SharedTable}
    (h : MirrorsAll r names es.entries fs.entries) (key : Key) :
    Option.Rel (Mirrors r names) (es.get? key) (fs.get? key) := by
  obtain ⟨es,hes⟩ := es
  obtain ⟨fs,hfs⟩ := fs
  simp only [OrderedMap.get?] at h ⊢
  clear hes hfs
  induction h with
  | nil => exact .none
  | @cons e f es fs hef _ ih =>
    obtain ⟨hkeys,hmirror⟩ := hef
    by_cases hk : e.1 = key
    · have hk' : f.1 = key := hkeys ▸ hk
      simp only [List.find?_cons, hk, hk', decide_true, Option.map_some]
      exact .some hmirror
    · have hk' : ¬ f.1 = key := hkeys ▸ hk
      simp only [List.find?_cons, hk, hk', decide_false]
      exact ih

theorem MirrorsAll.values {es : List (Key × Value)} {fs : List (Key × Stored)}
    (h : MirrorsAll r names es fs) :
    List.Forall₂ (Mirrors r names) (es.map Prod.snd) (fs.map Prod.snd) := by
  induction h with
  | nil => exact .nil
  | cons hef _ ih => exact .cons hef.2 ih

end Mirrors

end Workers
