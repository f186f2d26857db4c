import Workers.Proofs.Capture.Sharing
import Workers.Proofs.Roundtrip.Tokens
/-! # What a capture makes of values

Values that go through a capture are the same values again, but for the local tables, in whose places
there are shared ones.  These are rooted in what the values name, so that they stay as long as that does.
-/
namespace Workers

def Value.carried (entry : CellId → EntryId) : Value → Value
  | .table c => .shared (entry c)
  | v => v

/-- Shared tables that stand for the local tables of a graph: a graph of the same form, in which
every other value is the very same one. -/
structure Carried (h : Heap) (vs : List Value) (s : Store) (r : RegistryId)
    (entry : CellId → EntryId) (t : Store) :
    Prop where
  /-- Two places name one table just when they did before. -/
  injective : ∀ v w, h.Occurs vs v → h.Occurs vs w → v.carried entry = w.carried entry → v = w
  fresh : ∀ c, h.Occurs vs (.table c) → s.isAlive r (entry c) = false
  /-- Each table has the same keys in the same order, and under each of them the same value, carried. -/
  tables : ∀ c, h.Occurs vs (.table c) → ∃ table shared, h.read c = .ok table ∧
      t.readTable r (entry c) = .ok shared ∧
    shared.entries.map (fun e => (e.1,e.2.toValue)) = table.entries.map fun e => (e.1,e.2.carried entry)
  /-- The tables that were shared already still exist. -/
  alive : ∀ id, h.Occurs vs (.shared id) → t.isAlive r id = true

def Address.made (h : Heap) (vs : List Value) (r : RegistryId) (entry : CellId → EntryId) :
    Set Address :=
  {x | x.registry = r ∧ ∃ c, h.Occurs vs (.table c) ∧ entry c = x.entry}

theorem Value.carried_ne_table (entry : CellId → EntryId) (v : Value) (c : CellId) :
    v.carried entry ≠ .table c := by
  cases v <;> nofun

variable {h : Heap} {vs : List Value} {s t : Store} {r : RegistryId} {entry : CellId → EntryId}
    {objects : List Stored}
variable {v : Value} {object : Stored} {cells : List CellId}

theorem Mirrors.toValue_eq (hm : Mirrors r (fun c id => entry c = id) v object) :
    object.toValue = v.carried entry := by
  cases hm with
  | scalar hscalar =>
    rw [Value.toValue_scalar hscalar]
    cases v with
    | table c => cases hscalar
    | nil | boolean | integer | float | string | function | shared => rfl
  | shared id number => rfl
  | table number hname => exact congrArg Value.shared hname.symm

theorem Mirrors.handle_eq {handle : TableHandle}
    (hm : Mirrors r (fun c id => entry c = id) v (.shared handle)) :
    handle.registry = r ∧ handle.strong = true := by
  cases hm with
  | scalar hscalar => cases v <;> cases hscalar
  | shared id number => exact ⟨rfl,rfl⟩
  | table number hname => exact ⟨rfl,rfl⟩

theorem MirrorsAll.toValue_eq {es : List (Key × Value)} {fs : List (Key × Stored)}
    (hm : MirrorsAll r (fun c id => entry c = id) es fs) :
    fs.map (fun e => (e.1,e.2.toValue)) = es.map fun e => (e.1,e.2.carried entry) := by
  induction hm with
  | nil => rfl
  | cons hef _ ih => rw [List.map_cons, List.map_cons, ih, hef.1, hef.2.toValue_eq]

namespace Copied

variable (hc : Copied h vs s r objects t cells entry)

include hc

/-- The objects that are handed out are the values, carried. -/
theorem values_eq : objects.map Stored.toValue = vs.map (Value.carried entry) := by
  have hroots := hc.roots
  clear hc
  induction hroots with
  | nil => rfl
  | cons hm _ ih => rw [List.map_cons, List.map_cons, ih, hm.toValue_eq]

theorem strong_of_mem {handle : TableHandle} (hmem : .shared handle ∈ objects) :
    handle.registry = r ∧ handle.strong = true := by
  obtain ⟨v,_,hm⟩ := forall₂_exists_of_mem (List.Forall₂.flip hc.roots) hmem
  exact hm.handle_eq

/-- A table made for a local table has a strong handle on each table that is in it. -/
theorem points {c : CellId} {table : LocalTable} {id : EntryId} (hcell : h.Occurs vs (.table c))
    (hread : h.read c = .ok table) (hv : v ∈ table.values) (hid : v.carried entry = .shared id) :
    t.Points ⟨r,entry c⟩ ⟨r,id⟩ := by
  obtain ⟨found,shared,hread',htable,hmirrors⟩ := hc.tables c ((hc.mem_cells c).mpr hcell)
  rw [hread] at hread'
  cases hread'
  obtain ⟨object,hobject,hm⟩ := forall₂_exists_of_mem hmirrors.values hv
  have hvalue := hm.toValue_eq
  rw [hid] at hvalue
  cases object with
  | shared handle =>
    obtain ⟨hregistry,hstrong⟩ := hm.handle_eq
    obtain ⟨e,he,hcontent⟩ := Store.find?_of_table htable
    refine ⟨shared,?_,handle,?_,hstrong,hregistry,Value.shared.inj hvalue⟩
    · rw [Store.content?, he, Option.map_some, hcontent]
    · exact List.mem_flatMap.mpr ⟨_,hobject,List.mem_singleton_self _⟩
  | nil | boolean | integer | float | string | function => cases hvalue

theorem rooted :
    t.Rooted (Address.named r (vs.map (Value.carried entry))) (Address.made h vs r entry) := by
  have hpath : ∀ v, h.Occurs vs v → ∀ c, v = .table c →
    ∃ x ∈ Address.named r (vs.map (Value.carried entry)),
      x ∈ Address.made h vs r entry ∧
        Relation.ReflTransGen (fun a b => t.Points a b ∧ b ∈ Address.made h vs r entry) x
        ⟨r,entry c⟩ := by
    intro v hv
    induction hv with
    | root hv =>
      rintro c rfl
      exact ⟨⟨r,entry c⟩,⟨rfl,List.mem_map.mpr ⟨_,hv,rfl⟩⟩,⟨rfl,c,.root hv,rfl⟩,.refl⟩
    | @slot b table v hb hread hv ih =>
      rintro c rfl
      obtain ⟨x,hx,hmade,hrun⟩ := ih b rfl
      exact ⟨x,hx,hmade,hrun.tail ⟨hc.points hb hread hv rfl,rfl,c,.slot hb hread hv,rfl⟩⟩
  rintro ⟨q,id⟩ ⟨rfl,c,hcell,rfl⟩
  exact hpath _ hcell c rfl

theorem carried_injective (hv : h.Storable vs s r) : ∀ v w, h.Occurs vs v → h.Occurs vs w →
    v.carried entry = w.carried entry → v = w := by
  have hapart : ∀ c id, h.Occurs vs (.table c) → h.Occurs vs (.shared id) → entry c ≠ id := by
    rintro c _ hcell hshared rfl
    have hfresh := hc.fresh c ((hc.mem_cells c).mpr hcell)
    rw [hv.alive _ hshared] at hfresh
    cases hfresh
  intro v w hv hw heq
  cases v with
  | table c =>
    cases w with
    | table d =>
      have hentry := Value.shared.inj heq
      rw [hc.injective c ((hc.mem_cells c).mpr hv) d ((hc.mem_cells d).mpr hw) hentry]
    | shared id => exact absurd (Value.shared.inj heq) (hapart c id hv hw)
    | nil | boolean | integer | float | string | function => cases heq
  | shared id =>
    cases w with
    | table d => exact absurd (Value.shared.inj heq).symm (hapart d id hw hv)
    | shared id' => exact heq
    | nil | boolean | integer | float | string | function => cases heq
  | nil | boolean | integer | float | string | function =>
    cases w with
    | table d => cases heq
    | nil | boolean | integer | float | string | function | shared => exact heq

/-- Where the tables made are as they were, and those that they hold alive, what the values lead to
is what it was. -/
theorem carried {u : Store} (hv : h.Storable vs s r) (hkept : t.Preserves (Address.made h vs r entry) u)
    (halive : ∀ id, h.Occurs vs (.shared id) → u.isAlive r id = true) : Carried h vs s r entry u where
  injective := hc.carried_injective hv
  fresh c hcell := hc.fresh c ((hc.mem_cells c).mpr hcell)
  tables c hcell := by
    obtain ⟨table,shared,hread,htable,hmirrors⟩ := hc.tables c ((hc.mem_cells c).mpr hcell)
    refine ⟨table,shared,hread,?_,hmirrors.toValue_eq⟩
    have hsame := hkept ⟨r,entry c⟩ ⟨rfl,c,hcell,rfl⟩
    rw [Store.readTable, hsame, htable]
    rfl
  alive := halive

end Copied

theorem Capture.later_storeAll {c c' : Capture} (hall : c.storeAll s h vs = (.ok objects,c',t)) :
    s.Later t := by
  induction vs generalizing c s objects with
  | nil =>
    cases hall
    exact .refl t
  | cons v rest ih =>
    have hfirst := later_store c s h v
    simp only [storeAll] at hall
    rcases hstore : c.store s h v with ⟨fault | object,c₁,s₁⟩
    · rw [hstore] at hall
      cases hall
    · rw [hstore] at hall hfirst
      rcases hrest : c₁.storeAll s₁ h rest with ⟨fault | objects,c₂,s₂⟩
      · simp only [hrest] at hall
        cases hall
      · simp only [hrest] at hall
        cases hall
        exact hfirst.trans (ih hrest)

namespace World

variable {w : World} {out : Multiset Share}

/-- The arguments of a launch go through one capture, in order. -/
theorem captureArguments_append {c c' : Capture}
    (hall : c.storeAll w.store w.memory.heap vs = (.ok objects,c',t)) (n : ℕ) (done : List Stored)
    (rest : List Value) : w.captureArguments c n done (vs ++ rest) =
      (w.setStore t).captureArguments c' (n + vs.length) (done ++ objects) rest := by
  induction vs generalizing w c objects n done with
  | nil =>
    cases hall
    rw [List.append_nil]
    rfl
  | cons v vs ih =>
    simp only [Capture.storeAll] at hall
    rcases hstore : c.store w.store w.memory.heap v with ⟨fault | object,c₁,s₁⟩
    · rw [hstore] at hall
      cases hall
    · rw [hstore] at hall
      rcases hrest : c₁.storeAll s₁ w.memory.heap vs with ⟨fault | objects,c₂,s₂⟩
      · simp only [hrest] at hall
        cases hall
      · simp only [hrest] at hall
        cases hall
        rw [List.cons_append, captureArguments, hstore]
        have hnext := ih (w := w.setStore s₁) hrest (n + 1) (done ++ [object])
        rw [List.append_assoc, add_right_comm] at hnext
        exact hnext

theorem captureArguments_eq {c c' : Capture}
    (hall : c.storeAll w.store w.memory.heap vs = (.ok objects,c',t)) (n : ℕ) (done : List Stored) :
    w.captureArguments c n done vs = (.ok (done ++ objects),w.setStore (c'.finish t)) := by
  have hend := captureArguments_append hall n done []
  rw [List.append_nil] at hend
  exact hend

/-- Capturing the values of a graph for a launch succeeds and copies it. -/
theorem captureArguments_copied (hw : w.Accounted out) (hr : r < w.store.registries.size)
    (hv : w.memory.heap.Storable vs w.store r) : ∃ objects t cells entry,
      w.captureArguments { registry := r } 1 [] vs = (.ok objects,w.setStore t) ∧
        Copied w.memory.heap vs w.store r objects t cells entry ∧
          (w.setStore t).Accounted ((objects.map Stored.shares).sum + out) := by
  obtain ⟨objects,c,t,cells,entry,hall,hcopied⟩ := Capture.storeAll_copied hw.balanced hr hv
  refine ⟨objects,c.finish t,cells,entry,captureArguments_eq hall 1 [],hcopied,?_⟩
  have hlater : w.store.Later (c.finish t) :=
    (Capture.later_storeAll hall).trans (Capture.later_finish c t)
  have hmoves : Moves w out (w.setStore (c.finish t)) ((objects.map Stored.shares).sum + out) := by
    refine Moves.of_store hlater (fun hhandles => (ofHandles_objects objects).add hhandles)
      fun others hb => ?_
    rw [add_assoc]
    exact Capture.balanced_pass hb hr hall
  exact hmoves.accounted hw

end World

end Workers
