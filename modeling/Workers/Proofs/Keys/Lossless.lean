import Workers.Proofs.Keys.Equality
import Workers.Proofs.Tables.Normal
import Workers.Proofs.Tables.Corresponding
/-! # Keys lose nothing

The value that a key stands for is equal to the one that the key was made of, and is made into that
key again.  So a table that has keys of values only, as all tables come to have, can be read by the
list of its keys.
-/
namespace Workers

namespace Value

variable {v : Value} {k : Key}

theorem toKey_float {x : Binary64} (hx : x.isNaN = false)
    (hwhole : ∀ n, x.toInt? = some n → 2 ^ 63 ≤ n.natAbs) :
    (Value.float x).toKey = .ok (.float x) := by
  simp only [toKey, hx, Bool.false_eq_true, if_false, Nat.pow_eq]
  split
  · rename_i n hn
    rw [if_neg (Nat.not_lt.mpr (hwhole n hn))]
  · rfl

theorem Keyed.toKey_toValue (h : v.Keyed k) : k.toValue.toKey = .ok k := by
  cases h with
  | boolean | integer | string | whole => rfl
  | float hx hwhole => exact toKey_float hx hwhole

theorem Keyed.alike (h : v.Keyed k) : Alike k.toValue v := by
  cases h with
  | boolean | integer | string => exact .refl rfl
  | float hx => exact .refl hx
  | whole hx =>
    obtain ⟨hfinite,hrational⟩ := Binary64.quantity_rational (Binary64.toInt?_eq_some.mp hx)
    exact .rounded (Binary64.nearest_of_rational hfinite hrational)

end Value

theorem Key.Normal.toKey_toValue {k : Key} (hk : k.Normal) : k.toValue.toKey = .ok k := by
  obtain ⟨v,hv⟩ := hk
  exact (Value.keyed_of_toKey hv).toKey_toValue

namespace Context

variable {c : Context} {m : Memory} {k : Key} {cell : CellId} {id : EntryId}

/-- A look-up by the value of a key gives what the table holds under the key.  What a shared table
holds is a table at times: one of another registry, or a freed one that was only referred to weakly,
is not given. -/
def Finds (c : Context) (m : Memory) (k : Key) : Value → Prop
  | .table cell => ∃ t value, m.heap.read cell = .ok t ∧ t.get? k = some value ∧
      (c.get m (.table cell) k.toValue).1 = .ok value
  | .shared id => ∃ t object, m.store.readTable c.registry id = .ok t ∧ t.get? k = some object ∧
      ((∀ h ∈ object.handles, h.registry = c.registry ∧
        (h.strong = true ∨ m.store.isAlive h.registry h.entry = true)) →
        (c.get m (.shared id) k.toValue).1 = .ok object.toValue)
  | _ => False

theorem finds_local {t : LocalTable} (hk : k.Normal) (ht : m.heap.read cell = .ok t)
    (hmem : k ∈ t.keys) :
    c.Finds m k (.table cell) := by
  obtain ⟨value,hvalue⟩ := (t.mem_keys_iff k).mp hmem
  refine ⟨t,value,ht,hvalue,?_⟩
  rw [get_local hk.toKey_toValue ht, hvalue]
  rfl

/-- What is copied from a table is loaded as the value that it stands for. -/
theorem load_copy {object : Stored} {s : Store}
    (hlive : ∀ h ∈ object.handles, h.registry = c.registry ∧ s.isAlive h.registry h.entry = true) :
    ∃ c' t, c.load (object.copy s).2 (object.copy s).1 = .ok (object.toValue,c',t) := by
  have hkeeps := Store.keeps_copyStored s object
  cases object with
  | nil | boolean | integer | float | string | function => exact ⟨c,s,rfl⟩
  | shared h =>
    obtain ⟨hregistry,halive⟩ := hlive h (List.mem_singleton.mpr rfl)
    have hcopied : (h.copy s).1.entry = h.entry ∧ (h.copy s).1.registry = h.registry := by
      unfold TableHandle.copy
      simp only
      split <;> exact ⟨rfl,rfl⟩
    have halive' : ∀ handle, Stored.shared (h.copy s).1 = .shared handle →
        handle.registry = c.registry ∧ (h.copy s).2.isAlive c.registry handle.entry = true := by
      intro handle heq
      cases heq
      refine ⟨hcopied.2.trans hregistry,?_⟩
      rw [hcopied.1, ← hregistry]
      exact (hkeeps.isAlive _ _).trans halive
    obtain ⟨c',t,hload⟩ := load_eq halive'
    refine ⟨c',t,hload.trans ?_⟩
    simp only [Stored.toValue, hcopied.1]

theorem get_of_live {t : SharedTable} {object : Stored} (hk : k.Normal)
    (ht : m.store.readTable c.registry id = .ok t) (hobject : t.get? k = some object)
    (hlive : ∀ h ∈ object.handles, h.registry = c.registry ∧ m.store.isAlive h.registry h.entry = true) :
    (c.get m (.shared id) k.toValue).1 = .ok object.toValue := by
  obtain ⟨c',u,hload⟩ := load_copy hlive
  simp only [get, hk.toKey_toValue, ht, hobject, hload]

end Context

namespace GlobalState

variable {e : GlobalState}

/-- A table in a table is there as long as it is held strongly. -/
theorem Accounted.alive_of_filed (h : e.Accounted) {r : RegistryId} {id : EntryId}
    {t : SharedTable} (ht : e.world.store.readTable r id = .ok t) {k : Key} {object : Stored}
    (hobject : t.get? k = some object) {handle : TableHandle} (hmem : handle ∈ object.handles)
    (hstrong : handle.strong = true) :
    e.world.store.isAlive handle.registry handle.entry = true := by
  have hcontent : e.world.store.content? r id = some t := by
    obtain ⟨entry,hentry,hg⟩ := Store.exists_entry (Store.readTable_eq_ok.mp ht)
    simp [Store.content?, hentry, hg]
  obtain ⟨entry,hfind,rfl⟩ := Option.map_eq_some_iff.mp hobject
  have hhandles : handle ∈ SharedTable.handles t :=
    List.mem_flatMap.mpr ⟨entry.2,List.mem_map_of_mem (List.mem_of_find?_eq_some hfind),hmem⟩
  exact h.live_of_points (x := ⟨r,id⟩) (y := ⟨handle.registry,handle.entry⟩)
    ⟨t,hcontent,handle,hhandles,hstrong,rfl,rfl⟩

/-- Every key that is listed is found. -/
theorem Accounted.finds (h : e.Accounted) (hn : e.world.memory.Normal) {c : Context}
    {table : Value} {keys : List Key} (hkeys : c.keys e.world.memory table = .ok keys) {k : Key}
    (hmem : k ∈ keys) : c.Finds e.world.memory k table := by
  cases table with
  | nil | boolean | integer | float | string | function => cases hkeys
  | table cell =>
    cases ht : e.world.memory.heap.read cell with
    | error fault => simp [Context.keys, ht, Except.map] at hkeys
    | ok t =>
      simp only [Context.keys, ht, Except.map, Except.ok.injEq] at hkeys
      subst hkeys
      exact Context.finds_local (hn.heap.read ht k hmem) ht hmem
  | shared id =>
    cases ht : e.world.memory.store.readTable c.registry id with
    | error fault => simp [Context.keys, ht, Except.map] at hkeys
    | ok t =>
      simp only [Context.keys, ht, Except.map, Except.ok.injEq] at hkeys
      subst hkeys
      obtain ⟨object,hobject⟩ := (t.mem_keys_iff k).mp hmem
      have hk : k.Normal := by
        obtain ⟨entry,hentry,hg⟩ := Store.exists_entry (Store.readTable_eq_ok.mp ht)
        exact hn.store c.registry id t (by simp [Store.content?, hentry, hg]) k hmem
      refine ⟨t,object,ht,hobject,fun hpresent => Context.get_of_live hk ht hobject
        fun handle hhandle => ?_⟩
      obtain ⟨hregistry,hheld⟩ := hpresent handle hhandle
      exact ⟨hregistry,hheld.elim (h.alive_of_filed ht hobject hhandle) fun halive => halive⟩

end GlobalState

namespace Value

/-- A key stands for a value that is equal to the one that it was made of, and that has this key.
So after any run of operations, and in any context, every key that a table lists is found by that
value. -/
theorem toKey_lossless {ops : List Operation} (hops : ∀ op ∈ ops, op.Normal) :
    (∀ (v : Value) (k : Key), v.toKey = .ok k → k.toValue.same v = true ∧ k.toValue.toKey = .ok k) ∧
      ∀ (c : Context) (table : Value) (keys : List Key), c.keys (GlobalState.run ops).world.memory
        table = .ok keys →
        ∀ k ∈ keys, c.Finds (GlobalState.run ops).world.memory k table := by
  refine ⟨fun v k hv => ?_,fun c table keys hkeys k hmem => ?_⟩
  · have hkeyed := keyed_of_toKey hv
    exact ⟨same_of_alike hkeyed.alike,hkeyed.toKey_toValue⟩
  · exact (GlobalState.run_accounted ops).finds (GlobalState.run_normal hops) hkeys hmem

/-- A table that holds another under the key of four is read by the list of its keys. -/
theorem toKey_lossless_four :
    let ops : List Operation := [.newPool,.newContext 0,.create 0 [],.create 0 [.integer 4]]
    let w := (GlobalState.run ops).world
    ((∀ op ∈ ops, op.Normal) ∧ (w.context 0).keys w.memory (.shared ⟨1,0⟩) = .ok [.integer 4]) ∧
      (∀ (v : Value) (k : Key), v.toKey = .ok k → k.toValue.same v = true ∧ k.toValue.toKey = .ok k) ∧
        (w.context 0).Finds w.memory (.integer 4) (.shared ⟨1,0⟩) := by
  intro ops w
  have hfour : Key.Normal (.integer 4) := ⟨.integer 4,rfl⟩
  have hops : ∀ op ∈ ops, op.Normal := by
    intro op hop
    simp only [ops, List.mem_cons, List.not_mem_nil, or_false] at hop
    rcases hop with rfl | rfl | rfl | rfl
    · trivial
    · trivial
    · exact fun k hk => absurd hk List.not_mem_nil
    · exact fun k hk => List.mem_singleton.mp hk ▸ hfour
  have hkeys : (w.context 0).keys w.memory (.shared ⟨1,0⟩) = .ok [.integer 4] := rfl
  obtain ⟨hsame,hfinds⟩ := toKey_lossless hops
  exact ⟨⟨hops,hkeys⟩,hsame,hfinds _ _ _ hkeys _ (List.mem_singleton.mpr rfl)⟩

end Value

end Workers
