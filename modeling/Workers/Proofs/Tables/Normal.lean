import Workers.Proofs.Ledger.Reachability
import Workers.Proofs.Tables.Lookup
/-! # The keys that tables come to hold

Code files under the keys of values only, and a capture files a table under the keys that it had.
So whatever operations have been made, the keys of every local table and of every shared one are
keys of values, as long as nobody else brings in tables with other keys.
-/
namespace Workers

def Key.Normal (k : Key) : Prop := ∃ v : Value, v.toKey = .ok k

namespace OrderedMap

variable {ν : Type} {t : OrderedMap Key ν} {k : Key} {v : ν}

def Normal (t : OrderedMap Key ν) : Prop := ∀ k ∈ t.keys, k.Normal

theorem normal_empty : (empty : OrderedMap Key ν).Normal := nofun

theorem Normal.insert (h : t.Normal) (hk : k.Normal) : (t.insert k v).Normal := by
  intro j hj
  by_cases hmem : k ∈ t.keys
  · rw [keys_insert_of_mem v hmem] at hj
    exact h j hj
  · rw [keys_insert_of_not_mem v hmem] at hj
    rcases List.mem_append.mp hj with hj | hj
    · exact h j hj
    · rwa [List.mem_singleton.mp hj]

theorem Normal.erase (h : t.Normal) : (t.erase k).Normal := by
  intro j hj
  rw [keys_erase] at hj
  exact h j (List.mem_of_mem_filter hj)

end OrderedMap

theorem Context.normal_write {t : SharedTable} {k : Key} (h : t.Normal) (hk : k.Normal)
    (object? : Option Stored) :
    (write k object? t).2.Normal := by
  cases object? with
  | none => exact h.erase
  | some object => exact h.insert hk

namespace Heap

variable {h h' : Heap} {c : CellId} {t : LocalTable}

def Normal (h : Heap) : Prop :=
  ∀ (c : CellId) (g : Guarded LocalTable), h.cells[c]? = some g → g.content.Normal

theorem Normal.read (hn : h.Normal) (hr : h.read c = .ok t) : t.Normal := by
  unfold Heap.read at hr
  split at hr
  · rename_i g hg
    obtain ⟨content,poisoned⟩ := g
    cases poisoned with
    | false =>
      cases hr
      exact hn c _ hg
    | true => cases hr
  · cases hr

theorem Normal.create (hn : h.Normal) : h.create.2.Normal := by
  intro c g hg
  simp only [Heap.create, Array.getElem?_push] at hg
  split at hg
  · cases hg
    exact OrderedMap.normal_empty
  · exact hn c g hg

theorem Normal.modify (hn : h.Normal) (c : CellId) {f : Guarded LocalTable → Guarded LocalTable}
    (hf : ∀ g, g.content.Normal → (f g).content.Normal) :
    Normal { h with cells := h.cells.modify c f } := by
  intro d g hg
  rw [Array.getElem?_modify] at hg
  split at hg
  · obtain ⟨old,hold,rfl⟩ := Option.map_eq_some_iff.mp hg
    exact hf old (hn d old hold)
  · exact hn d g hg

theorem Normal.edit (hn : h.Normal) {f : LocalTable → LocalTable} (hf : ∀ t, t.Normal → (f t).Normal)
    (he : h.edit c f = .ok h') : h'.Normal := by
  unfold Heap.edit at he
  split at he
  · rename_i g hg
    obtain ⟨content,poisoned⟩ := g
    cases poisoned with
    | false =>
      cases he
      exact hn.modify c fun _ _ => hf content (hn c _ hg)
    | true => cases he
  · cases he

end Heap

/-- Filing a content leaves the others what they were. -/
theorem Arena.find?_of_create {τ : Type} {a : Arena τ} {content : τ} {holder : Holder}
    {id : EntryId} {e : Entry τ} (h : (a.create content holder).2.find? id = some e) :
    e = ⟨content,[holder]⟩ ∨ a.find? id = some e := by
  unfold create at h
  split at h
  · simp only [find?, setEntry, Array.getElem?_modify] at h ⊢
    split at h
    · obtain ⟨slot,hslot,hentry⟩ := Option.bind_eq_some_iff.mp h
      obtain ⟨old,_,rfl⟩ := Option.map_eq_some_iff.mp hslot
      split at hentry
      · exact .inl (Option.some.inj hentry).symm
      · cases hentry
    · exact .inr h
  · simp only [find?, Array.getElem?_push] at h ⊢
    split at h
    · rw [Option.bind_some] at h
      split at h
      · exact .inl (Option.some.inj h).symm
      · cases h
    · exact .inr h

namespace Store

variable {s t : Store} {r : RegistryId} {table : SharedTable}

def Normal (s : Store) : Prop := ∀ r id table, s.content? r id = some table → OrderedMap.Normal table

theorem Shrinks.normal (h : s.Shrinks t) (hs : s.Normal) : t.Normal :=
  fun r id table hc => hs r id table (h r id table hc)

theorem Keeps.normal (h : s.Keeps t) (hs : s.Normal) : t.Normal := h.shrinks.normal hs

theorem Normal.create (hs : s.Normal) (ht : OrderedMap.Normal table) (r : RegistryId) (holder : Holder) :
    (s.create r table holder).2.Normal := by
  intro q id table' hc
  have hsetArena : (s.create r table holder).2 = s.setArena r
    ((s.arena r).create { content := table } holder).2 := rfl
  rw [hsetArena, content?_setArena] at hc
  split at hc
  · obtain ⟨e,he,rfl⟩ := Option.map_eq_some_iff.mp hc
    rcases Arena.find?_of_create he with rfl | hold
    · exact ht
    · exact hs r id _ (by rw [content?, hold]; rfl)
  · exact hs q id table' hc

theorem Normal.createHandle (hs : s.Normal) (ht : OrderedMap.Normal table) (r : RegistryId) :
    (TableHandle.create s r table).2.Normal :=
  Normal.create ((keeps_nextNumber s r).normal hs) ht r _

theorem Normal.edit (hs : s.Normal) {id : EntryId} {k : Key} {object? replaced : Option Stored}
    (hk : k.Normal) (he : s.editTable r id (Context.write k object?) = .ok (replaced,t)) :
    t.Normal := by
  obtain ⟨table,htable,hcontent⟩ := Context.content?_editTable he
  intro q j table' hc
  rw [hcontent] at hc
  split at hc
  · cases hc
    exact Context.normal_write (hs r id table htable) hk object?
  · exact hs q j table' hc

end Store

namespace Capture

/-- A capture files tables under the keys that they have. -/
theorem normal_pass {h : Heap} (hh : h.Normal) (r : RegistryId) :
    (∀ path p v, p.store.Normal → (storeValue h r path p v).2.store.Normal) ∧
      ∀ path p done es, OrderedMap.Normal done → (∀ e ∈ es, e.1.Normal) → p.store.Normal →
        (storeEntries h r path p done es).2.store.Normal ∧
          ∀ shared, (storeEntries h r path p done es).1 = .ok shared → OrderedMap.Normal shared := by
  apply @capture_induction h r (fun _ p _ _ p' => p.store.Normal → p'.store.Normal)
    (fun _ p done es o p' => OrderedMap.Normal done → (∀ e ∈ es, e.1.Normal) → p.store.Normal →
      p'.store.Normal ∧ ∀ shared, o = .ok shared → OrderedMap.Normal shared)
  case scalar => exact fun _ _ _ _ _ hp => hp
  case attached | broken =>
    intro _ p id _ store ha hp
    have hkeeps := Store.keeps_attach p.store r id
    rw [ha] at hkeeps
    exact hkeeps.normal hp
  case cyclic => exact fun _ _ _ _ hp => hp
  case again => exact fun _ p _ handle _ _ hp => (Store.keeps_copy p.store handle).normal hp
  case unreadable => exact fun _ _ _ _ _ _ _ hp => hp
  case refused =>
    intro _ p _ table _ _ _ _ hread _ he hp
    have hkeys : ∀ e ∈ table.entries, e.1.Normal :=
      fun e hmem => hh.read hread e.1 (List.mem_map_of_mem hmem)
    exact (he OrderedMap.normal_empty hkeys hp).1
  case copied =>
    intro _ p _ table shared p' handle store kept store' _ _ hread _ he hcreate hcopy hp
    have hkeys : ∀ e ∈ table.entries, e.1.Normal :=
      fun e hmem => hh.read hread e.1 (List.mem_map_of_mem hmem)
    obtain ⟨hp',hshared⟩ := he OrderedMap.normal_empty hkeys hp
    have hcreated := Store.Normal.createHandle hp' (hshared shared rfl) r
    have hkeeps := Store.keeps_copy store handle
    rw [hcreate] at hcreated
    rw [hcopy] at hkeeps
    exact hkeeps.normal hcreated
  case complete =>
    intro _ p done hdone _ hp
    refine ⟨hp,fun shared heq => ?_⟩
    cases heq
    exact hdone
  case next =>
    intro _ p done key v rest object p' _ _ _ hv he hdone hes hp
    have hkey : key.Normal := hes (key,v) List.mem_cons_self
    exact he (hdone.insert hkey) (fun e hmem => hes e (List.mem_cons_of_mem _ hmem)) (hv hp)
  case stuck =>
    intro _ p done key v rest refusal p' _ hv _ _ hp
    exact ⟨(Store.shrinks_settle p'.store _).normal (hv hp),nofun⟩

theorem normal_store {h : Heap} {s : Store} (hh : h.Normal) (hs : s.Normal) (c : Capture) (v : Value) :
    (c.store s h v).2.2.Normal := by
  have hpass := (normal_pass hh c.registry).1 c.path ⟨s,c.captured⟩ v hs
  unfold Capture.store
  split
  all_goals
    rename_i heq
    rw [heq] at hpass
    exact hpass

end Capture

theorem Value.normal_store {h : Heap} {s : Store} (hh : h.Normal) (hs : s.Normal) (v : Value)
    (r : RegistryId) :
    (v.store s h r).2.Normal := by
  have hpass := Capture.normal_store hh hs { registry := r } v
  exact (Capture.shrinks_finish _ _).normal hpass

structure Memory.Normal (m : Memory) : Prop where
  heap : m.heap.Normal
  store : m.store.Normal

theorem Context.normal_captured {m : Memory} (h : m.Normal) (c : Context) (value : Value) :
    (c.captured m value).2.Normal := by
  unfold captured
  split
  · exact h.store
  · exact value.normal_store h.heap h.store _

/-- An assignment files under the key of a value. -/
theorem Context.normal_set {m : Memory} (h : m.Normal) (c : Context) (table key value : Value) :
    (c.set m table key value).2.Normal := by
  cases hkey : key.toKey with
  | error fault =>
    simp only [set, hkey]
    exact h
  | ok k =>
    have hk : k.Normal := ⟨key,hkey⟩
    cases table with
    | nil | boolean | integer | float | string | function =>
      simp only [set, hkey]
      exact h
    | table cell =>
      simp only [set, hkey]
      split
      · rename_i heap hedit
        refine ⟨h.heap.edit (fun t ht => ?_) hedit,h.store⟩
        split
        · exact ht.erase
        · exact ht.insert hk
      · exact h
    | shared id =>
      have hcaptured := c.normal_captured h value
      rw [set_shared c m key value hkey]
      split
      · exact ⟨h.heap,hcaptured⟩
      · split
        · rename_i hedit
          exact ⟨h.heap,(Store.shrinks_drop _ _).normal (hcaptured.edit hk hedit)⟩
        · exact ⟨h.heap,(Store.shrinks_drop _ _).normal hcaptured⟩

namespace World

variable {w w' : World}

theorem OnlyShrinks.normal (h : w.OnlyShrinks w') (hn : w.memory.Normal) : w'.memory.Normal :=
  ⟨h.heap ▸ hn.heap,h.store.normal hn.store⟩

theorem normal_share (hn : w.memory.Normal) (c : ContextId) (v : Value) :
    (w.share c v).2.memory.Normal := by
  have hstore : (v.store w.store w.memory.heap (w.context c).registry).2.Normal :=
    v.normal_store hn.heap hn.store _
  unfold share
  simp only
  split
  · rename_i heq
    rw [heq] at hstore
    exact ⟨hn.heap,hstore⟩
  · rename_i heq
    rw [heq] at hstore
    split
    · rename_i hload
      exact ⟨hn.heap,((Context.keeps_load hload).shrinks.trans (Store.shrinks_drop _ _)).normal hstore⟩
    · exact ⟨hn.heap,(Store.shrinks_drop _ _).normal hstore⟩

/-- Whatever code asks, it files under keys of values. -/
theorem normal_answer (hn : w.memory.Normal) (c : ContextId) (q : Query) :
    (w.answer c q).2.memory.Normal := by
  cases q with
  | length | paths | hookStep | count | notify | isNotified | newNotifier => exact hn
  | newTable => exact ⟨hn.heap.create,hn.store⟩
  | newShared => exact ⟨hn.heap,Store.Normal.create hn.store OrderedMap.normal_empty _ _⟩
  | get table key => exact ⟨hn.heap,((w.context c).shrinks_get w.memory table key).normal hn.store⟩
  | set table key value => exact (w.context c).normal_set hn table key value
  | share value => exact normal_share hn c value
  | destroy => exact (onlyShrinks_destroy w c).normal hn
  | retarget target => exact (memory_retarget w (w.context c).hook target).symm ▸ hn

end World

def Operation.Normal : Operation → Prop
  | .create _ keys => ∀ k ∈ keys, k.Normal
  | _ => True

namespace GlobalState

variable {e : GlobalState}

theorem normal_tableOf {keys : List Key} {objects : List Stored} (hkeys : ∀ k ∈ keys, k.Normal)
    (distinct : keys.Nodup) (enough : keys.length ≤ objects.length) :
    OrderedMap.Normal (tableOf keys objects distinct enough) := by
  intro k hk
  simp only [OrderedMap.keys, tableOf, List.map_fst_zip enough] at hk
  exact hkeys k hk

/-- An operation leaves keys of values only. -/
theorem normal_step (hn : e.world.memory.Normal) {op : Operation} (hop : op.Normal) :
    (e.step op).world.memory.Normal := by
  cases op with
  | create r keys =>
    unfold step
    dsimp only
    split
    · rename_i ok
      exact ⟨hn.heap,Store.Normal.createHandle hn.store (normal_tableOf hop ok.1 ok.2.1) r⟩
    · exact hn
  | capture v =>
    unfold step
    dsimp only
    split
    · exact hn
    · rename_i capture rest _
      have hstore : (capture.store e.world.store e.world.memory.heap v).2.2.Normal :=
        capture.normal_store hn.heap hn.store v
      split
      all_goals
        rename_i heq
        rw [heq] at hstore
        exact ⟨hn.heap,hstore⟩
  | store c v =>
    have hstore : (v.store e.world.store e.world.memory.heap (e.world.context c).registry).2.Normal :=
      v.normal_store hn.heap hn.store _
    unfold step
    dsimp only
    split
    · split
      all_goals
        rename_i heq
        rw [heq] at hstore
        exact ⟨hn.heap,hstore⟩
    · exact hn
  | ask c q =>
    unfold step
    dsimp only
    split
    · exact World.normal_answer hn c q
    · exact hn
  | poisonLocal c => exact ⟨hn.heap.modify c fun _ hg => hg,hn.store⟩
  | _ => exact (onlyShrinks_step e id).normal hn

/-- After any run of operations tables have keys of values only. -/
theorem run_normal {ops : List Operation} (hops : ∀ op ∈ ops, op.Normal) :
    (run ops).world.memory.Normal := by
  induction ops using List.reverseRecOn with
  | nil =>
    refine ⟨fun c g hg => ?_,fun r id table hc => ?_⟩
    · simp [run] at hg
    · simp [run, Store.content?, Store.arena, Store.registry, Arena.find?] at hc
  | append_singleton ops op ih =>
    have hbefore := ih fun op hop => hops op (List.mem_append_left _ hop)
    rw [run, List.foldl_append]
    exact normal_step hbefore (hops op (List.mem_append_right _ List.mem_cons_self))

end GlobalState

end Workers
