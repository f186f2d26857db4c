import Mathlib.Data.Set.Card
import Workers.Proofs.Capture.Undone
import Workers.Proofs.Tables.Access
/-! # Local and shared tables side by side

The same accesses to a fresh local table and to a fresh shared one, call by call.  As long as no
table is put into them, the shared table stands for the local one: same keys, same order, and an
object for each value.  Every call keeps this and is answered alike, so nothing that code can ask
tells the two apart; and what they hold is decided by the last assignment to each key alone.
-/
namespace Workers

inductive Access where
  | get (key : Value)
  | set (key value : Value)
  | length

inductive Access.Answer where
  | got (outcome : Except Fault Value)
  | done (outcome : Except Fault Unit)
  | measured (outcome : Except Fault Nat)

namespace Context

def access (c : Context) (m : Memory) (table : Value) : Access → Access.Answer × Context × Memory
  | .get key =>
    let (outcome,c,store) := c.get m table key
    (.got outcome,c,{ m with store })
  | .set key value =>
    let (outcome,m) := c.set m table key value
    (.done outcome,c,m)
  | .length => (.measured (c.length m table),c,m)

def accessBoth (c : Context) (m : Memory) (first second : Value) :
    List Access → List (Access.Answer × Access.Answer) × Context × Memory
  | [] => ([],c,m)
  | a :: rest =>
    let (answer,c,m) := c.access m first a
    let (answer',c,m) := c.access m second a
    let (answers,c,m) := c.accessBoth m first second rest
    ((answer,answer') :: answers,c,m)

def newTables (c : Context) (m : Memory) : Value × Value × Context × Memory :=
  let (first,m) := m.newTable
  let (second,c,store) := c.newShared m.store
  (first,second,c,{ m with store })

def keys (c : Context) (m : Memory) : Value → Except Fault (List Key)
  | .table cell => (m.heap.read cell).map OrderedMap.keys
  | .shared id => (m.store.readTable c.registry id).map OrderedMap.keys
  | other => .error (.notIndexable other)

end Context

namespace Access

/-- Nothing but nil, a scalar or a routine is assigned; any value may stand for a key. -/
def Plain : Access → Prop
  | .set _ value => ∃ object, value.scalar? = some object
  | _ => True

def assigned (k : Key) : Access → Option Value
  | .set key value => if key.toKey.toOption = some k then some value else none
  | _ => none

def lastAssigned (calls : List Access) (k : Key) : Option Value := calls.reverse.findSome? (assigned k)

def effect (t : LocalTable) : Access → LocalTable
  | .set key value =>
    match key.toKey with
    | .ok k => Context.assign k value t
    | .error _ => t
  | _ => t

def answer (t : LocalTable) : Access → Answer
  | .get key => .got (key.toKey.map fun k => (t.get? k).getD .nil)
  | .set key _ => .done (key.toKey.map fun _ => ())
  | .length => .measured (.ok t.size)

section History

variable {t : LocalTable} {k j : Key} {value : Value}

theorem get?_effect (t : LocalTable) (a : Access) (j : Key) :
    (effect t a).get? j = (a.assigned j).elim (t.get? j) fun value => if value.isNil then none
      else some value := by
  cases a with
  | get | length => rfl
  | set key value =>
    cases hk : key.toKey with
    | error fault => simp [effect, assigned, hk, Except.toOption]
    | ok k =>
      simp only [effect, assigned, hk, Context.get?_assign, Except.toOption, Option.some.injEq]
      by_cases hj : j = k
      · simp [hj]
      · have hne : ¬ k = j := fun h => hj h.symm
        simp [hj, hne]

/-- After any calls on an empty table, a key has the value that was assigned to it last, unless that
is nil or there is none. -/
theorem get?_effects (calls : List Access) (k : Key) :
    (calls.foldl effect .empty).get? k =
      (lastAssigned calls k).bind fun value => if value.isNil then none else some value := by
  induction calls using List.reverseRecOn with
  | nil => rfl
  | append_singleton calls a ih =>
    have hlast : lastAssigned (calls ++ [a]) k = (a.assigned k).or (lastAssigned calls k) := by
      unfold lastAssigned
      rw [List.reverse_append]
      cases ha : a.assigned k <;> simp [ha]
    rw [List.foldl_append, List.foldl_cons, List.foldl_nil, get?_effect, hlast, ih]
    cases a.assigned k <;> rfl

theorem mem_keys_effects (calls : List Access) (k : Key) :
    k ∈ (calls.foldl effect .empty).keys ↔ ∃ value, lastAssigned calls k = some value ∧
    value ≠ .nil := by
  rw [OrderedMap.mem_keys_iff, get?_effects]
  constructor
  · rintro ⟨value,hvalue⟩
    obtain ⟨last,hlast,hkept⟩ := Option.bind_eq_some_iff.mp hvalue
    refine ⟨last,hlast,fun hnil => ?_⟩
    rw [hnil] at hkept
    cases hkept
  · rintro ⟨value,hlast,hne⟩
    have hnil : ¬ value.isNil = true := fun h => hne (Value.isNil_iff.mp h)
    exact ⟨value,by rw [hlast, Option.bind_some, if_neg hnil]⟩

theorem size_effects (calls : List Access) : (calls.foldl effect .empty).size =
    Set.ncard { k | ∃ value, lastAssigned calls k = some value ∧ value ≠ .nil } := by
  rw [OrderedMap.size_eq_card, ← Set.ncard_coe_finset]
  congr 1
  ext k
  rw [Finset.mem_coe, List.mem_toFinset, mem_keys_effects]
  rfl

end History

end Access

/-- A local table, and the shared one that stands for it, in which nothing has a reference. -/
structure CorrespondingTables (c : Context) (m : Memory) (cell : CellId) (id : EntryId)
    (shared : SharedTable) : Prop where
  heap : m.heap.read cell = .ok (shared.map Stored.toValue)
  store : m.store.readTable c.registry id = .ok shared
  plain : ∀ k object, shared.get? k = some object → object.handles = []

section Calls

variable {c : Context} {m : Memory} {cell : CellId} {id : EntryId} {u : SharedTable} {a : Access}

/-- A local table answers from what it holds. -/
theorem access_local {t : LocalTable} (ht : m.heap.read cell = .ok t) (a : Access) :
    ∃ heap, c.access m (.table cell) a = (a.answer t,c,{ m with heap }) ∧
      heap.read cell = .ok (a.effect t) := by
  cases a with
  | length =>
    refine ⟨m.heap,?_,ht⟩
    simp only [Context.access, Context.length, ht]
    rfl
  | get key =>
    refine ⟨m.heap,?_,ht⟩
    cases hk : key.toKey with
    | error fault => simp [Context.access, Context.get, hk, Access.answer, Except.map]
    | ok k => simp [Context.access, Context.get_local hk ht, hk, Access.answer, Except.map]
  | set key value =>
    cases hk : key.toKey with
    | error fault =>
      refine ⟨m.heap,?_,by simpa [Access.effect, hk] using ht⟩
      simp [Context.access, Context.set, hk, Access.answer, Except.map]
    | ok k =>
      obtain ⟨heap,hset,hread⟩ := Context.set_local c value hk ht
      refine ⟨heap,?_,by simpa [Access.effect, hk] using hread⟩
      simp [Context.access, hset, hk, Access.answer, Except.map]

/-- A shared table answers from the values that its objects stand for. -/
theorem access_shared (ha : a.Plain) (hu : m.store.readTable c.registry id = .ok u)
    (hplain : ∀ k object, u.get? k = some object → object.handles = []) :
    ∃ store u', c.access m (.shared id) a = (a.answer (u.map Stored.toValue),c,{ m with store }) ∧
      store.readTable c.registry id = .ok u' ∧ u'.map Stored.toValue = a.effect (u.map Stored.toValue) ∧
      ∀ k object, u'.get? k = some object → object.handles = [] := by
  cases a with
  | length =>
    refine ⟨m.store,u,?_,hu,rfl,hplain⟩
    simp only [Context.access, Context.length, hu, Access.answer, OrderedMap.size_map]
    rfl
  | get key =>
    refine ⟨m.store,u,?_,hu,rfl,hplain⟩
    cases hk : key.toKey with
    | error fault => simp [Context.access, Context.get, hk, Access.answer, Except.map]
    | ok k =>
      simp [Context.access, Context.get_shared hk hu (hplain k), hk, Access.answer,
        OrderedMap.get?_map, Except.map]
  | set key value =>
    obtain ⟨object,hv⟩ := ha
    cases hk : key.toKey with
    | error fault =>
      refine ⟨m.store,u,?_,hu,?_,hplain⟩
      · simp [Context.access, Context.set, hk, Access.answer, Except.map]
      · simp [Access.effect, hk]
    | ok k =>
      obtain ⟨store,hset,hread⟩ := Context.set_shared_scalar hk hv hu (hplain k)
      refine ⟨store,_,?_,hread,?_,?_⟩
      · simp [Context.access, hset, hk, Access.answer, Except.map]
      · obtain rfl := Value.toValue_scalar hv
        simpa [Access.effect, hk] using Context.map_write k object u
      · intro j other hother
        unfold Context.write at hother
        split at hother
        · rename_i stored hstored
          rw [OrderedMap.get?_insert] at hother
          split at hother
          · have hsame : stored = object := by
              split at hstored
              · cases hstored
              · exact (Option.some.inj hstored).symm
            cases hother
            exact hsame ▸ Value.handles_scalar hv
          · exact hplain j other hother
        · rw [OrderedMap.get?_erase] at hother
          split at hother
          · cases hother
          · exact hplain j other hother

/-- A call is answered alike by both tables, and leaves them alike. -/
theorem CorrespondingTables.access (h : CorrespondingTables c m cell id u) (ha : a.Plain) :
    ∃ m₁ m₂ u', c.access m (.table cell) a = (a.answer (u.map Stored.toValue),c,m₁) ∧
      c.access m₁ (.shared id) a = (a.answer (u.map Stored.toValue),c,m₂) ∧
      CorrespondingTables c m₂ cell id u' ∧
      u'.map Stored.toValue = a.effect (u.map Stored.toValue) := by
  obtain ⟨heap,hlocal,hread⟩ := access_local (c := c) h.heap a
  obtain ⟨store,u',hshared,hread',heffect,hplain⟩ :=
    access_shared (m := { m with heap }) ha h.store h.plain
  exact ⟨_,_,u',hlocal,hshared,⟨hread.trans (congrArg Except.ok heffect.symm),hread',hplain⟩,heffect⟩

/-- Any calls are answered alike by both tables, and leave them alike. -/
theorem CorrespondingTables.accessBoth {calls : List Access} (hcalls : ∀ a ∈ calls, a.Plain)
    (h : CorrespondingTables c m cell id u) :
    ∃ answers m' u', c.accessBoth m (.table cell) (.shared id) calls = (answers,c,m') ∧
      answers.length = calls.length ∧ (∀ pair ∈ answers, pair.1 = pair.2) ∧
      CorrespondingTables c m' cell id u' ∧
      u'.map Stored.toValue = calls.foldl Access.effect (u.map Stored.toValue) := by
  induction calls generalizing m u with
  | nil => exact ⟨[],m,u,rfl,rfl,by simp,h,rfl⟩
  | cons a rest ih =>
    obtain ⟨m₁,m₂,u₂,hlocal,hshared,htables,heffect⟩ := h.access (hcalls a List.mem_cons_self)
    obtain ⟨answers,m',u',hrest,hlength,halike,htables',heffects⟩ :=
      ih (fun b hb => hcalls b (List.mem_cons_of_mem a hb)) htables
    let answer := a.answer (u.map Stored.toValue)
    refine ⟨(answer,answer) :: answers,m',u',?_,congrArg (· + 1) hlength,?_,htables',?_⟩
    · simp only [Context.accessBoth, hlocal, hshared, hrest, answer]
    · intro pair hpair
      rcases List.mem_cons.mp hpair with rfl | hpair
      · rfl
      · exact halike pair hpair
    · rw [heffects, heffect, List.foldl_cons]

theorem correspondingTables_new (c : Context) (m : Memory)
    (hr : c.registry < m.store.registries.size) (hs : ∀ q, (m.store.arena q).Sound) :
    ∃ cell id c' m', c.newTables m = (.table cell,.shared id,c',m') ∧
    CorrespondingTables c' m' cell id .empty := by
  refine ⟨_,_,_,_,rfl,Heap.read_create m.heap,?_,?_⟩
  · exact Store.readTable_create hr hs .empty c.holder
  · intro k object hobject
    cases hobject

theorem CorrespondingTables.keys (h : CorrespondingTables c m cell id u) :
    c.keys m (.table cell) = .ok u.keys ∧ c.keys m (.shared id) = .ok u.keys := by
  constructor
  · rw [Context.keys, h.heap, Except.map, OrderedMap.keys_map]
  · rw [Context.keys, h.store, Except.map]

theorem CorrespondingTables.length (h : CorrespondingTables c m cell id u) :
    c.length m (.table cell) = .ok u.size ∧ c.length m (.shared id) = .ok u.size := by
  constructor
  · rw [Context.length, h.heap, Except.map, OrderedMap.size_map]
  · rw [Context.length, h.store, Except.map]

theorem CorrespondingTables.get (h : CorrespondingTables c m cell id u) {key : Value} {k : Key}
    (hk : key.toKey = .ok k) :
    (c.get m (.table cell) key).1 = .ok (((u.map Stored.toValue).get? k).getD .nil) ∧
      (c.get m (.shared id) key).1 = .ok (((u.map Stored.toValue).get? k).getD .nil) := by
  constructor
  · rw [Context.get_local hk h.heap]
  · rw [Context.get_shared hk h.store (h.plain k), OrderedMap.get?_map]

end Calls

/-- No key has nil under it. -/
theorem Access.getD_effects (calls : List Access) (k : Key) :
    ((calls.foldl effect .empty).get? k).getD .nil = .nil ↔ k ∉ (calls.foldl effect .empty).keys := by
  rw [mem_keys_effects, get?_effects]
  cases hlast : lastAssigned calls k with
  | none => simp
  | some value =>
    by_cases hnil : value = .nil
    · simp [hnil, Value.isNil]
    · have hkept : ¬ value.isNil = true := fun h => hnil (Value.isNil_iff.mp h)
      simp [hnil, hkept]

namespace GlobalState

variable {U N : Type} {lib : Library U N} {e : GlobalState}

/-- Whatever has come out of operations and calls, and whatever calls are made on a new local and a
new shared table of a context with keys of any kind and values that are no tables: each is answered
alike by both, both have the same keys in the same order in the end, a look-up gives nil exactly for
the other keys, and the length is the number of keys whose last assigned value is not nil. -/
theorem tables_alike (he : Arises lib e) {i : ContextId} (hi : i < e.world.contexts.size) (heap : Heap)
    {calls : List Access} (hcalls : ∀ a ∈ calls, a.Plain) :
    ∃ first second c m answers c' m' ks n,
      (e.world.context i).newTables { store := e.world.store, heap } = (first,second,c,m) ∧
      c.accessBoth m first second calls = (answers,c',m') ∧
      answers.length = calls.length ∧ (∀ pair ∈ answers, pair.1 = pair.2) ∧
      (c'.keys m' first = .ok ks ∧ c'.keys m' second = .ok ks) ∧
      (∀ key k, key.toKey = .ok k →
        ((c'.get m' first key).1 = .ok .nil ↔ k ∉ ks) ∧ ((c'.get m' second key).1 = .ok .nil ↔ k ∉ ks)) ∧
      (c'.length m' first = .ok n ∧ c'.length m' second = .ok n) ∧
      n = Set.ncard { k | ∃ value, Access.lastAssigned calls k = some value ∧ value ≠ .nil } := by
  have hr := he.accounted.world.context_given hi
  have hs := he.accounted.world.balanced.sound
  obtain ⟨cell,id,c,m,hnew,halike⟩ :=
    correspondingTables_new (e.world.context i) { store := e.world.store, heap } hr hs
  obtain ⟨answers,m',u,hcalled,hlength,hanswers,htables,heffects⟩ := halike.accessBoth hcalls
  rw [OrderedMap.map_empty] at heffects
  have hkeys : (calls.foldl Access.effect .empty).keys = u.keys := by
    rw [← heffects, OrderedMap.keys_map]
  have hsize : (calls.foldl Access.effect .empty).size = u.size := by
    rw [← heffects, OrderedMap.size_map]
  have hnil : ∀ k, (((u.map Stored.toValue).get? k).getD .nil = .nil ↔ k ∉ u.keys) := by
    intro k
    rw [heffects, ← hkeys]
    exact Access.getD_effects calls k
  refine ⟨_,_,c,m,answers,c,m',u.keys,u.size,hnew,hcalled,hlength,hanswers,htables.keys,?_,
    htables.length,
    hsize ▸ Access.size_effects calls⟩
  intro key k hk
  obtain ⟨hlocal,hshared⟩ := htables.get hk
  rw [hlocal, hshared, Except.ok.injEq]
  exact ⟨hnil k,hnil k⟩

def rewritten : List Access :=
  [.set (.string "a") (.integer 1),.set (.integer 2) (.string "b"),
    .set (.float ⟨0x4000000000000000⟩) (.function ⟨"f",0⟩),.set (.table 0) (.integer 3),.get
    (.float ⟨0x7ff8000000000000⟩),.set (.string "a") .nil,.get (.string "a"),
    .set (.string "a") (.float ⟨0x8000000000000000⟩),.length]

theorem tables_alike_rewritten : let e := run [.newPool,.newContext 0]
    (Arises unloadable e ∧ 0 < e.world.contexts.size ∧ ∀ a ∈ rewritten, a.Plain) ∧
    ∃ first second c m answers c' m' ks n,
      (e.world.context 0).newTables { store := e.world.store, heap := {} } = (first,second,c,m) ∧
      c.accessBoth m first second rewritten = (answers,c',m') ∧
      answers.length = rewritten.length ∧ (∀ pair ∈ answers, pair.1 = pair.2) ∧
      (c'.keys m' first = .ok ks ∧ c'.keys m' second = .ok ks) ∧
      (∀ key k, key.toKey = .ok k →
        ((c'.get m' first key).1 = .ok .nil ↔ k ∉ ks) ∧ ((c'.get m' second key).1 = .ok .nil ↔ k ∉ ks)) ∧
      (c'.length m' first = .ok n ∧ c'.length m' second = .ok n) ∧
      n = Set.ncard { k | ∃ value, Access.lastAssigned rewritten k = some value ∧ value ≠ .nil } := by
  intro e
  have harises : Arises unloadable e := arises_run unloadable _
  have hi : 0 < e.world.contexts.size := by decide
  have hplain : ∀ a ∈ rewritten, a.Plain := by simp [rewritten, Access.Plain, Value.scalar?]
  exact ⟨⟨harises,hi,hplain⟩,tables_alike harises hi {} hplain⟩

end GlobalState

end Workers
