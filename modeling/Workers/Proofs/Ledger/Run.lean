import Mathlib.Data.List.Rotate
import Workers.Proofs.Ledger.Owners
/-! # Runs of reference operations

The global state is the world together with the stored objects and the captures that code has in its
hands.  Every operation on references is one step between two such states, and in every one that a
run from nothing comes to, what the entries say about their holders is what the holders say.
-/
namespace Workers

/-- The world, the objects outside of all tables and records, and the captures under way. -/
structure GlobalState where
  world : World := {}
  objects : List Stored := []
  captures : List Capture := []

/-- An operation, on the first object or the first capture in hand where it takes one. -/
inductive Operation where
  /-- Brings an object, or a capture, to the front. -/
  | pick (i : Nat)
  | pickCapture (i : Nat)
  | newPool
  | newContext (r : RegistryId)
  | newWorker (p : PoolId)
  | attach (r : RegistryId) (id : EntryId)
  /-- Files the first objects in hand as a table under the keys given. -/
  | create (r : RegistryId) (keys : List Key)
  | copy
  | weaken
  | drop
  | beginCapture (r : RegistryId)
  | capture (v : Value)
  | endCapture
  | store (c : ContextId) (v : Value)
  | load (c : ContextId)
  | checkOut (c : ContextId) (id : EntryId)
  /-- Whatever else running code asks of its context: a new table, a look-up, an assignment, the
  end of the context. -/
  | ask (c : ContextId) (q : Query)
  | setHook (c : ContextId) (hook : Hook) (step : UInt32)
  | dropContext (c : ContextId)
  | takeContext (h : WorkerId)
  | adopt (h : WorkerId)
  | retain (h : WorkerId) (id : EntryId)
  | own (h : WorkerId)
  | disown (h : WorkerId)
  /-- Publishes the first objects in hand as the results of a worker. -/
  | publish (h : WorkerId) (n : Nat)
  | results (h : WorkerId)
  /-- A panic while a table was being written to. -/
  | poisonLocal (c : CellId)
  | poisonShared (r : RegistryId) (id : EntryId)

namespace GlobalState

def tableOf (keys : List Key) (objects : List Stored) (distinct : keys.Nodup)
    (enough : keys.length ≤ objects.length) : SharedTable :=
  ⟨keys.zip objects,by rwa [List.map_fst_zip enough]⟩

def HasHandle (w : World) (h : WorkerId) : Prop := h < w.handles.size ∧ (w.handle h).owners ≠ 0

instance (w : World) (h : WorkerId) : Decidable (HasHandle w h) := inferInstanceAs (Decidable (_ ∧ _))

def give (e : GlobalState) (s : Store) (objects : List Stored) : GlobalState :=
  { e with world := e.world.setStore s, objects }

/-- One operation.  Nothing happens if the owner that it is for does not exist. -/
def step (e : GlobalState) : Operation → GlobalState
  | .pick i => { e with objects := e.objects.rotate i }
  | .pickCapture i => { e with captures := e.captures.rotate i }
  | .newPool => { e with world := e.world.addPool.2 }
  | .newContext r =>
    if r < e.world.store.registries.size then { e with world := (e.world.addContext r).2 } else e
  | .newWorker p => if p < e.world.pools.size then { e with world := (e.world.addHandle p).2 } else e
  | .attach r id =>
    match TableHandle.attach e.world.store r id with
    | (.ok handle,s) => e.give s (.shared handle :: e.objects)
    | (.error _,s) => e.give s e.objects
  | .create r keys =>
    if ok : keys.Nodup ∧ keys.length ≤ e.objects.length ∧ r < e.world.store.registries.size then
      let (handle,s) := TableHandle.create e.world.store r (tableOf keys e.objects ok.1 ok.2.1)
      e.give s (.shared handle :: e.objects.drop keys.length)
    else e
  | .copy =>
    match e.objects with
    | [] => e
    | object :: rest =>
      let (copied,s) := object.copy e.world.store
      e.give s (copied :: object :: rest)
  | .weaken =>
    match e.objects with
    | [] => e
    | object :: rest =>
      let (weak,s) := object.weaken e.world.store
      e.give s (weak :: rest)
  | .drop =>
    match e.objects with
    | [] => e
    | object :: rest => e.give (e.world.store.drop [object]) rest
  | .beginCapture r =>
    if r < e.world.store.registries.size then { e with captures := { registry := r } :: e.captures }
      else e
  | .capture v =>
    match e.captures with
    | [] => e
    | capture :: rest =>
      match capture.store e.world.store e.world.memory.heap v with
      | (.ok object,capture,s) => { e.give s (object :: e.objects) with captures := capture :: rest }
      | (.error _,capture,s) => { e.give s e.objects with captures := capture :: rest }
  | .endCapture =>
    match e.captures with
    | [] => e
    | capture :: rest => { e.give (capture.finish e.world.store) e.objects with captures := rest }
  | .store c v =>
    if c < e.world.contexts.size then
      match v.store e.world.store e.world.memory.heap (e.world.context c).registry with
      | (.ok object,s) => e.give s (object :: e.objects)
      | (.error _,s) => e.give s e.objects
    else e
  | .load c =>
    match e.objects with
    | [] => e
    | object :: _ =>
      if c < e.world.contexts.size then
        match (e.world.context c).load e.world.store object with
        | .ok (_,context,s) => { e with world := (e.world.setStore s).setContext c context }
        | .error _ => e
      else e
  | .checkOut c id =>
    if c < e.world.contexts.size then
      match (e.world.context c).addReference e.world.store id with
      | .ok (context,s) => { e with world := (e.world.setStore s).setContext c context }
      | .error _ => e
    else e
  | .ask c q => if c < e.world.contexts.size then { e with world := (e.world.answer c q).2 } else e
  | .setHook c hook n => { e with world := e.world.setHook c hook n }
  | .dropContext c => { e with world := e.world.dropContext c }
  | .takeContext h => { e with world := e.world.setHandle h { e.world.handle h with context := none } }
  | .adopt h =>
    match e.objects with
    | [] => e
    | object :: rest =>
      if HasHandle e.world h then
        match e.world.adopt h object with
        | (.ok object,w) => { e with world := w, objects := object :: rest }
        | (.error _,w) => { e with world := w, objects := rest }
      else e
  | .retain h id =>
    if HasHandle e.world h then
      match e.world.addReference h id with
      | .ok w => { e with world := w }
      | .error _ => e
    else e
  | .own h => { e with world := e.world.own h }
  | .disown h => { e with world := e.world.disown h }
  | .publish h n =>
    if HasHandle e.world h then
      { e with world := e.world.setResult h (e.objects.take n), objects := e.objects.drop n }
    else e
  | .results h =>
    let (copies,w) := e.world.copyResult h
    { e with world := w, objects := copies ++ e.objects }
  | .poisonLocal c =>
    { e with
      world := { e.world with memory := { e.world.memory with heap := e.world.memory.heap.poison c } } }
  | .poisonShared r id =>
    match e.world.store.poisonTable r id with
    | .ok s => e.give s e.objects
    | .error _ => e

def run (ops : List Operation) : GlobalState := ops.foldl step {}

def shares (e : GlobalState) : Multiset Share :=
  (e.objects.map Stored.shares).sum + (e.captures.map Capture.shares).sum

structure Accounted (e : GlobalState) : Prop where
  world : e.world.Accounted e.shares
  captures : ∀ c ∈ e.captures, c.registry < e.world.store.registries.size

variable {e : GlobalState}

theorem Accounted.move (h : e.Accounted) {w : World} {objects : List Stored}
    (hm : World.Moves e.world ((e.objects.map Stored.shares).sum + (e.captures.map Capture.shares).sum) w
      ((objects.map Stored.shares).sum + (e.captures.map Capture.shares).sum)) :
    ({ e with world := w, objects } : GlobalState).Accounted :=
  ⟨hm.accounted h.world,fun c hc => (h.captures c hc).trans_le hm.size_le⟩

theorem Accounted.go (h : e.Accounted) {w : World} (hm : ∀ out, World.Moves e.world out w out) :
    ({ e with world := w } : GlobalState).Accounted := h.move (hm _)

theorem Accounted.exchange (h : e.Accounted) {s : Store} {objects : List Stored}
    (hlater : e.world.store.Later s)
    (hb : ∀ out, e.world.store.Balanced ((e.objects.map Stored.shares).sum + out) →
      s.Balanced ((objects.map Stored.shares).sum + out)) : (e.give s objects).Accounted := by
  refine h.move (World.Moves.of_store hlater (fun hof => (ofHandles_objects _).add hof.of_add.2) ?_)
  intro others hbalanced
  rw [add_assoc] at hbalanced ⊢
  exact hb _ hbalanced

theorem handles_tableOf {keys : List Key} {objects : List Stored} (distinct : keys.Nodup)
    (enough : keys.length ≤ objects.length) :
    SharedTable.handles (tableOf keys objects distinct enough) = (objects.take keys.length).flatMap
      Stored.handles := by
  simp [SharedTable.handles, OrderedMap.values, tableOf, map_snd_zip_take]

theorem accounted_attach (h : e.Accounted) (r : RegistryId) (id : EntryId) :
    (e.step (.attach r id)).Accounted := by
  have hlater := TableHandle.later_attach e.world.store r id
  unfold step
  dsimp only
  split
  · rename_i handle s heq
    rw [heq] at hlater
    refine h.exchange hlater fun out hb => ?_
    have hb' := TableHandle.balanced_attach (r := r) hb id
    rw [heq] at hb'
    simpa [add_assoc] using hb'
  · rename_i fault s heq
    rw [heq] at hlater
    refine h.exchange hlater fun out hb => ?_
    have hb' := TableHandle.balanced_attach (r := r) hb id
    rw [heq] at hb'
    simpa using hb'

theorem accounted_create (h : e.Accounted) (r : RegistryId) (keys : List Key) :
    (e.step (.create r keys)).Accounted := by
  unfold step
  dsimp only
  split
  · rename_i ok
    refine h.exchange (TableHandle.later_create _ _ _) fun out hb => ?_
    rw [← List.take_append_drop keys.length e.objects, List.map_append, List.sum_append, add_assoc,
      ← TableHandle.shares_flatMap (e.objects.take keys.length), ← handles_tableOf ok.1 ok.2.1] at hb
    have hb' := TableHandle.balanced_create ok.2.2 hb
    simpa [add_assoc] using hb'
  · exact h

theorem accounted_copy (h : e.Accounted) : (e.step .copy).Accounted := by
  unfold step
  dsimp only
  split
  · exact h
  · rename_i object rest heq
    refine h.exchange (Stored.later_copy _ _) fun out hb => ?_
    have hb' := Stored.balanced_copy hb object
    rw [heq] at hb'
    simpa [add_assoc] using hb'

theorem accounted_weaken (h : e.Accounted) : (e.step .weaken).Accounted := by
  unfold step
  dsimp only
  split
  · exact h
  · rename_i object rest heq
    refine h.exchange (Stored.later_weaken _ _) fun out hb => ?_
    rw [heq, List.map_cons, List.sum_cons, add_assoc] at hb
    simpa [add_assoc] using Stored.balanced_weaken hb

theorem accounted_drop (h : e.Accounted) : (e.step .drop).Accounted := by
  unfold step
  dsimp only
  split
  · exact h
  · rename_i object rest heq
    refine h.exchange (Store.later_drop _ _) fun out hb => ?_
    rw [heq, List.map_cons, List.sum_cons, add_assoc] at hb
    exact Store.Balanced.drop (by simpa using hb)

/-- Any change to the first capture, which stays in its registry. -/
theorem Accounted.capture (h : e.Accounted) {capture capture' : Capture} {rest : List Capture}
    {s : Store} {objects : List Stored} (heq : e.captures = capture :: rest)
    (hr : capture'.registry = capture.registry) (hlater : e.world.store.Later s)
    (hb : ∀ out, e.world.store.Balanced
      (capture.shares + ((e.objects.map Stored.shares).sum + out)) →
      s.Balanced (capture'.shares + ((objects.map Stored.shares).sum + out))) :
    ({ e.give s objects with captures := capture' :: rest } : GlobalState).Accounted := by
  have hm : World.Moves e.world e.shares (e.world.setStore s)
      ({ e.give s objects with captures := capture' :: rest } : GlobalState).shares := by
    refine World.Moves.of_store hlater ?_ fun others hbalanced => ?_
    · intro hof
      refine (ofHandles_objects _).add ?_
      have hcaptures := hof.of_add.2
      rw [heq, List.map_cons, List.sum_cons] at hcaptures
      rw [List.map_cons, List.sum_cons]
      exact (ofHandles_shares _).add hcaptures.of_add.2
    · have hbefore : e.shares + others = capture.shares +
          ((e.objects.map Stored.shares).sum + ((rest.map Capture.shares).sum + others)) := by
        simp only [shares, heq, List.map_cons, List.sum_cons]
        abel
      have hafter : ({ e.give s objects with captures := capture' :: rest } : GlobalState).shares +
        others =
          capture'.shares + ((objects.map Stored.shares).sum +
            ((rest.map Capture.shares).sum + others)) := by
        simp only [shares, give, List.map_cons, List.sum_cons]
        abel
      rw [hbefore] at hbalanced
      rw [hafter]
      exact hb _ hbalanced
  refine ⟨hm.accounted h.world,fun c hc => ?_⟩
  have hsize : e.world.store.registries.size ≤ s.registries.size := hlater.size_eq.ge
  rcases List.mem_cons.mp hc with rfl | hc
  · rw [hr]
    exact (h.captures capture (by simp [heq])).trans_le hsize
  · exact (h.captures c (by simp [heq, hc])).trans_le hsize

theorem accounted_capture (h : e.Accounted) (v : Value) : (e.step (.capture v)).Accounted := by
  unfold step
  dsimp only
  split
  · exact h
  · rename_i capture rest heq
    have hr := h.captures capture (by simp [heq])
    have hlater := Capture.later_store capture e.world.store e.world.memory.heap v
    have hsame := Capture.registry_store capture e.world.store e.world.memory.heap v
    have hstore : ∀ out, e.world.store.Balanced (capture.shares + out) → _ :=
      fun out hb => Capture.balanced_store hr hb e.world.memory.heap v
    split
    · rename_i object capture' s hs
      rw [hs] at hlater hsame hstore
      refine h.capture heq hsame hlater fun out hb => ?_
      convert hstore _ hb using 1
      simp only [granted_ok, List.map_cons, List.sum_cons]
      abel
    · rename_i fault capture' s hs
      rw [hs] at hlater hsame hstore
      refine h.capture heq hsame hlater fun out hb => ?_
      convert hstore _ hb using 1
      simp only [granted_error, zero_add]

theorem accounted_endCapture (h : e.Accounted) : (e.step .endCapture).Accounted := by
  unfold step
  dsimp only
  split
  · exact h
  · rename_i capture rest heq
    have hlater := Capture.later_finish capture e.world.store
    have hm : World.Moves e.world e.shares (e.world.setStore (capture.finish e.world.store))
        ((e.objects.map Stored.shares).sum + (rest.map Capture.shares).sum) := by
      have hshares : e.shares = capture.shares +
          ((e.objects.map Stored.shares).sum + (rest.map Capture.shares).sum) := by
        simp only [shares, heq, List.map_cons, List.sum_cons]
        abel
      rw [hshares]
      refine World.Moves.of_store hlater (fun hof => hof.of_add.2) fun others hb => ?_
      rw [add_assoc] at hb
      exact Capture.balanced_finish hb
    exact ⟨hm.accounted h.world,fun c hc =>
      (h.captures c (by simp [heq, hc])).trans_le hlater.size_eq.ge⟩

theorem accounted_store (h : e.Accounted) (c : ContextId) (v : Value) :
    (e.step (.store c v)).Accounted := by
  unfold step
  dsimp only
  split
  · rename_i hc
    have hr := h.world.context_given hc
    have hlater := v.later_store e.world.store e.world.memory.heap (e.world.context c).registry
    have hstore : ∀ out, e.world.store.Balanced out → _ :=
      fun out hb => Value.balanced_store hr hb e.world.memory.heap v
    split
    · rename_i object s hs
      rw [hs] at hlater hstore
      exact h.exchange hlater fun out hb => by simpa [add_assoc] using hstore _ hb
    · rename_i fault s hs
      rw [hs] at hlater hstore
      exact h.exchange hlater fun out hb => by simpa using hstore _ hb
  · exact h

theorem accounted_load (h : e.Accounted) (c : ContextId) : (e.step (.load c)).Accounted := by
  unfold step
  dsimp only
  split
  · exact h
  · split
    · rename_i hc
      split
      · rename_i hload
        exact h.go fun out => World.moves_load hc hload out
      · exact h
    · exact h

theorem accounted_checkOut (h : e.Accounted) (c : ContextId) (id : EntryId) :
    (e.step (.checkOut c id)).Accounted := by
  unfold step
  dsimp only
  split
  · rename_i hc
    split
    · rename_i hadd
      exact h.go fun out => World.Moves.of_context hc (Context.operationStep_addReference hadd)
    · exact h
  · exact h

theorem accounted_ask (h : e.Accounted) (c : ContextId) (q : Query) : (e.step (.ask c q)).Accounted := by
  unfold step
  dsimp only
  split
  · rename_i hc
    exact h.go fun out => World.moves_answer hc q out
  · exact h

theorem accounted_adopt (h : e.Accounted) (i : WorkerId) : (e.step (.adopt i)).Accounted := by
  unfold step
  dsimp only
  split
  · exact h
  · rename_i object rest heq
    split
    · rename_i hi
      have hadopt := World.moves_adopt hi.1 hi.2 object
        ((rest.map Stored.shares).sum + (e.captures.map Capture.shares).sum)
      split
      · rename_i adopted w hw
        rw [hw] at hadopt
        refine h.move ?_
        rw [heq]
        simpa [add_assoc] using hadopt
      · rename_i fault w hw
        rw [hw] at hadopt
        refine h.move ?_
        rw [heq]
        simpa [add_assoc] using hadopt
    · exact h

theorem accounted_retain (h : e.Accounted) (i : WorkerId) (id : EntryId) :
    (e.step (.retain i id)).Accounted := by
  unfold step
  dsimp only
  split
  · rename_i hi
    split
    · rename_i hadd
      exact h.go fun out => World.moves_addReference hi.1 hi.2 hadd out
    · exact h
  · exact h

theorem accounted_publish (h : e.Accounted) (i : WorkerId) (n : Nat) :
    (e.step (.publish i n)).Accounted := by
  unfold step
  dsimp only
  split
  · rename_i hi
    refine h.move ?_
    have hset := World.moves_setResult hi.1 hi.2 (e.objects.take n)
      (((e.objects.drop n).map Stored.shares).sum + (e.captures.map Capture.shares).sum)
    rwa [← add_assoc, ← List.sum_append, ← List.map_append, List.take_append_drop] at hset
  · exact h

/-- A poisoned table keeps its content. -/
theorem accounted_poisonShared (h : e.Accounted) (r : RegistryId) (id : EntryId) :
    (e.step (.poisonShared r id)).Accounted := by
  unfold step
  dsimp only
  split
  · rename_i s hs
    unfold Store.poisonTable Store.table at hs
    cases he : (e.world.store.arena r).find? id with
    | none => rw [he] at hs; cases hs
    | some entry =>
      simp only [he, Except.bind] at hs
      cases hborrow : entry.content.borrow .sharedBorrowMut with
      | error fault => rw [hborrow] at hs; cases hs
      | ok _ =>
        rw [hborrow] at hs
        cases hs
        exact h.exchange (Store.later_setTable _ _ _ _) fun out hb => hb.setTable he rfl
  · exact h

theorem step_accounted (h : e.Accounted) (op : Operation) : (e.step op).Accounted := by
  cases op with
  | pick i =>
    have hperm : ((e.objects.rotate i).map Stored.shares).sum = (e.objects.map Stored.shares).sum :=
      ((List.rotate_perm e.objects i).map _).sum_eq
    have hshares : (e.step (.pick i)).shares = e.shares := by
      unfold step shares
      simp only [hperm]
    exact ⟨hshares ▸ h.world,h.captures⟩
  | pickCapture i =>
    have hperm : ((e.captures.rotate i).map Capture.shares).sum = (e.captures.map Capture.shares).sum :=
      ((List.rotate_perm e.captures i).map _).sum_eq
    have hshares : (e.step (.pickCapture i)).shares = e.shares := by
      unfold step shares
      simp only [hperm]
    exact ⟨hshares ▸ h.world,fun c hc => h.captures c (List.mem_rotate.mp hc)⟩
  | newPool => exact h.go fun out => World.moves_addPool _ out
  | newContext r =>
    unfold step
    dsimp only
    split
    · rename_i hr
      exact h.go fun out => World.moves_addContext hr out
    · exact h
  | newWorker p =>
    unfold step
    dsimp only
    split
    · rename_i hp
      exact h.go fun out => World.moves_addHandle hp out
    · exact h
  | attach r id => exact accounted_attach h r id
  | create r keys => exact accounted_create h r keys
  | copy => exact accounted_copy h
  | weaken => exact accounted_weaken h
  | drop => exact accounted_drop h
  | beginCapture r =>
    unfold step
    dsimp only
    split
    · rename_i hr
      refine ⟨by simpa [shares, Capture.shares] using h.world,fun c hc => ?_⟩
      rcases List.mem_cons.mp hc with rfl | hc
      · exact hr
      · exact h.captures c hc
    · exact h
  | capture v => exact accounted_capture h v
  | endCapture => exact accounted_endCapture h
  | store c v => exact accounted_store h c v
  | load c => exact accounted_load h c
  | checkOut c id => exact accounted_checkOut h c id
  | ask c q => exact accounted_ask h c q
  | setHook c hook n => exact h.go fun out => World.moves_setHook _ c hook n out
  | dropContext c => exact h.go fun out => World.moves_dropContext _ c out
  | takeContext i =>
    exact h.go fun out => World.moves_setHandle e.world i
      { e.world.handle i with context := none } rfl rfl
      (fun hzero => .inl hzero) rfl rfl out
  | adopt i => exact accounted_adopt h i
  | retain i id => exact accounted_retain h i id
  | own i => exact h.go fun out => World.moves_own _ i out
  | disown i => exact h.go fun out => World.moves_disown _ i out
  | publish i n => exact accounted_publish h i n
  | results i =>
    refine h.move ?_
    rw [List.map_append, List.sum_append, add_assoc]
    exact World.moves_copyResult _ i _
  | poisonLocal c => exact h.go fun out => .of_eq (by rfl) (by rfl) (by rfl) (by rfl) out
  | poisonShared r id => exact accounted_poisonShared h r id

theorem accounted_empty : ({} : GlobalState).Accounted := by
  refine ⟨⟨⟨fun r => ?_,fun x => ?_,?_,?_⟩,fun x hx => ?_,.empty _,.empty _,by simp,by simp⟩,by simp⟩
  · rw [Store.arena_of_not_lt (Nat.not_lt_zero r)]
    exact Arena.sound_empty
  · constructor
    · rintro ⟨entry,hentry,_⟩
      rw [Store.arena_of_not_lt (Nat.not_lt_zero _)] at hentry
      simp at hentry
    · exact fun hx => by simp [World.store, Store.filed, World.shares, shares] at hx
  · simp [World.store, Store.filed, World.shares, shares]
  · exact fun x hx => by simp [World.store, Store.filed, World.shares, shares] at hx
  · simp [shares] at hx

theorem run_accounted (ops : List Operation) : (run ops).Accounted := by
  have hfold : ∀ e : GlobalState, e.Accounted → (ops.foldl step e).Accounted := by
    induction ops with
    | nil => exact fun e h => h
    | cons op rest ih => exact fun e h => ih _ (step_accounted h op)
  exact hfold _ accounted_empty

end GlobalState

def Store.tableHandles (s : Store) : List TableHandle :=
  s.registries.toList.flatMap fun r => r.arena.slots.toList.flatMap fun slot =>
    slot.entry.toList.flatMap fun entry => SharedTable.handles entry.content.content

theorem Store.mem_filed {s : Store} {x : Share} :
    x ∈ s.filed ↔ x ∈ TableHandle.shares s.tableHandles := by
  simp only [filed, Arena.total, tableHandles, mem_sum_map, TableHandle.mem_shares, List.mem_flatMap]
  constructor
  · rintro ⟨r,hr,slot,hslot,hx⟩
    cases he : slot.entry with
    | none => simp [he] at hx
    | some entry =>
      obtain ⟨h,hh,hs,rfl⟩ := TableHandle.mem_shares.mp (by simpa [he, tableShares] using hx)
      exact ⟨h,⟨r,hr,slot,hslot,entry,by simp [he],hh⟩,hs,rfl⟩
  · rintro ⟨h,⟨r,hr,slot,hslot,entry,he,hh⟩,hs,rfl⟩
    have he' : slot.entry = some entry := by simpa using he
    refine ⟨r,hr,slot,hslot,?_⟩
    rw [he']
    exact TableHandle.mem_shares.mpr ⟨h,hh,hs,rfl⟩

namespace GlobalState

variable {e : GlobalState}

def handles (e : GlobalState) : List TableHandle :=
  e.world.store.tableHandles ++ e.objects.flatMap Stored.handles ++
    e.captures.flatMap (fun c => c.captured.map Prod.snd) ++
    e.world.handles.toList.flatMap fun h => h.result.flatMap Stored.handles

theorem shares_flatMap {α : Type} (f : α → List TableHandle) (l : List α) :
    TableHandle.shares (l.flatMap f) = (l.map fun a => TableHandle.shares (f a)).sum := by
  induction l with
  | nil => rfl
  | cons a rest ih => simp [ih]

def outside (e : GlobalState) : List TableHandle :=
  e.objects.flatMap Stored.handles ++ e.captures.flatMap (fun c => c.captured.map Prod.snd) ++
    e.world.handles.toList.flatMap fun h => h.result.flatMap Stored.handles

/-- Every share outside of the tables is that of a handle, of a reference of a context, or of one of
a worker. -/
theorem mem_outside {x : Share} : x ∈ e.world.shares + e.shares ↔
    x ∈ TableHandle.shares e.outside ∨
      (∃ c ∈ e.world.contexts, x ∈ c.shares) ∨
      ∃ h ∈ e.world.handles, x ∈ checkedOut h.registry h.holder h.references := by
  have hobjects : TableHandle.shares (e.objects.flatMap Stored.handles) =
      (e.objects.map Stored.shares).sum :=
    shares_flatMap Stored.handles e.objects
  have hcaptures : TableHandle.shares (e.captures.flatMap fun c => c.captured.map Prod.snd) =
      (e.captures.map Capture.shares).sum :=
    shares_flatMap (fun c : Capture => c.captured.map Prod.snd) e.captures
  have hresults : x ∈ TableHandle.shares (e.world.handles.toList.flatMap fun h =>
    h.result.flatMap Stored.handles) ↔
      ∃ h ∈ e.world.handles, x ∈ (h.result.map Stored.shares).sum := by
    simp only [shares_flatMap, mem_sum_map, Array.mem_toList_iff]
    rfl
  have hworkers : x ∈ (e.world.handles.toList.map WorkerHandle.shares).sum ↔
      (∃ h ∈ e.world.handles, x ∈ checkedOut h.registry h.holder h.references) ∨
        ∃ h ∈ e.world.handles, x ∈ (h.result.map Stored.shares).sum := by
    simp only [mem_sum_map, Array.mem_toList_iff, WorkerHandle.shares, Multiset.mem_add,
      and_or_left, exists_or]
  have hcontexts : x ∈ (e.world.contexts.toList.map Context.shares).sum ↔
      ∃ c ∈ e.world.contexts, x ∈ c.shares := by
    simp only [mem_sum_map, Array.mem_toList_iff]
  simp only [outside, World.shares, shares, TableHandle.shares_append, Multiset.mem_add, hobjects,
    hcaptures, hresults, hworkers, hcontexts]
  have horder : ∀ B C D E F : Prop, (B ∨ C ∨ D) ∨ E ∨ F ↔ ((E ∨ F) ∨ D) ∨ B ∨ C := by
    grind
  exact horder _ _ _ _ _

/-- Every share is that of a handle, of a reference of a context, or of one of a worker. -/
theorem mem_claims {x : Share} : x ∈ e.world.store.filed + (e.world.shares + e.shares) ↔
    x ∈ TableHandle.shares e.handles ∨
      (∃ c ∈ e.world.contexts, x ∈ c.shares) ∨
      ∃ h ∈ e.world.handles, x ∈ checkedOut h.registry h.holder h.references := by
  have hhandles : TableHandle.shares e.handles =
      TableHandle.shares e.world.store.tableHandles + TableHandle.shares e.outside := by
    simp [handles, outside]
  rw [Multiset.mem_add, Store.mem_filed, mem_outside, hhandles, Multiset.mem_add, or_assoc]

/-- What the entries say about their holders is what the holders say about their references, and
whatever is referred to is alive. -/
structure Exact (e : GlobalState) : Prop where
  store : ∀ r id entry, (e.world.store.arena r).find? id = some entry → ∀ n,
    Holder.store n ∈ entry.holders ↔
      ∃ h ∈ e.handles, h.registry = r ∧ h.number = n ∧ h.entry = id ∧ h.strong = true
  thread : ∀ r id entry, (e.world.store.arena r).find? id = some entry → ∀ n,
    Holder.thread n ∈ entry.holders ↔
      ∃ h ∈ e.world.handles, h.owners ≠ 0 ∧ h.registry = r ∧ h.number = n ∧ id ∈ h.references
  context : ∀ r id entry, (e.world.store.arena r).find? id = some entry → ∀ c ∈ e.world.contexts,
    c.registry = r → (Holder.context c.number ∈ entry.holders ↔ id ∈ c.references)
  handle_alive : ∀ h ∈ e.handles, h.strong = true → e.world.store.isAlive h.registry h.entry = true
  worker_alive : ∀ h ∈ e.world.handles, ∀ id ∈ h.references, e.world.store.isAlive h.registry id = true
  context_alive : ∀ c ∈ e.world.contexts, ∀ id ∈ c.references, e.world.store.isAlive c.registry id = true

theorem Accounted.holds_iff (h : e.Accounted) {r : RegistryId} {id : EntryId}
    {entry : Entry (Guarded SharedTable)} (he : (e.world.store.arena r).find? id = some entry)
    (holder : Holder) :
    holder ∈ entry.holders ↔ (⟨r,id,holder⟩ : Share) ∈ TableHandle.shares e.handles ∨
      (∃ c ∈ e.world.contexts, (⟨r,id,holder⟩ : Share) ∈ c.shares) ∨
      ∃ h ∈ e.world.handles, (⟨r,id,holder⟩ : Share) ∈ checkedOut h.registry h.holder
        h.references := by
  rw [← mem_claims, ← h.world.balanced.exact]
  exact (Arena.holds_iff he holder).symm

theorem Accounted.alive (h : e.Accounted) {x : Share}
    (hx : x ∈ e.world.store.filed + (e.world.shares + e.shares)) :
    e.world.store.isAlive x.registry x.entry = true := by
  obtain ⟨entry,hentry,_⟩ := (h.world.balanced.exact x).mpr hx
  simp [Store.isAlive, Arena.isAlive, hentry]

theorem Accounted.exact (h : e.Accounted) : e.Exact where
  store := by
    intro r id entry he n
    rw [h.holds_iff he, TableHandle.mem_shares]
    constructor
    · rintro (⟨handle,hmem,hs,heq⟩ | ⟨c,_,hx⟩ | ⟨worker,_,hx⟩)
      · cases heq
        exact ⟨handle,hmem,rfl,rfl,rfl,hs⟩
      · cases (mem_checkedOut.mp hx).2.1
      · cases (mem_checkedOut.mp hx).2.1
    · rintro ⟨handle,hmem,rfl,rfl,rfl,hs⟩
      exact .inl ⟨handle,hmem,hs,rfl⟩
  thread := by
    intro r id entry he n
    rw [h.holds_iff he, TableHandle.mem_shares]
    constructor
    · rintro (⟨handle,_,_,heq⟩ | ⟨c,_,hx⟩ | ⟨worker,hmem,hx⟩)
      · cases heq
      · cases (mem_checkedOut.mp hx).2.1
      · obtain ⟨rfl,hholder,hid⟩ := mem_checkedOut.mp hx
        obtain ⟨i,hi⟩ := Array.getElem?_of_mem hmem
        refine ⟨worker,hmem,fun hzero => ?_,rfl,(Holder.thread.inj hholder).symm,hid⟩
        have hnone := h.world.disowned i worker hi hzero
        rw [hnone] at hid
        cases hid
    · rintro ⟨worker,hmem,_,rfl,rfl,hid⟩
      exact .inr (.inr ⟨worker,hmem,mem_checkedOut.mpr ⟨rfl,rfl,hid⟩⟩)
  context := by
    intro r id entry he c hmem hr
    rw [h.holds_iff he, TableHandle.mem_shares]
    constructor
    · rintro (⟨handle,_,_,heq⟩ | ⟨d,hd,hx⟩ | ⟨worker,_,hx⟩)
      · cases heq
      · obtain ⟨hregistry,hholder,hid⟩ := mem_checkedOut.mp hx
        obtain ⟨i,hi⟩ := Array.getElem?_of_mem hmem
        obtain ⟨j,hj⟩ := Array.getElem?_of_mem hd
        have hij : i = j := h.world.contexts.distinct i j c d hi hj (hr.trans hregistry)
          (Holder.context.inj hholder)
        subst hij
        obtain rfl : c = d := Option.some.inj (hi.symm.trans hj)
        exact hid
      · cases (mem_checkedOut.mp hx).2.1
    · exact fun hid => .inr (.inl ⟨c,hmem,mem_checkedOut.mpr ⟨hr.symm,rfl,hid⟩⟩)
  handle_alive := fun handle hmem hs =>
    h.alive (mem_claims.mpr (.inl (TableHandle.mem_shares.mpr ⟨handle,hmem,hs,rfl⟩)))
  worker_alive := fun worker hmem id hid =>
    h.alive (x := ⟨worker.registry,id,worker.holder⟩)
      (mem_claims.mpr (.inr (.inr ⟨worker,hmem,mem_checkedOut.mpr ⟨rfl,rfl,hid⟩⟩)))
  context_alive := fun c hmem id hid =>
    h.alive (x := ⟨c.registry,id,c.holder⟩)
      (mem_claims.mpr (.inr (.inl ⟨c,hmem,mem_checkedOut.mpr ⟨rfl,rfl,hid⟩⟩)))

/-- Reference accounting is exact: after any run of operations, in any order, the holders of every
live entry are the strong handles, the workers and the contexts that refer to it. -/
theorem run_exact (ops : List Operation) : (run ops).Exact := (run_accounted ops).exact

end GlobalState

end Workers
