import Workers.Proofs.Handover.Holdings
/-! # Code that lets go of nothing too early

`Code.Safe` goes through code call by call: it says what the thread has in hand after each of them,
and asks that every entry owed is certain to be alive all the way.  `Safe.step` is what this is worth
in a world where others make their calls between any two: the holdings hold after every step.
-/
namespace Workers

open TableHandle (shares)

namespace Code

variable {α β : Type} {p : HandlePlace} {g : Holdings} {w : World} {code : Code α}
    {Q Q' : α → Holdings → Prop}

/-- The entries owed are certain to be alive at every call, and the end is as `Q` says. -/
def Safe (p : HandlePlace) : Code α → Holdings → (α → Holdings → Prop) → Prop
  | .done a, g, Q => Q a g
  | .number r k, g, Q =>
    r = p.registry ∧ ∀ n, (∀ x ∈ g.ours, x.owner ≠ (r,.store n)) → (k n).Safe p (g.own (r,.store n)) Q
  | .create r table holder k, g, Q =>
    r = p.registry ∧ (∀ x ∈ shares table.handles, x ∈ g.ours) ∧
      (∀ id, ⟨r,id,holder⟩ ∈ (g.file table.handles).ours) ∧ (g.file table.handles).Covers p ∧
      ∀ id, (k id).Safe p ((g.file table.handles).hold ⟨r,id,holder⟩) Q
  | .addReference r id holder k, g, Q =>
    ⟨r,id,holder⟩ ∈ g.ours ∧ (k (.ok ())).Safe p (g.hold ⟨r,id,holder⟩) Q ∧
      (¬ g.SurelyAlive p r id → ∀ fault, (k (.error fault)).Safe p g Q)
  | .drop handles k, g, Q => (g.release handles).Covers p ∧ k.Safe p (g.release handles) Q
  | .secure h object k, g, Q =>
    h = p.handle ∧ ((∀ f ∈ object.handles, f.registry = p.registry) →
      (k (.ok ())).Safe p (g.keep object) Q) ∧
      ((∃ f ∈ object.handles, f.registry = p.registry → ¬ g.SurelyAlive p f.registry f.entry) →
        ∀ fault, (k (.error fault)).Safe p g Q)
  | .load _ _ k, g, Q => ∀ outcome, (k outcome).Safe p g Q
  | .close _ k, g, Q => k.Safe p g Q
  | .take h k, g, Q => h = p.handle ∧ (k none).Safe p g Q ∧ (k (some p.context)).Safe p g Q
  | .publish h results k, g, Q =>
    h = p.handle ∧ (∀ f ∈ results.flatMap Stored.handles, f.strong = false ∧ g.Owes f) ∧ k.Safe p g Q
  | .captured object k, g, Q => (g.owe object).Covers p ∧ k.Safe p (g.owe object) Q

theorem Safe.imp (h : code.Safe p g Q) (hQ : ∀ a g, Q a g → Q' a g) : code.Safe p g Q' := by
  induction code generalizing g with
  | done a => exact hQ a g h
  | number r k ih => exact ⟨h.1,fun n hn => ih n (h.2 n hn)⟩
  | create r table holder k ih => exact ⟨h.1,h.2.1,h.2.2.1,h.2.2.2.1,fun id => ih id (h.2.2.2.2 id)⟩
  | addReference r id holder k ih => exact ⟨h.1,ih _ h.2.1,fun hsure fault => ih _ (h.2.2 hsure fault)⟩
  | drop handles k ih => exact ⟨h.1,ih h.2⟩
  | secure i object k ih =>
    exact ⟨h.1,fun hin => ih _ (h.2.1 hin),fun hout fault => ih _ (h.2.2 hout fault)⟩
  | load c object k ih => exact fun outcome => ih outcome (h outcome)
  | close c k ih => exact ih h
  | take i k ih => exact ⟨h.1,ih _ h.2.1,ih _ h.2.2⟩
  | publish i results k ih => exact ⟨h.1,h.2.1,ih h.2.2⟩
  | captured object k ih => exact ⟨h.1,ih h.2⟩

theorem safe_bind {f : α → Code β} {Q : β → Holdings → Prop}
    (h : code.Safe p g fun a g => (f a).Safe p g Q) :
    (code.bind f).Safe p g Q := by
  induction code generalizing g with
  | done a => exact h
  | number r k ih => exact ⟨h.1,fun n hn => ih n (h.2 n hn)⟩
  | create r table holder k ih => exact ⟨h.1,h.2.1,h.2.2.1,h.2.2.2.1,fun id => ih id (h.2.2.2.2 id)⟩
  | addReference r id holder k ih => exact ⟨h.1,ih _ h.2.1,fun hsure fault => ih _ (h.2.2 hsure fault)⟩
  | drop handles k ih => exact ⟨h.1,ih h.2⟩
  | secure i object k ih =>
    exact ⟨h.1,fun hin => ih _ (h.2.1 hin),fun hout fault => ih _ (h.2.2 hout fault)⟩
  | load c object k ih => exact fun outcome => ih outcome (h outcome)
  | close c k ih => exact ih h
  | take i k ih => exact ⟨h.1,ih _ h.2.1,ih _ h.2.2⟩
  | publish i results k ih => exact ⟨h.1,h.2.1,ih h.2.2⟩
  | captured object k ih => exact ⟨h.1,ih h.2⟩

/-- The shares that are ours after the next call: those under a number that is taken, and none of the
handles that go into a table. -/
def claims (w : World) (ours : Set Share) : Code α → Set Share
  | .number r _ => { x | x ∈ ours ∨ x.owner = (r,.store (w.store.nextNumber r).1) }
  | .create _ table _ _ => { x ∈ ours | x.owner ∉ TableHandle.owners table.handles }
  | _ => ours

def captures : Code α → List Stored
  | .captured object _ => [object]
  | _ => []

end Code

variable {p : HandlePlace} {g : Holdings} {w w' : World}

theorem World.secure_of_shared {h : WorkerId} {f : TableHandle} :
    w.secure h (.shared f) = if f.registry = (w.handle h).registry then w.addReference h f.entry
      else .error .foreignTable := by
  simp only [World.secure, Stored.checkRegistry, Stored.entryId?]
  split <;> rfl

/-- A call that a worker handle makes for itself keeps the holdings, and its entry is kept from then
on. -/
theorem HandlePlace.Fits.addReference (hf : p.Fits g w) {id : EntryId}
    (hw : w.addReference p.handle id = .ok w') :
    p.Fits g w' ∧ w'.store.Holds (p.share id) := by
  unfold World.addReference at hw
  simp only at hw
  split at hw
  · rename_i hin
    cases hw
    exact ⟨hf,hf.inWorld.references id hin⟩
  · cases ht : w.store.addReference (w.handle p.handle).registry id (w.handle p.handle).holder with
    | error fault =>
      rw [ht] at hw
      cases hw
    | ok t =>
      rw [ht] at hw
      cases hw
      rw [WorkerHandle.holder, hf.inWorld.number_eq, hf.inWorld.registry_eq] at ht
      have hid : t.Holds (p.share id) := Store.holds_addReference ht
      have hfit := hf.grow (Store.widens_addReference hf.registersHeld.sound ht)
      have hself := World.handle_setHandle_self (w := w.setStore t) hf.inWorld.handle_lt
        { w.handle p.handle with references := (w.handle p.handle).references ++ [id] }
      refine ⟨⟨hfit.registersHeld,?_⟩,hid⟩
      have htaken := hfit.inWorld
      refine ⟨htaken.ours,htaken.kept,htaken.registry_lt,?_,?_,?_,?_,?_,?_,htaken.context_lt,htaken.home⟩
      · exact (World.size_setHandle (w.setStore t) _ _).ge.trans_lt' htaken.handle_lt
      · rw [hself]
        exact hf.inWorld.number_eq
      · rw [hself]
        exact hf.inWorld.registry_eq
      · rw [hself]
        intro j hj
        rcases List.mem_append.mp hj with hj | hj
        · exact htaken.references j hj
        · rw [List.mem_singleton.mp hj]
          exact hid
      · rw [hself]
        exact hf.inWorld.result
      · rw [hself]
        exact hf.inWorld.context

theorem HandlePlace.Fits.secure (hf : p.Fits g w) {object : Stored}
    (hw : w.secure p.handle object = .ok w') :
    p.Fits g w' ∧ ∀ f ∈ object.handles, f.registry = p.registry ∧
    w'.store.Holds (p.share f.entry) := by
  cases object with
  | shared f =>
    rw [World.secure_of_shared] at hw
    split at hw
    · rename_i hregistry
      obtain ⟨hfit,hholds⟩ := hf.addReference hw
      refine ⟨hfit,fun f' hf' => ?_⟩
      rw [List.mem_singleton.mp hf']
      exact ⟨hregistry.trans hf.inWorld.registry_eq,hholds⟩
    · cases hw
  | nil | boolean | integer | float | string | function =>
    cases hw
    exact ⟨hf,fun f hf' => absurd hf' (by simp [Stored.handles])⟩

/-- Only an object of another registry is refused, or one whose entry is not certain to be alive. -/
theorem HandlePlace.Fits.refused (hf : p.Fits g w) {object : Stored} {fault : Fault}
    (hw : w.secure p.handle object = .error fault) :
    ∃ f ∈ object.handles, f.registry = p.registry → ¬ g.SurelyAlive p f.registry f.entry := by
  cases object with
  | shared f =>
    refine ⟨f,List.mem_singleton.mpr rfl,fun hregistry hsure => ?_⟩
    rw [World.secure_of_shared, if_pos (hregistry.trans hf.inWorld.registry_eq.symm)] at hw
    obtain ⟨k,hk⟩ := hf.holds_of_surelyAlive hsure
    unfold World.addReference at hw
    simp only at hw
    split at hw
    · cases hw
    · rw [hf.inWorld.registry_eq, ← hregistry] at hw
      cases ht : w.store.addReference f.registry f.entry (w.handle p.handle).holder with
      | error fault' => exact hk.addReference _ ht
      | ok t =>
        rw [ht] at hw
        cases hw
  | nil | boolean | integer | float | string | function => cases hw

theorem HandlePlace.Fits.number (hf : p.Fits g w) :
    p.Fits (g.own (p.registry,.store (w.store.nextNumber p.registry).1))
    (w.setStore (w.store.nextNumber p.registry).2) := by
  have hpass := hf.grow (Store.widens_nextNumber hf.registersHeld.sound p.registry)
  exact ⟨hf.registersHeld.number hf.inWorld.registry_lt rfl (fun _ hk => Holder.noConfusion hk),
    { hpass.inWorld with ours := fun id => .inl (hf.inWorld.ours id) }⟩

/-- A table takes its handles along when it is filed, and its entry is in hand then. -/
theorem HandlePlace.Fits.create (hf : p.Fits g w) {table : SharedTable} {holder : Holder}
    (hours : ∀ x ∈ shares table.handles, x ∈ g.ours)
    (hholder : ∀ id, ⟨p.registry,id,holder⟩ ∈ (g.file table.handles).ours) :
    p.Fits ((g.file table.handles).hold ⟨p.registry,(w.store.create p.registry table holder).1,holder⟩)
      (w.setStore (w.store.create p.registry table holder).2) := by
  have hpass := (hf.file table.handles).setStore
    (Store.widens_create hf.registersHeld.sound p.registry table holder) (fun _ _ => trivial)
    (fun _ => trivial) fun x hx => ⟨fun hin => ?_,hf.registersHeld.given _ (hours x hx)⟩
  · exact hpass.hold (Store.holds_create hf.registersHeld.sound hf.inWorld.registry_lt table holder)
      (hholder _)
  · exact hin.2 (TableHandle.mem_owners.mpr ⟨x,hx,rfl⟩)

theorem HandlePlace.Fits.drop (hf : p.Fits g w) {h : TableHandle} (hstrong : h.strong = true) :
    p.Fits (g.release [h]) (w.setStore (w.store.detach h.registry h.entry h.holder).2) := by
  have hshare : ∀ {x}, x ∈ shares [h] ↔ x = ⟨h.registry,h.entry,h.holder⟩ := by
    intro x
    simp [TableHandle.share_of_strong hstrong]
  refine (hf.release [h]).setStore (Store.passes_detach hf.registersHeld.sound _ _ _)
    (fun x hx heq => hx.2 (hshare.mpr heq))
    (fun id heq => ?_) (by simp)
  have hholder : Holder.thread p.number = .store h.number := congrArg Share.holder heq
  cases hholder

theorem HandlePlace.Fits.close (hf : p.Fits g w) (c : ContextId) :
    p.Fits g (w.setStore (w.store.detachAll (w.context c).registry (w.context c).holder
      (w.context c).references).2) :=
  hf.setStore (Store.passes_detachAll hf.registersHeld.sound _ _ _)
    (fun x hx _ _ heq => hf.registersHeld.lasting x (hf.registersHeld.held x hx).2
      _ (congrArg Share.holder heq))
    (fun id _ _ heq => hf.registersHeld.lasting _ (hf.inWorld.ours id)
      _ (congrArg Share.holder heq)) (by simp)

theorem HandlePlace.Fits.setContext (hf : p.Fits g w) {c : ContextId} {context : Context}
    (hc : context.registry = (w.context c).registry) : p.Fits g (w.setContext c context) :=
  hf.keepsHandle rfl (.setContext hc)

/-- The record of the handle may lose its context and take results that owe nothing new. -/
theorem HandlePlace.Fits.setHandle (hf : p.Fits g w) {context : Option ContextId} {results : List Stored}
    (hcontext : ∀ c, context = some c → c = p.context)
    (hresults : ∀ f ∈ results.flatMap Stored.handles, f.strong = false ∧ g.Owes f) :
    p.Fits g (w.setHandle p.handle { w.handle p.handle with context, result := results }) := by
  have hself := World.handle_setHandle_self hf.inWorld.handle_lt
    { w.handle p.handle with context, result := results }
  have htaken := hf.inWorld
  refine ⟨hf.registersHeld,htaken.ours,htaken.kept,htaken.registry_lt,?_,?_,?_,?_,?_,?_,
    htaken.context_lt,htaken.home⟩
  · rw [World.size_setHandle]
    exact hf.inWorld.handle_lt
  · rw [hself]
    exact hf.inWorld.number_eq
  · rw [hself]
    exact hf.inWorld.registry_eq
  · rw [hself]
    exact hf.inWorld.references
  · rw [hself]
    exact hresults
  · rw [hself]
    exact hcontext

/-- Nothing that others do takes away from the holdings. -/
theorem HandlePlace.Fits.otherStep (hf : p.Fits g w) (hw : w.OtherStep g.ours (some p.handle) w') :
    p.Fits g w' := by
  cases hw with
  | number r => exact hf.grow (Store.widens_nextNumber hf.registersHeld.sound r)
  | registry => exact hf.grow (Store.widens_addRegistry hf.registersHeld.sound)
  | request happart =>
    exact hf.setStore (happart.passes hf.registersHeld.sound)
      (fun x hx => (hf.registersHeld.held x hx).2) (fun id => hf.inWorld.ours id)
      fun x hx => happart.files hx
  | secure hh hw =>
    cases hh
    exact (hf.secure hw).1
  | elsewhere hstore hkeeps => exact hf.keepsHandle hstore (hkeeps _ rfl)

namespace Code

variable {α : Type} {code : Code α} {Q : α → Holdings → Prop}

theorem load_cases {c c' : Context} {s s' : Store} {object : Stored} {v : Value}
    (hl : c.load s object = .ok (v,c',s')) :
    s' = s ∨ ∃ id, s.addReference c.registry id c.holder = .ok s' := by
  cases object with
  | nil | boolean | integer | float | string | function =>
    cases hl
    exact .inl rfl
  | shared f =>
    simp only [Context.load] at hl
    cases hcheck : (Stored.shared f).checkRegistry c.registry with
    | error fault =>
      rw [hcheck] at hl
      cases hl
    | ok _ =>
      rw [hcheck] at hl
      simp only [Except.bind, Context.addReference] at hl
      split at hl
      · cases hl
        exact .inl rfl
      · cases hs : s.addReference c.registry f.entry c.holder with
        | error fault =>
          rw [hs] at hl
          cases hl
        | ok t =>
          rw [hs] at hl
          cases hl
          exact .inr ⟨_,hs⟩

theorem release_freed (hf : p.Fits g w) {hs : List TableHandle}
    (hfreed : ∀ x ∈ shares hs, x ∈ w.store.filed) :
    g.release hs = g :=
  Holdings.release_of_apart fun x hx hmem => (hf.registersHeld.filed x (hfreed x hmem)).1
    (hf.registersHeld.held x hx).2

/-- After a handle has been dropped, its share and those still to come are let go of. -/
theorem release_dropped (hf : p.Fits g w) (h : TableHandle) (rest : List TableHandle) :
    (g.release [h]).release ((w.store.detach h.registry h.entry h.holder).1.elim []
      SharedTable.handles ++ rest) =
      g.release (h :: rest) := by
  have hfreed :
    ∀ x ∈ shares ((w.store.detach h.registry h.entry h.holder).1.elim [] SharedTable.handles),
      x ∈ w.store.filed := by
    intro x hx
    cases htable : (w.store.detach h.registry h.entry h.holder).1 with
    | none => simp [htable] at hx
    | some table => exact Store.filed_of_detach htable (by simpa [htable] using hx)
  set freed := (w.store.detach h.registry h.entry h.holder).1.elim [] SharedTable.handles
  calc (g.release [h]).release (freed ++ rest)
      = ((g.release [h]).release freed).release rest := (Holdings.release_release _ _ _).symm
    _ = (g.release [h]).release rest := by rw [release_freed (hf.release [h]) hfreed]
    _ = g.release (h :: rest) := Holdings.release_release g [h] rest

def Proceeds (p : HandlePlace) (g : Holdings) (Q : α → Holdings → Prop) (code : Code α)
    (w : World) : Prop :=
  ∃ g', p.Fits g' (code.step w).2 ∧ g'.Covers p ∧ (code.step w).1.Safe p g' Q ∧
    g'.ours = code.claims w g.ours ∧ g'.owed = g.owed ++ code.captures.flatMap Stored.handles

/-- A strong handle was in hand, and a weak one goes unnoticed. -/
theorem proceeds_drop {handles : List TableHandle} {k : Code α} (hs : (drop handles k).Safe p g Q)
    (hf : p.Fits g w) (hcovers : g.Covers p) : Proceeds p g Q (.drop handles k) w := by
  have hnone : g.owed = g.owed ++ [].flatMap Stored.handles := (List.append_nil _).symm
  obtain ⟨hleft,hs⟩ := hs
  cases handles with
  | nil =>
    have hsame : g.release [] = g := release_freed hf (by simp)
    rw [hsame] at hs
    exact ⟨g,hf,hcovers,hs,rfl,hnone⟩
  | cons h rest =>
    simp only [Proceeds, step]
    split
    · rename_i hstrong
      have hfreed := release_dropped hf h rest
      have hless : (g.release (h :: rest)).held ⊆ (g.release [h]).held := fun x hx =>
        ⟨hx.1,fun hmem => hx.2 (TableHandle.shares_append [h] rest ▸ Multiset.mem_add.mpr (.inl hmem))⟩
      refine ⟨g.release [h],hf.drop hstrong,hleft.mono rfl hless (le_refl g.kept),?_,rfl,hnone⟩
      simp only [Safe, hfreed]
      exact ⟨hleft,hs⟩
    · rename_i hweak
      have hsame : g.release (h :: rest) = g.release rest := by
        simp only [Holdings.release, TableHandle.shares_cons, TableHandle.share_of_weak hweak, zero_add]
      rw [hsame] at hleft hs
      exact ⟨g,hf,hcovers,⟨hleft,hs⟩,rfl,hnone⟩

theorem proceeds_load {c : ContextId} {object : Stored} {k : Except Fault Value → Code α}
    (hs : (load c object k).Safe p g Q) (hf : p.Fits g w) (hcovers : g.Covers p) :
    Proceeds p g Q (.load c object k) w := by
  have hnone : g.owed = g.owed ++ [].flatMap Stored.handles := (List.append_nil _).symm
  simp only [Proceeds, step]
  split
  · rename_i value context s hl
    have hregistry : context.registry = (w.context c).registry := by rw [World.load_record hl]
    refine ⟨g,?_,hcovers,hs _,rfl,hnone⟩
    refine HandlePlace.Fits.setContext ?_ hregistry
    rcases load_cases hl with rfl | ⟨id,ht⟩
    · exact hf
    · exact hf.grow (Store.widens_addReference hf.registersHeld.sound ht)
  · exact ⟨g,hf,hcovers,hs _,rfl,hnone⟩

/-- What a context gives up was not ours, nor what this frees. -/
theorem proceeds_close {c : ContextId} {k : Code α} (hs : (close c k).Safe p g Q) (hf : p.Fits g w)
    (hcovers : g.Covers p) : Proceeds p g Q (.close c k) w := by
  have hnone : g.owed = g.owed ++ [].flatMap Stored.handles := (List.append_nil _).symm
  simp only [Proceeds, step]
  split
  · rename_i hdestroyed
    refine ⟨g,?_,hcovers,hs,rfl,hnone⟩
    simp only [World.destroyUnhooked, Context.destroy, if_pos hdestroyed]
    exact HandlePlace.Fits.setContext (w := w.setStore w.store) hf rfl
  · have hfreed : g.release ((w.store.detachAll (w.context c).registry (w.context c).holder
        (w.context c).references).1.flatMap SharedTable.handles) = g :=
      release_freed hf fun x hx => Store.filed_of_detachAll hf.registersHeld.sound hx
    refine ⟨g,HandlePlace.Fits.setContext (hf.close c) rfl,hcovers,?_,rfl,hnone⟩
    simp only [Safe, hfreed]
    exact ⟨hcovers,hs⟩

/-- The results published before have no references of their own. -/
theorem proceeds_publish {h : WorkerId} {results : List Stored} {k : Code α}
    (hs : (publish h results k).Safe p g Q) (hf : p.Fits g w) (hcovers : g.Covers p) :
    Proceeds p g Q (.publish h results k) w := by
  obtain ⟨rfl,hresults,hs⟩ := hs
  have hold : g.release ((w.handle p.handle).result.flatMap Stored.handles) = g := by
    refine Holdings.release_of_apart fun x _ hx => ?_
    obtain ⟨f,hf',hstrong,_⟩ := TableHandle.mem_shares.mp hx
    rw [(hf.inWorld.result f hf').1] at hstrong
    cases hstrong
  refine ⟨g,hf.setHandle hf.inWorld.context hresults,hcovers,?_,rfl,(List.append_nil _).symm⟩
  simp only [step, Safe, hold]
  exact ⟨hcovers,hs⟩

/-- Every step of safe code leaves the rest safe, while the holdings hold. -/
theorem Safe.step (hs : code.Safe p g Q) (hf : p.Fits g w) (hcovers : g.Covers p) :
    Proceeds p g Q code w := by
  have hnone : g.owed = g.owed ++ [].flatMap Stored.handles := (List.append_nil _).symm
  cases code with
  | done a => exact ⟨g,hf,hcovers,hs,rfl,hnone⟩
  | number r k =>
    obtain ⟨rfl,hs⟩ := hs
    exact ⟨_,hf.number,hcovers.mono rfl (le_refl g.held) (le_refl g.kept),
      hs _ (hf.registersHeld.fresh rfl),rfl,hnone⟩
  | create r table holder k =>
    obtain ⟨rfl,hours,hholder,hleft,hs⟩ := hs
    exact ⟨_,hf.create hours hholder,hleft.hold _,hs _,rfl,hnone⟩
  | addReference r id holder k =>
    obtain ⟨hholder,hs,herror⟩ := hs
    simp only [Proceeds, Code.step]
    split
    · rename_i t ht
      have hpass := hf.grow (Store.widens_addReference hf.registersHeld.sound ht)
      exact ⟨_,hpass.hold (Store.holds_addReference ht) hholder,hcovers.hold _,hs,rfl,hnone⟩
    · rename_i fault ht
      refine ⟨g,hf,hcovers,herror (fun hsure => ?_) fault,rfl,hnone⟩
      obtain ⟨k',hk'⟩ := hf.holds_of_surelyAlive hsure
      exact hk'.addReference holder ht
  | drop handles k => exact proceeds_drop hs hf hcovers
  | secure h object k =>
    obtain ⟨rfl,hin,hout⟩ := hs
    simp only [Proceeds, Code.step]
    split
    · rename_i w' hw
      obtain ⟨hfit,hkept⟩ := hf.secure hw
      exact ⟨_,hfit.keep fun f hf' => (hkept f hf').2,hcovers.keep object,
        hin fun f hf' => (hkept f hf').1,rfl,hnone⟩
    · rename_i fault hw
      exact ⟨g,hf,hcovers,hout (hf.refused hw) fault,rfl,hnone⟩
  | load c object k => exact proceeds_load hs hf hcovers
  | close c k => exact proceeds_close hs hf hcovers
  | take h k =>
    obtain ⟨rfl,hgone,hc⟩ := hs
    simp only [Proceeds, Code.step]
    split
    · rename_i c hcontext
      obtain rfl := hf.inWorld.context c hcontext
      exact ⟨g,hf.setHandle (fun _ h => by cases h) hf.inWorld.result,hcovers,hc,rfl,hnone⟩
    · exact ⟨g,hf,hcovers,hgone,rfl,hnone⟩
  | publish h results k => exact proceeds_publish hs hf hcovers
  | captured object k =>
    exact ⟨g.owe object,hf.owe object,hs.1,hs.2,rfl,by simp [captures, Holdings.owe]⟩

end Code

end Workers
