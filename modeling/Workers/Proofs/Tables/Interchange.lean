import Workers.Proofs.Ledger.Dropped
import Workers.Proofs.Tables.Access
/-! # Objects that can be used for each other

Equal objects load alike in every context, except for handles on tables of different registries.
Equality looks at the addresses only, and every registry gives out the same ones, so such handles
may be equal; but a context of one of the two registries loads only its own.
-/
namespace Workers

/-- Equal objects are two handles on one address, or load without a look at the store, as equal
values. -/
theorem Stored.cases_of_same {a b : Stored} (h : a.same b = true) :
    (a.handles = [] ∧ b.handles = [] ∧ a.toValue.same b.toValue = true) ∨
      ∃ g g', a = .shared g ∧ b = .shared g' ∧ g.entry = g'.entry := by
  cases a with
  | shared g =>
    cases b with
    | shared g' => exact .inr ⟨g,g',rfl,rfl,beq_iff_eq.mp h⟩
    | nil | boolean | integer | float | string | function => cases h
  | nil | boolean | integer | float | string | function =>
    cases b with
    | shared => cases h
    | nil | boolean | integer | float | string | function => first | exact .inl ⟨rfl,rfl,h⟩ | cases h

namespace Context

variable {c : Context} {s : Store} {a b : Stored} {g g' : TableHandle}

def loaded (c : Context) (s : Store) (object : Stored) : Except Fault Value :=
  (c.load s object).map Prod.fst

/-- Both objects are refused, or both are loaded, as equal values. -/
def LoadsAlike (c : Context) (s : Store) (a b : Stored) : Prop :=
  match c.loaded s a, c.loaded s b with
  | .ok v, .ok v' => v.same v' = true
  | .error _, .error _ => True
  | _, _ => False

def Admits (c : Context) (s : Store) (g : TableHandle) : Prop :=
  g.registry = c.registry ∧ s.isAlive c.registry g.entry = true

/-- The objects are handles of two registries, and the context admits one of them. -/
def Splits (c : Context) (s : Store) (a b : Stored) : Prop :=
  ∃ g g', a = .shared g ∧ b = .shared g' ∧ g.registry ≠ g'.registry ∧ (c.Admits s g ∨ c.Admits s g')

def Keeping (c : Context) (s : Store) : Prop := ∀ id ∈ c.references, s.isAlive c.registry id = true

theorem loaded_of_handles (h : a.handles = []) : c.loaded s a = .ok a.toValue := by
  rw [loaded, load_of_handles h]
  rfl

theorem Admits.loaded (h : c.Admits s g) : c.loaded s (.shared g) = .ok (.shared g.entry) := by
  have hlive : ∀ handle, Stored.shared g = .shared handle → c.Admits s handle := by
    rintro _ ⟨⟩
    exact h
  obtain ⟨d,t,hload⟩ := load_eq hlive
  rw [Context.loaded, hload]
  rfl

/-- A reference to what is gone is refused, since it cannot be in the record. -/
theorem Keeping.refused (hkept : c.Keeping s) {id : EntryId} (hdead : ¬ s.isAlive c.registry id = true) :
    ∃ fault, c.addReference s id = .error fault := by
  have hnot : id ∉ c.references := fun hid => hdead (hkept id hid)
  unfold addReference
  rw [if_neg hnot]
  cases href : s.addReference c.registry id c.holder with
  | error fault => exact ⟨fault,rfl⟩
  | ok t =>
    obtain ⟨arena,harena,_⟩ := Store.addReference_cases href
    obtain ⟨entry,hentry,_⟩ := Arena.addReference_eq_ok harena
    exact absurd (by simp [Store.isAlive, Arena.isAlive, hentry]) hdead

theorem Keeping.loaded (hkept : c.Keeping s) (h : ¬ c.Admits s g) :
    ∃ fault, c.loaded s (.shared g) = .error fault := by
  unfold Context.loaded load Stored.checkRegistry
  by_cases hregistry : g.registry = c.registry
  · obtain ⟨fault,href⟩ := hkept.refused (fun halive => h ⟨hregistry,halive⟩)
    refine ⟨fault,?_⟩
    simp only [if_pos hregistry, Except.bind, href, Except.map]
  · refine ⟨.foreignTable,?_⟩
    simp only [if_neg hregistry, Except.bind, Except.map]

/-- Handles on one address load alike just when both are admitted or neither is. -/
theorem Keeping.loadsAlike_shared (hkept : c.Keeping s) (hentry : g.entry = g'.entry) :
    c.LoadsAlike s (.shared g) (.shared g') ↔ (c.Admits s g ↔ c.Admits s g') := by
  unfold LoadsAlike
  by_cases hg : c.Admits s g
  · by_cases hg' : c.Admits s g'
    · simp [hg, hg', hg.loaded, hg'.loaded, hentry, Value.same]
    · obtain ⟨fault,hfault⟩ := hkept.loaded hg'
      simp [hg, hg', hg.loaded, hfault]
  · obtain ⟨fault,hfault⟩ := hkept.loaded hg
    by_cases hg' : c.Admits s g'
    · simp [hg, hg', hg'.loaded, hfault]
    · obtain ⟨fault',hfault'⟩ := hkept.loaded hg'
      simp [hg, hg', hfault, hfault']

/-- At most one of two registries is that of the context. -/
theorem splits_shared (hentry : g.entry = g'.entry) :
    c.Splits s (.shared g) (.shared g') ↔ ¬ (c.Admits s g ↔ c.Admits s g') := by
  have hboth : g.registry = g'.registry → (c.Admits s g ↔ c.Admits s g') := fun hregistry => by
    unfold Admits
    rw [hregistry, hentry]
  constructor
  · rintro ⟨_,_,⟨⟩,⟨⟩,hne,hadmits⟩ hiff
    have hfound : c.Admits s g ∧ c.Admits s g' := by tauto
    exact hne (hfound.1.1.trans hfound.2.1.symm)
  · intro hone
    exact ⟨g,g',rfl,rfl,fun hregistry => hone (hboth hregistry),by tauto⟩

/-- Equal objects load alike, unless the context is that of one of two handles. -/
theorem Keeping.loadsAlike_iff (hkept : c.Keeping s) (hsame : a.same b = true) :
    c.LoadsAlike s a b ↔ ¬ c.Splits s a b := by
  obtain ⟨ha,hb,hvalue⟩ | ⟨g,g',rfl,rfl,hentry⟩ := Stored.cases_of_same hsame
  · have hnone : ¬ c.Splits s a b := by
      rintro ⟨g,g',rfl,-⟩
      cases ha
    simp [hnone, LoadsAlike, loaded_of_handles ha, loaded_of_handles hb, hvalue]
  · rw [hkept.loadsAlike_shared hentry, splits_shared hentry, not_not]

end Context

namespace GlobalState

/-- The contexts into which objects can be loaded, with the store: those that exist, and a new one
of any registry. -/
inductive Hosts (e : GlobalState) : Context → Store → Prop
  | present {c : Context} (hc : c ∈ e.world.contexts) : Hosts e c e.world.store
  | new {r : RegistryId} (hr : r < e.world.store.registries.size) :
      Hosts e (Context.create e.world.store r).1 (Context.create e.world.store r).2

variable {U N : Type} {lib : Library U N} {e : GlobalState} {c : Context} {s : Store} {a b : Stored}
    {r : RegistryId}

theorem Hosts.isAlive (h : e.Hosts c s) (q : RegistryId) (id : EntryId) :
    s.isAlive q id = e.world.store.isAlive q id := by
  cases h with
  | present => rfl
  | new => exact (Store.keeps_nextNumber _ _).isAlive q id

theorem Arises.keeping (he : Arises lib e) (h : e.Hosts c s) : c.Keeping s := by
  cases h with
  | present hc => exact he.accounted.exact.context_alive c hc
  | new => exact nofun

theorem registry_lt_of_isAlive {s : Store} {id : EntryId} (h : s.isAlive r id = true) :
    r < s.registries.size := by
  obtain ⟨entry,hentry⟩ := Option.isSome_iff_exists.mp h
  exact Store.lt_of_find? hentry

theorem Hosts.isAlive_of_admits {g : TableHandle} (h : e.Hosts c s) (hadmits : c.Admits s g) :
    e.world.store.isAlive g.registry g.entry = true := by
  rw [hadmits.1, ← h.isAlive]
  exact hadmits.2

theorem exists_admits {g : TableHandle} (h : e.world.store.isAlive g.registry g.entry = true) :
    ∃ c s, e.Hosts c s ∧ c.Admits s g := by
  have hhosts := Hosts.new (registry_lt_of_isAlive h)
  exact ⟨_,_,hhosts,rfl,(hhosts.isAlive _ _).trans h⟩

/-- Some context admits one of two handles and not the other if one of the tables is alive. -/
theorem exists_splits_iff : (∃ c s, e.Hosts c s ∧ c.Splits s a b) ↔
    ∃ g g', a = .shared g ∧ b = .shared g' ∧ g.registry ≠ g'.registry ∧
      (e.world.store.isAlive g.registry g.entry = true ∨
        e.world.store.isAlive g'.registry g'.entry = true) := by
  constructor
  · rintro ⟨c,s,hhosts,g,g',ha,hb,hne,hadmits⟩
    exact ⟨g,g',ha,hb,hne,hadmits.imp hhosts.isAlive_of_admits hhosts.isAlive_of_admits⟩
  · rintro ⟨g,g',ha,hb,hne,halive | halive⟩
    · obtain ⟨c,s,hhosts,hadmits⟩ := exists_admits halive
      exact ⟨c,s,hhosts,g,g',ha,hb,hne,.inl hadmits⟩
    · obtain ⟨c,s,hhosts,hadmits⟩ := exists_admits halive
      exact ⟨c,s,hhosts,g,g',ha,hb,hne,.inr hadmits⟩

/-- Whatever has come out of operations and calls, and whatever objects are equal: a context loads
them alike, both or neither and as equal values, unless they are handles of two registries and one
of them is on a live table of the context's registry.  So they can be used for each other in every
context, unless they are handles of two registries and the table of one of them is alive. -/
theorem loads_alike_iff (he : Arises lib e) (hsame : a.same b = true) :
    (∀ c s, e.Hosts c s → (c.LoadsAlike s a b ↔ ¬ c.Splits s a b)) ∧
      ((∀ c s, e.Hosts c s → c.LoadsAlike s a b) ↔
        ¬ ∃ g g', a = .shared g ∧ b = .shared g' ∧ g.registry ≠ g'.registry ∧
          (e.world.store.isAlive g.registry g.entry = true ∨
            e.world.store.isAlive g'.registry g'.entry = true)) := by
  have hiff : ∀ c s, e.Hosts c s → (c.LoadsAlike s a b ↔ ¬ c.Splits s a b) := fun c s hhosts =>
    (he.keeping hhosts).loadsAlike_iff hsame
  rw [← exists_splits_iff]
  refine ⟨hiff,?_,?_⟩
  · rintro halike ⟨c,s,hhosts,hsplits⟩
    exact (hiff c s hhosts).mp (halike c s hhosts) hsplits
  · exact fun hnone c s hhosts => (hiff c s hhosts).mpr fun hsplits => hnone ⟨c,s,hhosts,hsplits⟩

def neighbouring : GlobalState := run [.newPool,.newPool,.newContext 0,.create 1 [],.create 0 []]

theorem loads_alike_iff_neighbouring : ∃ a b, neighbouring.objects = [a,b] ∧
    (Arises unloadable neighbouring ∧ a.same b = true) ∧
    (∀ c s, neighbouring.Hosts c s → (c.LoadsAlike s a b ↔ ¬ c.Splits s a b)) ∧
      ((∀ c s, neighbouring.Hosts c s → c.LoadsAlike s a b) ↔
        ¬ ∃ g g', a = .shared g ∧ b = .shared g' ∧ g.registry ≠ g'.registry ∧
          (neighbouring.world.store.isAlive g.registry g.entry = true ∨
            neighbouring.world.store.isAlive g'.registry g'.entry = true)) := by
  have harises : Arises unloadable neighbouring := arises_run unloadable _
  have hsame : (Stored.shared ⟨⟨0,0⟩,2,0,true⟩).same (.shared ⟨⟨0,0⟩,1,1,true⟩) = true := rfl
  exact ⟨_,_,by decide,⟨harises,hsame⟩,loads_alike_iff harises hsame⟩

/-- Handles on the first tables of two registries are equal, and only one of them is loaded. -/
theorem equal_handles_load_apart :
    (¬ ∀ e a b, Arises unloadable e → a ∈ e.objects → b ∈ e.objects → a.same b = true →
      ∀ c ∈ e.world.contexts, c.LoadsAlike e.world.store a b) ∧
    ¬ ∀ e g g', Arises unloadable e → .shared g ∈ e.objects → .shared g' ∈ e.objects →
      (Stored.shared g).same (.shared g') = true → g.registry = g'.registry := by
  have harises : Arises unloadable neighbouring := arises_run unloadable _
  have hobjects : neighbouring.objects = [.shared ⟨⟨0,0⟩,2,0,true⟩,.shared ⟨⟨0,0⟩,1,1,true⟩] := by decide
  have hfirst : Stored.shared ⟨⟨0,0⟩,2,0,true⟩ ∈ neighbouring.objects := by simp [hobjects]
  have hsecond : Stored.shared ⟨⟨0,0⟩,1,1,true⟩ ∈ neighbouring.objects := by simp [hobjects]
  refine ⟨fun halike => ?_,fun hregistry => ?_⟩
  · have hc : neighbouring.world.context 0 ∈ neighbouring.world.contexts :=
      Array.mem_of_getElem? (World.context_eq (by decide))
    have hkept := harises.keeping (.present hc)
    have hloads := halike neighbouring _ _ harises hfirst hsecond rfl _ hc
    have hboth := (hkept.loadsAlike_shared (by rfl)).mp hloads
    exact absurd (hboth.mp ⟨by decide,by decide⟩).1 (by decide)
  · cases hregistry neighbouring _ _ harises hfirst hsecond rfl

end GlobalState

end Workers
