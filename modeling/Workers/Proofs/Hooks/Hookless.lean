import Workers.Proofs.Handover.Programs
/-! # A context without its hook

The same world once with a context that reports to a hook, and once with one that reports to nobody.
Code that does not look at the hook gets the same answers in both, and goes on alike: what the hook makes
it do besides is to count, to set a target that nobody reads, and to look whether it has to stop.
-/
namespace Workers

def Query.Plain : Query → Prop
  | .count | .hookStep | .retarget _ => False
  | _ => True

/-- Code with a hook beside the same code without one.  The two differ in what was the target before, in
whether a tick is due, and in checks that find nothing; none of it may make a difference later. -/
inductive Act.Alike {α : Type} : Act α → Act α → Prop
  | done (a : α) : Alike (.done a) (.done a)
  | query {q : Query} {k k' : q.Answer → Act α} (hq : q.Plain)
      (hk : ∀ answer, Alike (k answer) (k' answer)) :
      Alike (.query q k) (.query q k')
  | count {k k' : Count → Act α} (hstop : Alike (k .stop) (k' .stop))
      (hpass : Alike (k .pass) (k' .pass)) (htick : Alike (k .tick) (k' .pass)) :
      Alike (.query .count k) (.query .count k')
  | retarget {target target' : Option NotifierId} {k k' : Option NotifierId → Act α}
      (hk : ∀ previous previous', Alike (k previous) (k' previous')) :
      Alike (.query (.retarget target) k) (.query (.retarget target') k')
  | check {kind kind' : CheckKind} {k k' : Bool → Act α} (hk : Alike (k false) (k' false)) :
      Alike (.check kind k) (.check kind' k')
  /-- A check that only the code with a hook still has to make. -/
  | late {kind : CheckKind} {k : Bool → Act α} {a : Act α} (hk : Alike (k false) a) :
      Alike (.check kind k) a
  | wait {n : NotifierId} {d : Duration} {k k' : Bool → Act α}
      (hk : ∀ notified, Alike (k notified) (k' notified)) :
      Alike (.wait n d k) (.wait n d k')
  | call {routine : Routine} {arguments : List Value} {k k' : Outcome → Act α}
      (hk : ∀ outcome, Alike (k outcome) (k' outcome)) :
      Alike (.call routine arguments k) (.call routine arguments k')
  | panic (text : String) : Alike (.panic text) (.panic text)

namespace Act

variable {α β : Type}

theorem Alike.bind {a a' : Act α} {f f' : α → Act β} (ha : a.Alike a') (hf : ∀ x, (f x).Alike (f' x)) :
    (a.bind f).Alike (a'.bind f') := by
  induction ha with
  | done x => exact hf x
  | query hq _ ih => exact .query hq ih
  | count _ _ _ ihstop ihpass ihtick => exact .count ihstop ihpass ihtick
  | retarget _ ih => exact .retarget ih
  | check _ ih => exact .check ih
  | late _ ih => exact .late ih
  | wait _ ih => exact .wait ih
  | call _ ih => exact .call ih
  | panic text => exact .panic text

theorem alike_countInstruction : countInstruction.Alike countInstruction :=
  .count (.done true) (.done false) (.late (.done false))

theorem alike_yieldNow : yieldNow.Alike yieldNow := .check (.done false)

theorem alike_interruptionPoint : interruptionPoint.Alike interruptionPoint := .check (.done false)

theorem alike_sleepFor (d : Duration) : (sleepFor d).Alike (sleepFor d) :=
  .query trivial fun _ => .retarget fun _ _ => .check
    (.wait fun _ => .check (.retarget fun _ _ => .done false))

end Act

variable {U N : Type}

structure Library.IgnoresHook (lib : Library U N) : Prop where
  step : ∀ u, (lib.step u).Alike (lib.step u)
  receive : ∀ u outcome, (lib.receive u outcome).Alike (lib.receive u outcome)
  body : ∀ n, (lib.body n).Alike (lib.body n)

namespace Library.IgnoresHook

variable {lib : Library U N}

theorem advance (hlib : lib.IgnoresHook) (frame : Frame U N) :
    (lib.advance frame).Alike (lib.advance frame) := by
  cases frame with
  | own u => exact (hlib.step u).bind fun _ => .done _
  | native name body =>
    cases body with
    | none => exact .done _
    | some n =>
      refine (hlib.body n).bind fun report => ?_
      obtain ⟨n',stretch⟩ := report
      cases stretch <;> exact .done _
  | guarded f phase =>
    cases phase with
    | launch arguments =>
      simp only [Library.advance]
      split <;> exact .done _
    | waiting | finished => exact .done _

theorem accept (hlib : lib.IgnoresHook) (outcome : Except Fault (List Value)) (frame : Frame U N) :
    (lib.accept outcome frame).Alike (lib.accept outcome frame) := by
  cases frame with
  | own u => exact (hlib.receive u outcome).bind fun _ => .done _
  | native | guarded => exact .done _

end Library.IgnoresHook

namespace Context

def hookless (context : Context) : Context := { context with hook := none, hookStep := 0, executed := 0 }

variable (context : Context)

theorem registry_hookless : context.hookless.registry = context.registry := rfl

theorem addReference_hookless (s : Store) (id : EntryId) : context.hookless.addReference s id =
    (context.addReference s id).map fun found => (found.1.hookless,found.2) := by
  by_cases hid : id ∈ context.references
  · have hid' : id ∈ context.hookless.references := hid
    simp only [addReference, if_pos hid, if_pos hid']
    rfl
  · have hid' : ¬ id ∈ context.hookless.references := hid
    simp only [addReference, if_neg hid, if_neg hid']
    change Except.map _ (s.addReference context.registry id context.holder) = _
    cases s.addReference context.registry id context.holder <;> rfl

theorem load_hookless (s : Store) (object : Stored) : context.hookless.load s object =
    (context.load s object).map fun found => (found.1,found.2.1.hookless,found.2.2) := by
  cases object with
  | nil | boolean | integer | float | string | function => rfl
  | shared handle =>
    simp only [load, addReference_hookless]
    change ((Stored.shared handle).checkRegistry context.registry).bind _ = _
    cases (Stored.shared handle).checkRegistry context.registry with
    | error fault => rfl
    | ok _ => cases context.addReference s handle.entry <;> rfl

theorem get_hookless (m : Memory) (table key : Value) : context.hookless.get m table key =
    ((context.get m table key).1,(context.get m table key).2.1.hookless,
      (context.get m table key).2.2) := by
  unfold get
  cases key.toKey with
  | error fault => rfl
  | ok key =>
    cases table with
    | shared id =>
      dsimp only
      rw [registry_hookless]
      cases m.store.readTable context.registry id with
      | error fault => rfl
      | ok t =>
        dsimp only
        cases t.get? key with
        | none => rfl
        | some object =>
          dsimp only
          rw [load_hookless]
          cases context.load (object.copy m.store).2 (object.copy m.store).1 <;> rfl
    | nil | boolean | integer | float | string | function | table => rfl

theorem countInstruction_hookless : context.hookless.countInstruction =
    (if context.stopping then Count.stop else .pass,context.hookless) := by
  unfold countInstruction
  change (if context.stopping = true then _ else _) = _
  split
  · simp_all
  · simp_all [hookless]

end Context

namespace World

/-- The same world but for the hook of a context; who is being kept, watched or counted may differ. -/
structure Hookless (c : ContextId) (w w₀ : World) : Prop where
  memory : w₀.memory = w.memory
  notifiers : w₀.notifiers = w.notifiers
  clock : w₀.clock = w.clock
  lt : c < w.contexts.size
  lt' : c < w₀.contexts.size
  context : w₀.context c = (w.context c).hookless

theorem hookless_setContext (w : World) {c : ContextId} (hc : c < w.contexts.size) :
    w.Hookless c (w.setContext c (w.context c).hookless) where
  memory := rfl
  notifiers := rfl
  clock := rfl
  lt := hc
  lt' := by rwa [size_setContext]
  context := context_setContext_self hc _

namespace Hookless

variable {c : ContextId} {w w₀ : World}

theorem setStore (hw : w.Hookless c w₀) (s : Store) : (w.setStore s).Hookless c (w₀.setStore s) :=
  { hw with memory := congrArg (fun memory : Memory => { memory with store := s }) hw.memory }

theorem setContext (hw : w.Hookless c w₀) (context : Context) :
    (w.setContext c context).Hookless c (w₀.setContext c context.hookless) where
  memory := hw.memory
  notifiers := hw.notifiers
  clock := hw.clock
  lt := by rw [size_setContext]; exact hw.lt
  lt' := by rw [size_setContext]; exact hw.lt'
  context := by rw [context_setContext_self hw.lt', context_setContext_self hw.lt]

theorem setHandle (hw : w.Hookless c w₀) (h : WorkerId) (handle : WorkerHandle) :
    (w.setHandle h handle).Hookless c w₀ := ⟨hw.memory,hw.notifiers,hw.clock,hw.lt,hw.lt',hw.context⟩

theorem setGauge (hw : w.Hookless c w₀) (g : GaugeId) (gauge : Gauge) :
    (w.setGauge g gauge).Hookless c w₀ :=
  ⟨hw.memory,hw.notifiers,hw.clock,hw.lt,hw.lt',hw.context⟩

theorem destroyUnhooked (hw : w.Hookless c w₀) :
    (w.destroyUnhooked c).Hookless c (w₀.destroyUnhooked c) := by
  have hdestroy : (w₀.context c).destroy w₀.store =
      (((w.context c).destroy w.store).1.hookless,((w.context c).destroy w.store).2) := by
    rw [hw.context, store, hw.memory, ← store]
    unfold Context.destroy
    change (if (w.context c).destroyed = true then _ else _) = _
    split <;> rfl
  simp only [World.destroyUnhooked, hdestroy]
  exact (hw.setStore _).setContext _

theorem clearHook (hw : w.Hookless c w₀) (hshared : w.Shared c) : (w.clearHook c).Hookless c w₀ := by
  have hclear : (w.setContext c { w.context c with hook := none }).Hookless c w₀ := by
    refine ⟨hw.memory,hw.notifiers,hw.clock,?_,hw.lt',?_⟩
    · rw [size_setContext]
      exact hw.lt
    · rw [context_setContext_self hw.lt, hw.context]
      rfl
  rcases clearHook_writes hshared with hset | ⟨h,hset⟩
  · rw [hset]
    exact hclear
  · rw [hset]
    exact hclear.setHandle h _

/-- A context that somebody else keeps the worker of can be destroyed with its hook or without. -/
theorem destroy (hw : w.Hookless c w₀) (hshared : w.Shared c) :
    (w.destroy c).Hookless c (w₀.destroy c) := by
  have hdestroyed : (w₀.context c).destroyed = (w.context c).destroyed := by
    rw [hw.context]
    rfl
  by_cases hdead : (w.context c).destroyed
  · rw [World.destroy, World.destroy, if_pos hdead, if_pos (hdestroyed.trans hdead)]
    exact hw
  · have hdead' : ¬ (w₀.context c).destroyed = true := fun h => hdead (hdestroyed.symm.trans h)
    have hself : w₀.clearHook c = w₀ := Code.clearHook_self (by rw [hw.context]; rfl)
    have hgone : w₀.destroy c = (w₀.clearHook c).destroyUnhooked c := by
      simp only [World.destroy, if_neg hdead']
      rfl
    rw [hgone, hself]
    simp only [World.destroy, if_neg hdead]
    exact (hw.clearHook hshared).destroyUnhooked

theorem share (hw : w.Hookless c w₀) (value : Value) :
    (w₀.share c value).1 = (w.share c value).1 ∧ (w.share c value).2.Hookless c
      (w₀.share c value).2 := by
  have hstored : value.store w₀.store w₀.memory.heap (w₀.context c).registry =
      value.store w.store w.memory.heap (w.context c).registry := by
    rw [hw.context, store, hw.memory]
    rfl
  unfold World.share
  dsimp only
  rw [hstored]
  rcases value.store w.store w.memory.heap (w.context c).registry with ⟨_ | object,s⟩
  · exact ⟨rfl,hw.setStore s⟩
  · dsimp only
    rw [hw.context, Context.load_hookless]
    cases (w.context c).load s object with
    | error fault => exact ⟨rfl,hw.setStore _⟩
    | ok found => exact ⟨rfl,(hw.setStore _).setContext _⟩

/-- What a query brings up does not depend on the hook. -/
theorem answer (hw : w.Hookless c w₀) {q : Query} (hq : q.Plain) (hshared : q = .destroy → w.Shared c) :
    (w₀.answer c q).1 = (w.answer c q).1 ∧ (w.answer c q).2.Hookless c (w₀.answer c q).2 := by
  have hstore : w₀.store = w.store := congrArg Memory.store hw.memory
  cases q with
  | count | hookStep | retarget target => exact hq.elim
  | destroy => exact ⟨rfl,hw.destroy (hshared rfl)⟩
  | newTable =>
    simp only [World.answer, hw.memory]
    exact ⟨trivial,{ hw with memory := rfl }⟩
  | newShared =>
    simp only [World.answer, hw.context, hstore]
    exact ⟨rfl,(hw.setStore _).setContext _⟩
  | get table key =>
    simp only [World.answer, hw.context, hw.memory, Context.get_hookless]
    exact ⟨trivial,(hw.setStore _).setContext _⟩
  | set table key value =>
    simp only [World.answer, hw.context, hw.memory]
    exact ⟨rfl,{ hw with memory := rfl }⟩
  | length table =>
    simp only [World.answer, hw.context, hw.memory]
    exact ⟨rfl,hw⟩
  | share value =>
    exact hw.share value
  | paths =>
    simp only [World.answer, hw.context]
    exact ⟨rfl,hw⟩
  | notify n =>
    simp only [World.answer, World.notify, hw.notifiers]
    exact ⟨trivial,{ hw with notifiers := rfl }⟩
  | isNotified n =>
    simp only [World.answer, World.isNotified, hw.notifiers]
    exact ⟨trivial,hw⟩
  | newNotifier =>
    simp only [World.answer, World.addNotifier, hw.notifiers]
    exact ⟨trivial,{ hw with notifiers := rfl }⟩

end Hookless

end World

end Workers
