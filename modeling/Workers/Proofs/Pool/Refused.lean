import Workers.Proofs.Pool.Attempt
import Workers.Proofs.Tables.Assignment
/-! # Launches that are refused

A launch captures its arguments in order before it starts a worker with them.  A capture that fails
gives everything back that it has made so far; a start that fails after it drops what has been
captured.  Either way the registries are as they were.
-/
namespace Workers

namespace Capture

variable {s t t₁ : Store} {h : Heap} {vs front : List Value} {v : Value} {objects : List Stored}
    {c c₁ c' : Capture}
variable {fault : Fault}

/-- A pass comes to its end, or to the first value that cannot be stored after those in front of it. -/
theorem storeAll_cases (c : Capture) (s : Store) (h : Heap) (vs : List Value) :
    (∃ objects c' t, c.storeAll s h vs = (.ok objects,c',t)) ∨
      ∃ front v back objects c₁ t₁ fault c' t, vs = front ++ v :: back ∧
        c.storeAll s h front = (.ok objects,c₁,t₁) ∧ c₁.store t₁ h v = (.error fault,c',t) := by
  induction vs generalizing c s with
  | nil => exact .inl ⟨[],c,s,rfl⟩
  | cons v rest ih =>
    rcases hstore : c.store s h v with ⟨fault | object,c₁,t₁⟩
    · exact .inr ⟨[],v,rest,[],c,s,fault,c₁,t₁,rfl,rfl,hstore⟩
    · rcases ih c₁ t₁ with ⟨objects,c',t,hall⟩ | ⟨front,u,back,objects,c₂,t₂,fault,c',t,rfl,hfront,hu⟩
      · exact .inl ⟨object :: objects,c',t,by simp only [storeAll, hstore, hall]⟩
      · exact .inr ⟨v :: front,u,back,object :: objects,c₂,t₂,fault,c',t,rfl,
          by simp only [storeAll, hstore, hfront],hu⟩

theorem storeUpTo_append (hfront : c.storeAll s h front = (.ok objects,c₁,t₁)) (rest : List Value) :
    c.storeUpTo s h (front ++ rest) =
      (objects ++ (c₁.storeUpTo t₁ h rest).1,(c₁.storeUpTo t₁ h rest).2) := by
  induction front generalizing c s objects with
  | nil =>
    cases hfront
    rfl
  | cons v front ih =>
    simp only [storeAll] at hfront
    rcases hstore : c.store s h v with ⟨fault | object,c₂,t₂⟩
    · rw [hstore] at hfront
      cases hfront
    · rw [hstore] at hfront
      rcases hrest : c₂.storeAll t₂ h front with ⟨fault | more,c₃,t₃⟩
      · simp only [hrest] at hfront
        cases hfront
      · simp only [hrest] at hfront
        cases hfront
        rw [List.cons_append, storeUpTo, hstore]
        simp only [ih hrest, List.cons_append]

end Capture

namespace World

variable {w w' : World} {c c₁ c' : Capture} {objects : List Stored}
    {front values : List Value} {v : Value}
variable {t t₁ : Store} {fault : Fault} {r : RegistryId} {out : Multiset Share}

theorem captureArguments_error (hfront : c.storeAll w.store w.memory.heap front = (.ok objects,c₁,t₁))
    (hv : c₁.store t₁ w.memory.heap v = (.error fault,c',t)) (n : ℕ) (back : List Value) :
    w.captureArguments c n [] (front ++ v :: back) =
      (.error (.badArgument (n + front.length) fault),w.setStore (c'.finish (t.drop objects))) := by
  have hv' : c₁.store (w.setStore t₁).store (w.setStore t₁).memory.heap v = (.error fault,c',t) := hv
  rw [captureArguments_append hfront, captureArguments, hv']
  rfl

/-- What a capture has made up to its failure is given back with it. -/
theorem restored_captureArguments (hb : w.store.Balanced out) (hr : r < w.store.registries.size)
    (hfront : ({ registry := r } : Capture).storeAll w.store w.memory.heap front = (.ok objects,c₁,t₁))
    (hv : c₁.store t₁ w.memory.heap v = (.error fault,c',t)) :
    w.store.Restored (c'.finish (t.drop objects)) := by
  have hpass := Capture.storeUpTo_append hfront [v]
  rw [Capture.storeUpTo, hv] at hpass
  unfold Capture.finish Store.drop
  rw [← Store.settle_append]
  refine Capture.restored_pass hb hr hpass ?_
  rw [List.append_nil]

/-- What a capture has made and handed out is given back in two portions. -/
theorem restored_captured (hb : w.store.Balanced out) (hr : r < w.store.registries.size)
    (hall : ({ registry := r } : Capture).storeAll w.store w.memory.heap values = (.ok objects,c',t)) :
    w.store.Restored ((c'.finish t).drop objects) := by
  have hpass := Capture.storeUpTo_append hall []
  rw [List.append_nil] at hpass
  unfold Capture.finish Store.drop
  rw [← Store.settle_append]
  refine Capture.restored_pass hb hr hpass ?_
  simp only [Capture.storeUpTo, List.append_nil]
  exact List.perm_append_comm

inductive Denies (w : World) (l : Launcher) (c : ContextId) (values : List Value)
    (refusal : Option String) :
    Fault → Prop
  | foreignContext (hforeign : (w.context c).registry ≠ (w.pool l.pool).registry) :
      Denies w l c values refusal .foreignContext
  /-- The values in front are captured, and after them not the next one. -/
  | badArgument {front back : List Value} {v : Value} {objects : List Stored} {capture : Capture}
      {t : Store} {fault : Fault} (hhome : (w.context c).registry = (w.pool l.pool).registry)
      (hvalues : values = front ++ v :: back)
      (hfront : ({ registry := (w.context c).registry } : Capture).storeAll w.store w.memory.heap
        front = (.ok objects,capture,t))
      (hfault : (capture.store t w.memory.heap v).1 = .error fault) :
      Denies w l c values refusal (.badArgument (1 + front.length) fault)
  /-- All values are captured, and then the start is refused. -/
  | start {objects : List Stored} {capture : Capture} {t : Store} {fault : Fault}
      (hhome : (w.context c).registry = (w.pool l.pool).registry)
      (hall : ({ registry := (w.context c).registry } : Capture).storeAll w.store w.memory.heap
        values = (.ok objects,capture,t))
      (hrefuses : (w.setStore (capture.finish t)).Refuses l.pool objects refusal fault) :
      Denies w l c values refusal fault

theorem LeavesNothing.of_store {s : Store} (h : (w.setStore s).LeavesNothing w') : w.LeavesNothing w' :=
  ⟨⟨h.heap,h.notifiers,h.gauges,h.clock,h.handle,h.context⟩,h.pools,h.handle_gone,h.context_gone⟩

theorem leavesNothing_setStore (w : World) (s : Store) : w.LeavesNothing (w.setStore s) where
  toOnlyAdds := (OnlyAdds.refl w).setStore s
  pools := rfl
  handle_gone _ hi hnew := absurd hi (Nat.not_lt.mpr hnew)
  context_gone _ hd hnew := absurd hd (Nat.not_lt.mpr hnew)

end World

namespace System

open World (Denies Refuses LeavesNothing)

variable {U N : Type} {s s' : System (Frame U N)} {p : PoolId} {config : Config} {routine : Routine}
    {l : Launcher}
variable {c : ContextId} {arguments : List Stored} {values : List Value} {refusal : Option String}
    {fault : Fault}
variable {out : Multiset Share}

def attempt (s : System (Frame U N)) (p : PoolId) (config : Config) (routine : Routine)
    (arguments : List Stored) (refusal : Option String) :
    Except Fault (WorkerId × ThreadId) × System (Frame U N) :=
  match s.world.attempt p config arguments refusal with
  | (.error fault,world) => (.error fault,{ s with world })
  | (.ok (h,adopted),world) =>
    let (thread,s) :=
      { s with world }.addThread (.worker { handle := h, stage := .starting routine adopted })
    (.ok (h,thread),s)

def attemptLaunch (s : System (Frame U N)) (l : Launcher) (c : ContextId) (values : List Value)
    (refusal : Option String) : Except Fault (WorkerId × ThreadId) × System (Frame U N) :=
  match s.world.launchArguments l c values with
  | (.error fault,world) => (.error fault,{ s with world })
  | (.ok stored,world) => { s with world }.attempt l.pool l.config l.routine stored refusal

theorem attempt_none (s : System (Frame U N)) (p : PoolId) (config : Config) (routine : Routine)
    (arguments : List Stored) :
    s.attempt p config routine arguments none = s.spawn p config routine arguments := rfl

theorem attemptLaunch_none (s : System (Frame U N)) (l : Launcher) (c : ContextId)
    (values : List Value) :
    s.attemptLaunch l c values none = s.launch l c values := rfl

theorem attempt_of_error {w : World}
    (h : s.world.attempt p config arguments refusal = (.error fault,w)) (routine : Routine) :
    s.attempt p config routine arguments refusal = (.error fault,{ s with world := w }) := by
  simp only [attempt, h]

/-- The first value that cannot be captured. -/
theorem attemptLaunch_badArgument
    (hhome : (s.world.context c).registry = (s.world.pool l.pool).registry) {front : List Value}
    {v : Value} {objects : List Stored} {capture capture' : Capture} {t t' : Store}
    (hfront : ({ registry := (s.world.context c).registry } : Capture).storeAll s.world.store
      s.world.memory.heap front = (.ok objects,capture,t))
    (hv : capture.store t s.world.memory.heap v = (.error fault,capture',t')) (back : List Value)
    (refusal : Option String) :
    s.attemptLaunch l c (front ++ v :: back) refusal =
    (.error (.badArgument (1 + front.length) fault),
      { s with world := s.world.setStore (capture'.finish (t'.drop objects)) }) := by
  unfold attemptLaunch World.launchArguments
  simp only [ne_eq, hhome, not_true_eq_false, if_false]
  rw [← hhome, World.captureArguments_error hfront hv]

theorem attempt_error (hb : s.world.store.Balanced out)
    (h : s.attempt p config routine arguments refusal = (.error fault,s')) :
    s'.threads = s.threads ∧ s.world.LeavesNothing s'.world ∧
    (s.world.store.drop arguments).Restored s'.world.store ∧
      s.world.Refuses p arguments refusal fault := by
  unfold attempt at h
  rcases hattempt : s.world.attempt p config arguments refusal with ⟨refused | ⟨i,adopted⟩,w⟩
  · rw [hattempt] at h
    cases h
    exact ⟨rfl,World.attempt_error hb hattempt⟩
  · rw [hattempt] at h
    cases h

theorem attemptLaunch_error (hb : s.world.store.Balanced out)
    (hr : (s.world.context c).registry < s.world.store.registries.size)
    (h : s.attemptLaunch l c values refusal = (.error fault,s')) :
    s'.threads = s.threads ∧ s.world.LeavesNothing s'.world ∧ s.world.store.Restored s'.world.store ∧
      s.world.Denies l c values refusal fault := by
  unfold attemptLaunch World.launchArguments at h
  by_cases hhome : (s.world.context c).registry = (s.world.pool l.pool).registry
  · simp only [ne_eq, hhome, not_true_eq_false, if_false] at h
    rw [← hhome] at h
    rcases Capture.storeAll_cases { registry := (s.world.context c).registry } s.world.store
      s.world.memory.heap values
      with ⟨objects,capture,t,hall⟩ | ⟨front,v,back,objects,c₁,t₁,refused,c',t,rfl,hfront,hv⟩
    · rw [World.captureArguments_eq hall] at h
      obtain ⟨hthreads,hclean,hrestored,hrefuses⟩ :=
        attempt_error (s := ⟨s.world.setStore (capture.finish t),s.threads⟩)
          (Capture.balanced_pass hb hr hall) h
      exact ⟨hthreads,hclean.of_store,(World.restored_captured hb hr hall).trans hrestored,
        .start hhome hall hrefuses⟩
    · rw [World.captureArguments_error hfront hv] at h
      cases h
      exact ⟨rfl,World.leavesNothing_setStore _ _,World.restored_captureArguments hb hr hfront hv,
        .badArgument hhome rfl hfront (by rw [hv])⟩
  · simp only [ne_eq, hhome, not_false_eq_true, if_true] at h
    cases h
    exact ⟨rfl,World.leavesNothing_setStore _ _,.refl _,.foreignContext hhome⟩

end System

namespace GlobalState

variable {U N : Type} {lib : Library U N} {e : GlobalState}

/-- Whatever has come out of operations and calls, however many workers the pools count, whether
they shut down and what the machine answers: a start that is refused brings no thread, leaves every
pool, handle and context as it was, and the registries as if its arguments had been dropped.  A
launch that is refused leaves the registries as they were.  A bad argument is the first one that
cannot be captured, or adopted, after those in front of it. -/
theorem refused_start_leaves_no_trace (he : Arises lib e) {s : System (Frame U N)}
    (hstore : s.world.store = e.world.store) (hcontexts : s.world.contexts = e.world.contexts)
    (l : Launcher) (refusal : Option String) :
    (∀ (arguments : List Stored) (fault : Fault) (s' : System (Frame U N)),
      s.attempt l.pool l.config l.routine arguments refusal = (.error fault,s') →
        s'.threads = s.threads ∧ s.world.LeavesNothing s'.world ∧
          (s.world.store.drop arguments).Restored s'.world.store ∧
          s.world.Refuses l.pool arguments refusal fault) ∧
    ∀ c < s.world.contexts.size, ∀ (values : List Value) (fault : Fault) (s' : System (Frame U N)),
      s.attemptLaunch l c values refusal = (.error fault,s') →
        s'.threads = s.threads ∧ s.world.LeavesNothing s'.world ∧
        s.world.store.Restored s'.world.store ∧
          s.world.Denies l c values refusal fault := by
  have hb : s.world.store.Balanced (e.world.shares + e.shares) := hstore ▸ he.accounted.world.balanced
  refine ⟨fun arguments fault s' h => System.attempt_error hb h,fun c hc values fault s' h => ?_⟩
  have hcontext : s.world.context c = e.world.context c := by
    rw [World.context, hcontexts, World.context]
  refine System.attemptLaunch_error hb ?_ h
  rw [hcontext, hstore]
  exact he.accounted.world.context_given (hcontexts ▸ hc)

end GlobalState

theorem Heap.capture_entangled (s : Store) (r : RegistryId) : ∃ c t,
    ({ registry := r } : Capture).store s .entangled (.table 0) = (.error .cyclicTable,c,t) := by
  have hcyclic := store_entangled s r
  unfold Value.store at hcyclic
  rcases hstore : ({ registry := r } : Capture).store s .entangled (.table 0) with ⟨outcome,c,t⟩
  rw [hstore] at hcyclic
  obtain rfl : outcome = .error .cyclicTable := hcyclic
  exact ⟨c,t,rfl⟩

/-- A worker for which there is no thread, one that is given a table of another registry, and a
launch with a table that comes back to itself. -/
theorem GlobalState.refused_start_leaves_no_trace_thrice :
    let e := GlobalState.run [.newPool,.newPool,.newContext 0,.create 0 [],.create 1 []]
    let s : System (Frame Unit Unit) :=
      ⟨{ e.world with memory := { e.world.memory with heap := .entangled } },#[]⟩
    let l := Launcher.ofRoutine 0 ⟨"f",0⟩
    let own : Stored := .shared { entry := ⟨0,0⟩, number := 2, registry := 0, strong := true }
    let foreign : Stored := .shared { entry := ⟨0,0⟩, number := 1, registry := 1, strong := true }
    let refusal := some "no room"
    ∃ s₁ s₂ s₃, (Arises unloadable e ∧ s.world.store = e.world.store ∧
      s.world.contexts = e.world.contexts ∧
      e.objects = [foreign,own] ∧ 0 < s.world.contexts.size ∧
      s.attempt l.pool l.config l.routine [own] refusal = (.error (.notStarted "no room"),s₁) ∧
      s.attempt l.pool l.config l.routine [own,foreign] refusal =
      (.error (.badArgument 2 .foreignTable),s₂) ∧
      s.attemptLaunch l 0 [.integer 7,.table 0] refusal = (.error (.badArgument 2 .cyclicTable),s₃)) ∧
    (s₁.threads = s.threads ∧ s.world.LeavesNothing s₁.world ∧
      (s.world.store.drop [own]).Restored s₁.world.store ∧
      s.world.Refuses l.pool [own] refusal (.notStarted "no room")) ∧
    (s₂.threads = s.threads ∧ s.world.LeavesNothing s₂.world ∧
      (s.world.store.drop [own,foreign]).Restored s₂.world.store ∧
      s.world.Refuses l.pool [own,foreign] refusal (.badArgument 2 .foreignTable)) ∧
    s₃.threads = s.threads ∧ s.world.LeavesNothing s₃.world ∧ s.world.store.Restored s₃.world.store ∧
      s.world.Denies l 0 [.integer 7,.table 0] refusal (.badArgument 2 .cyclicTable) := by
  intro e s l own foreign refusal
  have harises : Arises unloadable e := arises_run unloadable _
  have hb : s.world.store.Balanced (e.world.shares + e.shares) := harises.accounted.world.balanced
  have hobjects : e.objects = [foreign,own] := by decide
  have hc : 0 < s.world.contexts.size := by decide
  have hopen : (s.world.pool 0).requested = false := rfl
  have hown : ∀ object ∈ [own], object.refusal? s.world.store (s.world.pool 0).registry = none := by
    intro object hmem
    rw [List.mem_singleton.mp hmem]
    rfl
  have hforeign : foreign.refusal? s.world.store (s.world.pool 0).registry = some .foreignTable := rfl
  obtain ⟨w₁,hw₁,_⟩ := World.attempt_notStarted hb hopen hown l.config "no room"
  obtain ⟨w₂,hw₂,_⟩ := World.attempt_badArgument hb hopen hown hforeign [] l.config refusal
  obtain ⟨capture,t,hv⟩ := Heap.capture_entangled s.world.store 0
  have hfront : ({ registry := 0 } : Capture).storeAll s.world.store s.world.memory.heap [.integer 7] =
      (.ok [.integer 7],{ registry := 0 },s.world.store) := by
    rw [Capture.storeAll, Capture.store_scalar (rfl : (Value.integer 7).scalar? = some (.integer 7))]
    rfl
  have h₁ := System.attempt_of_error hw₁ l.routine
  have h₂ := System.attempt_of_error hw₂ l.routine
  have h₃ := System.attemptLaunch_badArgument (s := s) (l := l) (c := 0) rfl hfront hv [] refusal
  obtain ⟨hattempt,hlaunch⟩ := refused_start_leaves_no_trace (s := s) harises rfl rfl l refusal
  exact ⟨_,_,_,⟨harises,rfl,rfl,hobjects,hc,h₁,h₂,h₃⟩,hattempt _ _ _ h₁,hattempt _ _ _ h₂,
    hlaunch 0 hc _ _ _ h₃⟩

end Workers
