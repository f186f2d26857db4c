import Workers.Proofs.Pool.Counting
/-! # A shutdown leaves nothing running

A start counts itself in before it looks at the flag of its pool, and a shutdown sets the flag before
it waits for the count.  So whoever is not counted when the wait ends has ended, has been refused, or is
going to look at a flag that is set.
-/
namespace Workers

variable {U N : Type} {lib : Library U N} {w w' : World} {l : Launcher}

namespace Spawning

variable {stage stage' : Spawning (Frame U N)}

def isEarly : Spawning (Frame U N) → Bool
  | entering _ | checking _ => true
  | _ => false

inductive TurnedAway : Spawning (Frame U N) → Prop
  | entering (arguments : List Stored) : TurnedAway (entering arguments)
  | checking (arguments : List Stored) : TurnedAway (checking arguments)
  | releasing : TurnedAway (releasing .shuttingDown)
  | refused : TurnedAway (refused .shuttingDown)

def isClosed : Spawning (Frame U N) → Bool
  | entering _ | checking _ | unhooking _ _ | releasing _ | refused _ => true
  | tracking worker | started worker => worker.isGone
  | preparing _ | adopting _ _ _ | configuring _ _ | launching _ _ | discarding _ _ => false

theorem turnedAway_of_isEarly (hearly : stage.isEarly = true) : stage.TurnedAway := by
  cases stage with
  | entering arguments => exact .entering arguments
  | checking arguments => exact .checking arguments
  | _ => cases hearly

theorem isClosed_of_counts (hcounts : stage.counts = false) : stage.isClosed = true := by
  cases stage with
  | tracking worker | started worker => simpa [counts, isClosed] using hcounts
  | entering | unhooking | refused => rfl
  | checking | preparing | adopting | configuring | launching | discarding | releasing => cases hcounts

theorem isClosed_worker {worker : Worker (Frame U N)} (hworker : stage.worker? = some worker) :
    stage.isClosed = worker.isGone := by
  rcases of_worker? hworker with rfl | rfl <;> rfl

theorem step_checking {arguments : List Stored} (hrequested : (w.pool l.pool).requested = true) :
    (checking (F := Frame U N) arguments).step l w =
      .ran (releasing .shuttingDown) (w.setStore (w.store.drop arguments)) :=
  if_pos hrequested

theorem TurnedAway.step (hpath : stage.TurnedAway) (hrequested : (w.pool l.pool).requested = true)
    (hstep : stage.step l w = .ran stage' w') : stage'.TurnedAway := by
  cases hpath with
  | entering =>
    cases transition_of_step hstep with
    | enters => exact .checking _
  | checking =>
    cases transition_of_step hstep with
    | turnsAway => exact .releasing
    | passes arguments hopen => exact absurd hrequested hopen
  | releasing =>
    cases transition_of_step hstep with
    | releases => exact .refused
  | refused => cases hstep

theorem isClosed_step (hclosed : stage.isClosed = true) (hrequested : (w.pool l.pool).requested = true)
    (hstep : stage.step l w = .ran stage' w') : stage'.isClosed = true := by
  cases transition_of_step hstep with
  | enters | turnsAway | unhooks | releases => rfl
  | passes arguments hopen => exact absurd hrequested hopen
  | tracks => exact hclosed
  | prepares | adopted | adopts | rejects | configures | launches | discards => cases hclosed

inductive Next (lib : Library U N) (w w' : World) (l : Launcher) :
    Spawning (Frame U N) → Spawning (Frame U N) → Prop
  | rest (stage : Spawning (Frame U N)) : Next lib w w' l stage stage
  | own {stage stage' : Spawning (Frame U N)} (hstep : stage.step l w = .ran stage' w') :
      Next lib w w' l stage stage'
  | fail (h : WorkerId) (adopted : List Stored) (fault : Fault) :
      Next lib w w' l (launching h adopted) (unhooking h fault)
  | work {stage : Spawning (Frame U N)} {worker worker' : Worker (Frame U N)}
      (hworker : stage.worker? = some worker) (hstep : worker.step lib w = .ran worker' w') :
      Next lib w w' l stage (stage.withWorker worker')

theorem Next.turnedAway (hnext : Next lib w w' l stage stage')
    (hrequested : (w.pool l.pool).requested = true) (hpath : stage.TurnedAway) :
    stage'.TurnedAway := by
  cases hnext with
  | rest => exact hpath
  | own hstep => exact hpath.step hrequested hstep
  | fail => cases hpath
  | work hworker hstep => cases hpath <;> cases hworker

theorem Next.isClosed (hnext : Next lib w w' l stage stage')
    (hrequested : (w.pool l.pool).requested = true) (hclosed : stage.isClosed = true) :
    stage'.isClosed = true := by
  cases hnext with
  | rest => exact hclosed
  | own hstep => exact isClosed_step hclosed hrequested hstep
  | fail => cases hclosed
  | work hworker hstep =>
    rw [isClosed_worker hworker, Worker.not_gone hstep] at hclosed
    cases hclosed

end Spawning

theorem Errand.orders_step {e e' : Errand} {o : Order} {rest : List Order}
    (horders : e.orders = o :: rest) (hstep : e.step w = .ran e' w') :
    ∃ more, e'.orders = more ++ rest := by
  obtain ⟨_,_,more,horders',_,hafter⟩ := effect_of_step hstep
  obtain ⟨_,rfl⟩ := List.cons.inj (horders.symm.trans horders')
  exact ⟨more,hafter⟩

namespace PoolState

open Spawning (Next TurnedAway)

variable {x y z : PoolState U N} {i : Nat} {s : Spawn U N} {stage : Spawning (Frame U N)}
    {p : PoolId} {e e' : Errand}

theorem restage_spawn (hs : x.spawns[i]? = some s) :
    (x.restage i s stage).spawns[i]? = some { s with stage } :=
  List.getElem?_set_self (List.getElem?_eq_some_iff.mp hs).1

theorem restage_next {j : Nat} {t : Spawn U N} (hs : x.spawns[i]? = some s) (ht : x.spawns[j]? = some t)
    (hnext : Next lib w w' s.launcher s.stage stage) :
    ∃ stage', (x.restage i s stage).spawns[j]? = some { t with stage := stage' } ∧
      Next lib w w' t.launcher t.stage stage' := by
  by_cases hij : i = j
  · subst hij
    obtain rfl := Option.some.inj (hs.symm.trans ht)
    exact ⟨stage,restage_spawn hs,hnext⟩
  · exact ⟨t.stage,(List.getElem?_set_ne hij).trans ht,.rest _⟩

theorem Step.next (hstep : Step lib x y) (hs : x.spawns[i]? = some s) :
    ∃ stage, y.spawns[i]? = some { s with stage } ∧
    Next lib x.world y.world s.launcher s.stage stage := by
  cases hstep with
  | call l arguments hpool =>
    exact ⟨s.stage,(List.getElem?_append_left (List.getElem?_eq_some_iff.mp hs).1).trans hs,.rest _⟩
  | spawn hs' hstep => exact restage_next hs' hs (.own hstep)
  | fail reason hs' hstage => exact restage_next hs' hs (hstage ▸ .fail _ _ _)
  | work hs' hworker hstep => exact restage_next hs' hs (.work hworker hstep)
  | shut | order | errand | guard | unguard | share | unshare | other => exact ⟨s.stage,hs,.rest _⟩

/-- A start that was not there before is at its beginning. -/
theorem Step.new (hstep : Step lib x y) (hs : y.spawns[i]? = some s) (hnone : x.spawns[i]? = none) :
    ∃ arguments, s.stage = .entering arguments := by
  have hset : ∀ {j : Nat} {t : Spawn U N}, (x.spawns.set j t)[i]? = none := fun {j t} => by
    rw [List.getElem?_eq_none_iff, List.length_set]
    exact List.getElem?_eq_none_iff.mp hnone
  cases hstep with
  | call l arguments hpool =>
    rw [List.getElem?_append_right (List.getElem?_eq_none_iff.mp hnone), List.getElem?_singleton] at hs
    split at hs
    · obtain rfl := Option.some.inj hs
      exact ⟨arguments,rfl⟩
    · cases hs
  | spawn | fail | work => exact nomatch hs.symm.trans hset
  | shut | order | errand | guard | unguard | share | unshare | other =>
    exact nomatch hs.symm.trans hnone

structure Drained (x : PoolState U N) (p : PoolId) : Prop where
  requested : (x.world.pool p).requested = true
  closed : ∀ (i : Nat) (s : Spawn U N), x.spawns[i]? = some s → s.launcher.pool = p →
      s.stage.isClosed = true

theorem Drained.step (hdrained : x.Drained p) (hstep : Step lib x y) (hx : Sound x) : y.Drained p := by
  refine ⟨(hstep.keepsPools hx).requested p hdrained.requested,fun i t ht hp => ?_⟩
  cases hs : x.spawns[i]? with
  | none =>
    obtain ⟨arguments,hstage⟩ := hstep.new ht hs
    rw [hstage]
    rfl
  | some s =>
    obtain ⟨stage,ht',hnext⟩ := hstep.next hs
    obtain rfl := Option.some.inj (ht.symm.trans ht')
    have hrequested : (x.world.pool s.launcher.pool).requested = true := hp ▸ hdrained.requested
    exact hnext.isClosed hrequested (hdrained.closed i s hs hp)

inductive Shuts (x : PoolState U N) (p : PoolId) (e : Errand) : Prop
  | begun (horders : e.orders = [.request p,.cancelAll p,.untilIdle p])
  | waits (orders : List Order) (horders : e.orders = orders ++ [.untilIdle p])
      (hrequested : (x.world.pool p).requested = true)
  | returned (hdone : e.orders = []) (hdrained : x.Drained p)

theorem Shuts.step (hshuts : Shuts x p e) (hstep : Step lib x y) (hx : Sound x) : Shuts y p e := by
  cases hshuts with
  | begun horders => exact .begun horders
  | waits orders horders hrequested =>
    exact .waits orders horders ((hstep.keepsPools hx).requested p hrequested)
  | returned hdone hdrained => exact .returned hdone (hdrained.step hstep hx)

/-- With nobody counted a pool that is shut down is drained. -/
theorem Counted.drained (hx : Counted x) (hrequested : (x.world.pool p).requested = true)
    (hidle : (x.world.pool p).active = 0) : x.Drained p := by
  refine ⟨hrequested,fun i s hs hp => Spawning.isClosed_of_counts ?_⟩
  by_contra hcounts
  have hpos := countP_pos hs (Bool.not_eq_false _ ▸ hcounts)
  have hnone : x.outstanding p = 0 := (hx p).symm.trans hidle
  rw [hp] at hpos
  exact hpos.ne' (Nat.eq_zero_of_add_eq_zero_right hnone)

/-- Its own steps bring it on. -/
theorem Shuts.order (hshuts : Shuts x p e) (hx : Counted x) (hp : p < x.world.pools.size)
    (hstep : e.step x.world = .ran e' y.world) (hspawns : y.spawns = x.spawns) : Shuts y p e' := by
  obtain ⟨orders,answered⟩ := e
  cases hshuts with
  | begun horders =>
    obtain rfl : orders = _ := horders
    injection hstep with he hw
    subst he
    refine .waits [.cancelAll p] rfl ?_
    rw [← hw, World.request, World.pool_setPool, if_pos ⟨rfl,hp⟩]
  | waits before horders hrequested =>
    obtain rfl : orders = _ := horders
    have hrequested' := (World.keepsPools_errand hstep).1.requested p hrequested
    cases before with
    | nil =>
      -- Only the wait is left, and it ends when nobody is counted.
      simp only [List.nil_append, Errand.step] at hstep
      split at hstep
      · rename_i hidle
        injection hstep with he hw
        subst he
        obtain ⟨_,hclosed⟩ := hx.drained hrequested hidle
        exact .returned rfl ⟨hrequested',hspawns ▸ hclosed⟩
      · cases hstep
    | cons o rest =>
      obtain ⟨more,horders⟩ := Errand.orders_step rfl hstep
      exact .waits (more ++ rest) (horders.trans (List.append_assoc ..).symm) hrequested'
  | returned hdone =>
    obtain rfl : orders = _ := hdone
    cases hstep

structure Invariant (x : PoolState U N) : Prop where
  sound : Sound x
  counted : Counted x
  shuts : ∀ p e, (p,e) ∈ x.shutdowns → p < x.world.pools.size ∧ Shuts x p e

/-- Where a shutdown comes from. -/
theorem Step.shutdowns (hstep : Step lib x y) (he : (p,e) ∈ y.shutdowns) : (p,e) ∈ x.shutdowns ∨
    (e = Errand.shutdown p ∧ p < x.world.pools.size) ∨
    ∃ before, (p,before) ∈ x.shutdowns ∧ before.step x.world = .ran e y.world ∧ y.spawns = x.spawns := by
  cases hstep with
  | shut q hpool =>
    rcases List.mem_append.mp he with hold | hnew
    · exact .inl hold
    · obtain ⟨rfl,rfl⟩ := Prod.mk.inj (List.mem_singleton.mp hnew)
      exact .inr (.inl ⟨rfl,hpool⟩)
  | order hbefore hstep =>
    rcases List.mem_or_eq_of_mem_set he with hold | hnew
    · exact .inl hold
    · obtain ⟨rfl,rfl⟩ := Prod.mk.inj hnew
      exact .inr (.inr ⟨_,List.mem_of_getElem? hbefore,hstep,rfl⟩)
  | call | spawn | fail | work | errand | guard | unguard | share | unshare | other => exact .inl he

theorem Step.invariant (hstep : Step lib x y) (hx : Invariant x) : Invariant y := by
  have hpools := hstep.keepsPools hx.sound
  refine ⟨hstep.sound hx.sound,hstep.counted hx.sound hx.counted,fun p e he => ?_⟩
  rcases hstep.shutdowns he with hold | ⟨rfl,hp⟩ | ⟨before,hbefore,hran,hspawns⟩
  · obtain ⟨hp,hshuts⟩ := hx.shuts p e hold
    exact ⟨hp.trans_le hpools.size,hshuts.step hstep hx.sound⟩
  · exact ⟨hp.trans_le hpools.size,.begun rfl⟩
  · obtain ⟨hp,hshuts⟩ := hx.shuts p before hbefore
    exact ⟨hp.trans_le hpools.size,hshuts.order hx.counted hp hran hspawns⟩

theorem Steps.invariant (hsteps : Steps lib x y) (hx : Invariant x) : Invariant y := by
  induction hsteps with
  | refl => exact hx
  | tail _ hstep ih => exact hstep.invariant ih

theorem Reachable.invariant (hx : Reachable lib x) : Invariant x := by
  obtain ⟨w,hidle,hsteps⟩ := hx
  exact Steps.invariant hsteps ⟨sound_start w,fun p => hidle p,fun _ _ he => absurd he List.not_mem_nil⟩

def Goes (i : Nat) (x y : PoolState U N) : Prop :=
  ∃ s stage w, x.spawns[i]? = some s ∧ s.stage.step s.launcher x.world = .ran stage w ∧
  y = x.advance i s stage w

theorem goes_advance (hs : x.spawns[i]? = some s)
    (hstep : s.stage.step s.launcher x.world = .ran stage w) :
    Goes i x (x.advance i s stage w) ∧ (x.advance i s stage w).spawns[i]? = some { s with stage } :=
  ⟨⟨s,stage,w,hs,hstep,rfl⟩,restage_spawn hs⟩

theorem goes_releasing (hs : x.spawns[i]? = some ⟨l,.releasing .shuttingDown⟩) :
    ∃ y, Relation.ReflTransGen (Goes i) x y ∧ y.spawns[i]? = some ⟨l,.refused .shuttingDown⟩ := by
  obtain ⟨hgoes,hs'⟩ := goes_advance hs rfl
  exact ⟨_,.single hgoes,hs'⟩

theorem goes_checking {arguments : List Stored} (hs : x.spawns[i]? = some ⟨l,.checking arguments⟩)
    (hrequested : (x.world.pool l.pool).requested = true) :
    ∃ y, Relation.ReflTransGen (Goes i) x y ∧ y.spawns[i]? = some ⟨l,.refused .shuttingDown⟩ := by
  obtain ⟨hgoes,hs'⟩ := goes_advance hs (Spawning.step_checking hrequested)
  obtain ⟨y,hruns,hy⟩ := goes_releasing hs'
  exact ⟨y,.head hgoes hruns,hy⟩

/-- Left to itself a start that is turned away fails. -/
theorem TurnedAway.ends (hs : x.spawns[i]? = some ⟨l,stage⟩) (hpath : stage.TurnedAway)
    (hrequested : (x.world.pool l.pool).requested = true) :
    ∃ y, Relation.ReflTransGen (Goes i) x y ∧ y.spawns[i]? = some ⟨l,.refused .shuttingDown⟩ := by
  cases hpath with
  | entering arguments =>
    obtain ⟨hgoes,hs'⟩ := goes_advance hs rfl
    have hrequested' : ((x.world.enter l.pool).pool l.pool).requested = true :=
      (World.keepsPools_enter _ _).requested l.pool hrequested
    obtain ⟨y,hruns,hy⟩ := goes_checking hs' hrequested'
    exact ⟨y,.head hgoes hruns,hy⟩
  | checking arguments => exact goes_checking hs hrequested
  | releasing => exact goes_releasing hs
  | refused => exact ⟨x,.refl,hs⟩

/-- Whatever happens, a start comes to nothing: it never has a worker, and left to itself it fails. -/
def ComesToNothing (lib : Library U N) (x : PoolState U N) (i : Nat) : Prop :=
  ∀ y, Steps lib x y → (∃ s, y.spawns[i]? = some s ∧ s.stage.TurnedAway) ∧
    ∃ z l, Relation.ReflTransGen (Goes i) y z ∧ z.spawns[i]? = some ⟨l,.refused .shuttingDown⟩

theorem Invariant.turnedAway (hx : Invariant x)
    (hrequested : (x.world.pool s.launcher.pool).requested = true) (hs : x.spawns[i]? = some s)
    (hpath : s.stage.TurnedAway) : ComesToNothing lib x i := by
  intro y hsteps
  have hstays : Invariant y ∧ ∃ stage, y.spawns[i]? = some { s with stage } ∧ stage.TurnedAway ∧
      (y.world.pool s.launcher.pool).requested = true := by
    induction hsteps with
    | refl => exact ⟨hx,s.stage,hs,hpath,hrequested⟩
    | tail _ hstep ih =>
      obtain ⟨hy,stage,hs',hpath',hrequested'⟩ := ih
      obtain ⟨stage',hs'',hnext⟩ := hstep.next hs'
      exact ⟨hstep.invariant hy,stage',hs'',hnext.turnedAway hrequested' hpath',
        (hstep.keepsPools hy.sound).requested _ hrequested'⟩
  obtain ⟨_,stage,hs',hpath',hrequested'⟩ := hstays
  obtain ⟨z,hgoes,hz⟩ := TurnedAway.ends hs' hpath' hrequested'
  exact ⟨⟨_,hs',hpath'⟩,z,_,hgoes,hz⟩

/-- Every pool counts the guards that are held.  Once a shutdown has returned, every worker of its
pool has left its code with a terminal status, and a start that has not looked at the flag yet comes
to nothing. -/
structure Orderly (lib : Library U N) (x : PoolState U N) : Prop where
  counted : ∀ p, (x.world.pool p).active = x.outstanding p
  held : ∀ (i : Nat) (s : Spawn U N), x.spawns[i]? = some s → s.stage.counts = true →
    0 < (x.world.pool s.launcher.pool).active
  ended : ∀ p e, (p,e) ∈ x.shutdowns → e.isDone = true →
    ∀ (i : Nat) (s : Spawn U N) worker, x.spawns[i]? = some s → s.launcher.pool = p →
    s.stage.worker? = some worker →
      worker.isGone = true ∧ (x.world.status worker.handle).isTerminal = true
  refused : ∀ p e, (p,e) ∈ x.shutdowns → e.isDone = true →
    ∀ (i : Nat) (s : Spawn U N), x.spawns[i]? = some s → s.launcher.pool = p → s.stage.isEarly = true →
      ComesToNothing lib x i

theorem Invariant.drained (hx : Invariant x) (he : (p,e) ∈ x.shutdowns) (hdone : e.isDone = true) :
    x.Drained p := by
  have hnil : e.orders = [] := List.isEmpty_iff.mp hdone
  cases (hx.shuts p e he).2 with
  | begun horders => cases hnil.symm.trans horders
  | waits orders horders =>
    exact absurd (horders.symm.trans hnil) (List.append_ne_nil_of_right_ne_nil _ nofun)
  | returned _ hdrained => exact hdrained

theorem orderly (hx : Reachable lib x) : Orderly lib x := by
  have hkept := hx.invariant
  constructor
  case counted => exact hkept.counted
  case held =>
    intro i s hs hcounts
    rw [hkept.counted]
    exact Nat.add_pos_left (countP_pos hs hcounts) _
  case ended =>
    intro p e he hdone i s worker hs hp hworker
    have hgone : worker.isGone = true :=
      (Spawning.isClosed_worker hworker).symm.trans ((hkept.drained he hdone).closed i s hs hp)
    exact ⟨hgone,(Fits.settled (hkept.sound.fits i s hs) hworker).ended
      (Worker.hasEnded_of_isGone hgone)⟩
  case refused =>
    intro p e he hdone i s hs hp hearly
    have hrequested : (x.world.pool s.launcher.pool).requested = true :=
      hp ▸ (hkept.drained he hdone).requested
    exact hkept.turnedAway hrequested hs (Spawning.turnedAway_of_isEarly hearly)

inductive Actor where
  | call (l : Launcher)
  | spawn (i : Nat)
  | work (i : Nat)
  | shut (p : PoolId)
  | order (i : Nat)

def follow (lib : Library U N) (x : PoolState U N) : Actor → PoolState U N
  | .call l =>
    if l.pool < x.world.pools.size then { x with spawns := x.spawns ++ [⟨l,.entering []⟩] } else x
  | .spawn i =>
    match x.spawns[i]? with
    | some s =>
      match s.stage.step s.launcher x.world with
      | .ran stage w => x.advance i s stage w
      | .blocked _ => x
    | none => x
  | .work i =>
    match x.spawns[i]? with
    | some s =>
      match s.stage.worker? with
      | some worker =>
        match worker.step lib x.world with
        | .ran worker w => { x.restage i s (s.stage.withWorker worker) with world := w }
        | .blocked _ => x
      | none => x
    | none => x
  | .shut p =>
    if p < x.world.pools.size then { x with shutdowns := x.shutdowns ++ [(p,Errand.shutdown p)] }
      else x
  | .order i =>
    match x.shutdowns[i]? with
    | some (p,e) =>
      match e.step x.world with
      | .ran e w => { x with world := w, shutdowns := x.shutdowns.set i (p,e) }
      | .blocked _ => x
    | none => x

theorem steps_follow (x : PoolState U N) (actor : Actor) : Steps lib x (follow lib x actor) := by
  cases actor with
  | call l =>
    simp only [follow]
    split
    · rename_i hpool
      exact .single (.call x l [] hpool)
    · exact .refl
  | spawn i =>
    simp only [follow]
    split
    · rename_i hs
      split
      · rename_i hstep
        exact .single (.spawn hs hstep)
      · exact .refl
    · exact .refl
  | work i =>
    simp only [follow]
    split
    · rename_i hs
      split
      · rename_i hworker
        split
        · rename_i hstep
          exact .single (.work hs hworker hstep)
        · exact .refl
      · exact .refl
    · exact .refl
  | shut p =>
    simp only [follow]
    split
    · rename_i hpool
      exact .single (.shut x p hpool)
    · exact .refl
  | order i =>
    simp only [follow]
    split
    · rename_i he
      split
      · rename_i hstep
        exact .single (.order he hstep)
      · exact .refl
    · exact .refl

def lateCall : List Actor :=
  List.flatten [[.call ⟨0,⟨"",0⟩,.standard⟩],List.replicate 7 (.spawn 0),[.work 0,.work 0],
    [.call ⟨0,⟨"",0⟩,.standard⟩,.shut 0,.order 0,.order 0,.order 0,.order 0],List.replicate 15 (.work 0),
    [.order 0]]

def closed : PoolState Unit Unit :=
  lateCall.foldl (follow WorkerState.tickingTwice) { world := ({} : World).addPool.2 }

theorem closed_reachable : Reachable WorkerState.tickingTwice closed := by
  refine ⟨({} : World).addPool.2,fun p => ?_,steps_foldl steps_follow _ _⟩
  cases p <;> rfl

theorem orderly_closed :
    (Reachable WorkerState.tickingTwice closed ∧ closed.shutdowns.map
      (fun call => (call.1,call.2.isDone)) = [(0,true)] ∧
      closed.spawns.map (fun s => (s.stage.worker?.map Worker.isGone,s.stage.isEarly)) =
        [(some true,false),(none,true)] ∧
      closed.world.status 0 = .canceled) ∧ Orderly WorkerState.tickingTwice closed := by
  have hcalls : closed.shutdowns.map (fun call => (call.1,call.2.isDone)) = [(0,true)] := by decide
  have hspawns : closed.spawns.map (fun s => (s.stage.worker?.map Worker.isGone,s.stage.isEarly)) =
      [(some true,false),(none,true)] := by decide
  have hstatus : closed.world.status 0 = .canceled := by decide
  exact ⟨⟨closed_reachable,hcalls,hspawns,hstatus⟩,orderly closed_reachable⟩

end PoolState

end Workers
