import Mathlib.Logic.Function.Basic
import Workers.Proofs.Pool.Life
import Workers.Proofs.Pool.Neighbours
/-! # Starts, workers and shutdowns at once

Any number of starts, the workers that they launch, and shutdowns, of any number of pools, take
their steps in any order, together with the errands of controllers and with everybody who shares in
a handle.  The invariant says that nobody takes away what a worker needs to end properly.
-/
namespace Workers

structure Spawn (U N : Type) where
  launcher : Launcher
  stage : Spawning (Frame U N)

/-- `home` tells for which start a context was made, `shares` how often a handle is held by those
who were given it, `guards` what else counts as a worker. -/
structure PoolState (U N : Type) where
  world : World
  spawns : List (Spawn U N) := []
  shutdowns : List (PoolId × Errand) := []
  guards : List PoolId := []
  home : ContextId → Option Nat := fun _ => none
  shares : WorkerId → Nat := fun _ => 0

namespace Spawning

variable {F : Type}

def makes : Spawning F → Bool
  | preparing _ => true
  | _ => false

def handOut (shares : WorkerId → Nat) : Spawning F → WorkerId → Nat
  | started worker => Function.update shares worker.handle (shares worker.handle + 1)
  | _ => shares

end Spawning

namespace PoolState

variable {U N : Type} {lib : Library U N}

def restage (x : PoolState U N) (i : Nat) (s : Spawn U N) (stage : Spawning (Frame U N)) :
    PoolState U N :=
  { x with spawns := x.spawns.set i { s with stage } }

def advance (x : PoolState U N) (i : Nat) (s : Spawn U N) (stage : Spawning (Frame U N))
    (w : World) : PoolState U N :=
  { x.restage i s stage with
    world := w
    home := if s.stage.makes then Function.update x.home x.world.contexts.size (some i) else x.home
    shares := stage.handOut x.shares }

structure KeepsStarts (x : PoolState U N) (w : World) : Prop where
  handles : x.world.handles.size ≤ w.handles.size
  contexts : x.world.contexts.size ≤ w.contexts.size
  pools : x.world.pools.size ≤ w.pools.size
  handle : ∀ (i : Nat) (s : Spawn U N) (h : WorkerId), x.spawns[i]? = some s → s.stage.handle? = some h →
    w.handle h = x.world.handle h
  hook : ∀ c i, x.home c = some i → ∀ k, (w.context c).hook = some k → (x.world.context c).hook = some k
  stopping : ∀ c < x.world.contexts.size, (x.world.context c).stopping = true →
      (w.context c).stopping = true
  active : ∀ p, (w.pool p).active = (x.world.pool p).active
  requested : ∀ p, (x.world.pool p).requested = true → (w.pool p).requested = true

inductive Step (lib : Library U N) : PoolState U N → PoolState U N → Prop
  /-- Somebody begins a start. -/
  | call (x : PoolState U N) (l : Launcher) (arguments : List Stored)
      (hpool : l.pool < x.world.pools.size) :
      Step lib x { x with spawns := x.spawns ++ [⟨l,.entering arguments⟩] }
  | spawn {x : PoolState U N} {i : Nat} {s : Spawn U N} {stage : Spawning (Frame U N)} {w : World}
      (hs : x.spawns[i]? = some s) (hstep : s.stage.step s.launcher x.world = .ran stage w) :
      Step lib x (x.advance i s stage w)
  /-- The machine has no thread for a worker. -/
  | fail {x : PoolState U N} {i : Nat} {s : Spawn U N} {h : WorkerId} {adopted : List Stored}
      (reason : String) (hs : x.spawns[i]? = some s) (hstage : s.stage = .launching h adopted) :
      Step lib x { x.restage i s (.unhooking h (.notStarted reason)) with
        world := (x.world.setStore (x.world.store.drop adopted)).leave s.launcher.pool }
  | work {x : PoolState U N} {i : Nat} {s : Spawn U N} {worker worker' : Worker (Frame U N)} {w : World}
      (hs : x.spawns[i]? = some s) (hworker : s.stage.worker? = some worker)
      (hstep : worker.step lib x.world = .ran worker' w) :
      Step lib x { x.restage i s (s.stage.withWorker worker') with world := w }
  /-- Somebody begins a shutdown. -/
  | shut (x : PoolState U N) (p : PoolId) (hpool : p < x.world.pools.size) :
      Step lib x { x with shutdowns := x.shutdowns ++ [(p,Errand.shutdown p)] }
  | order {x : PoolState U N} {i : Nat} {p : PoolId} {e e' : Errand} {w : World}
      (he : x.shutdowns[i]? = some (p,e)) (hstep : e.step x.world = .ran e' w) :
      Step lib x { x with world := w, shutdowns := x.shutdowns.set i (p,e') }
  /-- A controller carries out an order. -/
  | errand {x : PoolState U N} {e e' : Errand} {w : World} (hstep : e.step x.world = .ran e' w) :
      Step lib x { x with world := w }
  | guard (x : PoolState U N) (p : PoolId) (hpool : p < x.world.pools.size) :
      Step lib x { x with world := x.world.enter p, guards := p :: x.guards }
  | unguard (x : PoolState U N) (p : PoolId) (hguard : p ∈ x.guards) :
      Step lib x { x with world := x.world.leave p, guards := x.guards.erase p }
  /-- Somebody who shares in a handle passes a share on, or gives one up. -/
  | share (x : PoolState U N) (h : WorkerId) (hshare : 0 < x.shares h) :
      Step lib x { x with world := x.world.own h, shares := Function.update x.shares h (x.shares h + 1) }
  | unshare (x : PoolState U N) (h : WorkerId) (hshare : 0 < x.shares h) :
      Step lib x
        { x with world := x.world.disown h, shares := Function.update x.shares h (x.shares h - 1) }
  | other {x : PoolState U N} {w : World} (hstarts : x.KeepsStarts w) : Step lib x { x with world := w }

abbrev Steps (lib : Library U N) : PoolState U N → PoolState U N → Prop :=
  Relation.ReflTransGen (Step lib)

def Idle (w : World) : Prop := ∀ p, (w.pool p).active = 0

def Reachable (lib : Library U N) (x : PoolState U N) : Prop := ∃ w, Idle w ∧ Steps lib { world := w } x

/-- A worker of a start, or one to be launched, has what it needs to end properly: while it has not
taken its context nobody else does, and then the context reports to nobody else. -/
structure Settled (home : ContextId → Option Nat) (w : World) (shares : WorkerId → Nat) (i : Nat)
    (p : PoolId) (worker : Worker (Frame U N)) : Prop where
  sound : WorkerState.Sound ⟨w,worker⟩
  pool : (w.handle worker.handle).pool = p
  context : worker.isStarting = true → (w.handle worker.handle).context ≠ none
  held : worker.isStarting = true → shares worker.handle < (w.handle worker.handle).owners
  unused : ∀ c, (w.handle worker.handle).context = some c → home c = some i
  used : ∀ c, worker.context? = some c → home c = some i
  checksOnlyOwn : worker.ChecksOnlyOwn
  ended : worker.HasEnded → (w.status worker.handle).isTerminal = true

variable {home : ContextId → Option Nat} {w w' : World} {shares shares' : WorkerId → Nat} {i : Nat}
    {p : PoolId}
variable {worker worker' : Worker (Frame U N)} {h : WorkerId}

/-- The steps of others leave a worker settled. -/
theorem Settled.respects (hsettled : Settled home w shares i p worker)
    (hr : World.Respects worker.handle w shares w' shares') : Settled home w' shares' i p worker where
  sound := hr.sound hsettled.sound
  pool := hr.pool.trans hsettled.pool
  context hstarting := by
    rw [hr.context (hsettled.held hstarting)]
    exact hsettled.context hstarting
  held hstarting := hr.held (hsettled.held hstarting)
  unused c hc := hsettled.unused c (hr.unused hc)
  used := hsettled.used
  checksOnlyOwn := hsettled.checksOnlyOwn
  ended hended := by
    rw [hr.status]
    exact hsettled.ended hended

theorem Settled.rehome {home' : ContextId → Option Nat} (hsettled : Settled home w shares i p worker)
    (hhome : ∀ c, home c = some i → home' c = some i) : Settled home' w shares i p worker :=
  { hsettled with
    unused := fun c hc => hhome c (hsettled.unused c hc)
    used := fun c hc => hhome c (hsettled.used c hc) }

theorem handle_countOut (w : World) (worker : Worker (Frame U N)) (h : WorkerId) :
    (worker.countOut w).handle h = w.handle h := by
  unfold Worker.countOut
  split <;> rfl

/-- So do its own. -/
theorem Settled.step (hsettled : Settled home w shares i p worker)
    (hserves : ∀ c, home c = some i → w.Serves c worker.handle)
    (hstep : worker.step lib w = .ran worker' w') :
    Settled home w' shares i p worker' ∧ Worker.StepEffect w worker w' worker' := by
  have hstays := Worker.stepEffect_step (fun c hc => hserves c (hsettled.used c hc))
    hsettled.checksOnlyOwn hstep
  have ⟨hhandle,hwithin,_,hkeeps,hused,hstarted,_⟩ := hstays
  have hnot : ∀ {q : Prop}, worker'.isStarting = true → q :=
    fun hstarting => by simp [hstarted] at hstarting
  refine ⟨⟨WorkerState.sound_worker hsettled.sound hstep,?_,hnot,hnot,fun c hc => ?_,
    fun c hc => ?_,hkeeps,
    fun hended => ?_⟩,hstays⟩
  · rw [hhandle, hwithin.pool, handle_countOut]
    exact hsettled.pool
  · rw [hhandle] at hc
    have hc' := hwithin.context c hc
    rw [handle_countOut] at hc'
    exact hsettled.unused c hc'
  · rcases hused c hc with hc' | ⟨_,hc'⟩
    · exact hsettled.used c hc'
    · exact hsettled.unused c hc'
  · rw [hhandle]
    exact Worker.terminal_step hsettled.sound hsettled.context hsettled.ended hstep hended

theorem Settled.launch {routine routine' : Routine} {arguments arguments' : List Stored}
    (hsettled : Settled (U := U) (N := N) home w shares i p
      { handle := h, stage := .starting routine arguments }) :
    Settled (U := U) (N := N) home w shares i p
      { handle := h, stage := .starting routine' arguments' } :=
  ⟨⟨hsettled.sound.range,hsettled.sound.latched,hsettled.sound.fits⟩,hsettled.pool,hsettled.context,
    hsettled.held,
    hsettled.unused,nofun,trivial,fun hended => absurd hended (Worker.not_ended nofun nofun)⟩

end PoolState

def Launcher.worker {U N : Type} (l : Launcher) (h : WorkerId) : Worker (Frame U N) :=
  { handle := h, stage := .starting l.routine [] }

/-- A start fits the world: its handle is nobody else's until it is handed out. -/
def Spawn.Fits {U N : Type} (home : ContextId → Option Nat) (w : World) (shares : WorkerId → Nat)
    (i : Nat) (s : Spawn U N) : Prop :=
  match s.stage with
  | .adopting h _ _ | .configuring h _ | .launching h _ =>
    PoolState.Settled (U := U) (N := N) home w shares i s.launcher.pool (s.launcher.worker h) ∧
    shares h = 0
  | .tracking worker =>
    PoolState.Settled home w shares i s.launcher.pool worker ∧ shares worker.handle = 0 ∧
      (worker.isStarting = true → 1 < (w.handle worker.handle).owners)
  | .started worker => PoolState.Settled home w shares i s.launcher.pool worker
  | .entering _ | .checking _ | .preparing _ => ∀ c, home c ≠ some i
  | .discarding h _ | .unhooking h _ => ∀ c, (w.handle h).context = some c → home c = some i
  | .releasing _ | .refused _ => True

namespace PoolState

variable {U N : Type} {lib : Library U N} {x y : PoolState U N}
variable {home : ContextId → Option Nat} {w w' : World} {shares shares' : WorkerId → Nat} {i : Nat}
    {h : WorkerId}
variable {s : Spawn U N} {stage : Spawning (Frame U N)}

theorem Fits.respects (hfits : s.Fits home w shares i)
    (hr : ∀ h, s.stage.handle? = some h → World.Respects h w shares w' shares') :
    s.Fits home w' shares' i := by
  obtain ⟨l,stage⟩ := s
  cases stage with
  | adopting h | configuring h | launching h =>
    obtain ⟨hsettled,halone⟩ := hfits
    exact ⟨hsettled.respects (hr h rfl),((hr h rfl).alone halone).1⟩
  | tracking worker =>
    obtain ⟨hsettled,halone,howners⟩ := hfits
    have hr' := hr worker.handle rfl
    exact ⟨hsettled.respects hr',(hr'.alone halone).1,
      fun hstarting => (howners hstarting).trans_le (hr'.alone halone).2⟩
  | started worker =>
    exact Settled.respects hfits (hr worker.handle rfl)
  | entering | checking | preparing => exact hfits
  | discarding h | unhooking h => exact fun c hc => hfits c ((hr h rfl).unused hc)
  | releasing | refused => trivial

theorem Fits.rehome {home' : ContextId → Option Nat} (hfits : s.Fits home w shares i)
    (hhome : ∀ c, home' c = some i ↔ home c = some i) : s.Fits home' w shares i := by
  have hkept := fun c => (hhome c).mpr
  obtain ⟨l,stage⟩ := s
  cases stage with
  | adopting h | configuring h | launching h => exact ⟨hfits.1.rehome hkept,hfits.2⟩
  | tracking worker => exact ⟨hfits.1.rehome hkept,hfits.2⟩
  | started worker => exact Settled.rehome hfits hkept
  | entering | checking | preparing => exact fun c hc => hfits c ((hhome c).mp hc)
  | discarding h | unhooking h => exact fun c hc => hkept c (hfits c hc)
  | releasing | refused => trivial

theorem Fits.settled (hfits : s.Fits home w shares i) {worker : Worker (Frame U N)}
    (hworker : s.stage.worker? = some worker) : Settled home w shares i s.launcher.pool worker := by
  obtain ⟨l,stage⟩ := s
  obtain rfl | rfl := Spawning.of_worker? hworker
  · exact hfits.1
  · exact hfits

/-- An unused context of a start was made for it. -/
theorem Fits.unused (hfits : s.Fits home w shares i) (hh : s.stage.handle? = some h) {c : ContextId}
    (hc : (w.handle h).context = some c) : home c = some i := by
  obtain ⟨l,stage⟩ := s
  cases stage with
  | adopting h' | configuring h' | launching h' =>
    obtain rfl := Option.some.inj hh
    exact hfits.1.unused c hc
  | tracking worker =>
    obtain rfl := Option.some.inj hh
    exact hfits.1.unused c hc
  | started worker =>
    obtain rfl := Option.some.inj hh
    exact Settled.unused hfits c hc
  | discarding h' | unhooking h' =>
    obtain rfl := Option.some.inj hh
    exact hfits c hc
  | entering | checking | preparing | releasing | refused => cases hh

structure Sound (x : PoolState U N) : Prop where
  range : ∀ (i : Nat) (s : Spawn U N) (h : WorkerId), x.spawns[i]? = some s → s.stage.handle? = some h →
    h < x.world.handles.size
  distinct : ∀ (i j : Nat) (s t : Spawn U N) (h : WorkerId), x.spawns[i]? = some s →
      x.spawns[j]? = some t →
    s.stage.handle? = some h → t.stage.handle? = some h → i = j
  made : ∀ c i, x.home c = some i → c < x.world.contexts.size ∧ i < x.spawns.length
  serves : ∀ (c : ContextId) (i : Nat) (s : Spawn U N) (h : WorkerId), x.home c = some i →
      x.spawns[i]? = some s →
    s.stage.handle? = some h → x.world.Serves c h
  pool : ∀ (i : Nat) (s : Spawn U N), x.spawns[i]? = some s → s.launcher.pool < x.world.pools.size
  guards : ∀ p ∈ x.guards, p < x.world.pools.size
  unshared : ∀ h, x.world.handles.size ≤ h → x.shares h = 0
  fits : ∀ (i : Nat) (s : Spawn U N), x.spawns[i]? = some s → s.Fits x.home x.world x.shares i

/-- Nobody's start takes a step. -/
theorem Sound.changed (hx : Sound x) (hspawns : y.spawns = x.spawns) (hhome : y.home = x.home)
    (hhandles : x.world.handles.size ≤ y.world.handles.size)
    (hcontexts : x.world.contexts.size ≤ y.world.contexts.size)
    (hpools : x.world.pools.size ≤ y.world.pools.size)
    (hguards : ∀ p ∈ y.guards, p < y.world.pools.size)
    (hunshared : ∀ h, y.world.handles.size ≤ h → y.shares h = 0)
    (hhook : ∀ c i, x.home c = some i → ∀ k, (y.world.context c).hook = some k →
      (x.world.context c).hook = some k)
    (hrespects : ∀ (i : Nat) (s : Spawn U N) (h : WorkerId), x.spawns[i]? = some s →
      s.stage.handle? = some h → World.Respects h x.world x.shares y.world y.shares) :
    Sound y where
  range i s h hs hh := (hx.range i s h (hspawns ▸ hs) hh).trans_le hhandles
  distinct i j s t h hs ht := hx.distinct i j s t h (hspawns ▸ hs) (hspawns ▸ ht)
  made c i hc := by
    rw [hhome] at hc
    exact ⟨(hx.made c i hc).1.trans_le hcontexts,hspawns ▸ (hx.made c i hc).2⟩
  serves c i s h hc hs hh k hk := by
    rw [hhome] at hc
    exact hx.serves c i s h hc (hspawns ▸ hs) hh k (hhook c i hc k hk)
  pool i s hs := (hx.pool i s (hspawns ▸ hs)).trans_le hpools
  guards := hguards
  unshared := hunshared
  fits i s hs := by
    rw [hspawns] at hs
    rw [hhome]
    exact Fits.respects (hx.fits i s hs) fun h hh => hrespects i s h hs hh

/-- One start takes a step. -/
theorem Sound.moved (hx : Sound x) (hs : x.spawns[i]? = some s)
    (hspawns : y.spawns = x.spawns.set i { s with stage }) (hguards : y.guards = x.guards)
    (hhandles : x.world.handles.size ≤ y.world.handles.size)
    (hcontexts : x.world.contexts.size ≤ y.world.contexts.size)
    (hpools : x.world.pools.size ≤ y.world.pools.size)
    (hunshared : ∀ h, y.world.handles.size ≤ h → y.shares h = 0)
    (hhome : ∀ c j, j ≠ i → (y.home c = some j ↔ x.home c = some j))
    (hmade : ∀ c, y.home c = some i → c < y.world.contexts.size)
    (hhook : ∀ c j, j ≠ i → x.home c = some j → ∀ k, (y.world.context c).hook = some k →
      (x.world.context c).hook = some k)
    (hrespects : ∀ (j : Nat) (t : Spawn U N) (h : WorkerId), j ≠ i → x.spawns[j]? = some t →
      t.stage.handle? = some h → World.Respects h x.world x.shares y.world y.shares)
    (hown : ∀ h, stage.handle? = some h → h < y.world.handles.size ∧
      (∀ c, y.home c = some i → y.world.Serves c h) ∧ ∀ (j : Nat) (t : Spawn U N), j ≠ i →
      x.spawns[j]? = some t → t.stage.handle? ≠ some h)
    (hfits : Spawn.Fits y.home y.world y.shares i { s with stage }) : Sound y := by
  have hi : i < x.spawns.length := (List.getElem?_eq_some_iff.mp hs).1
  have hcases : ∀ {j t}, y.spawns[j]? = some t → j = i ∧ t = { s with stage } ∨ j ≠ i ∧
      x.spawns[j]? = some t := by
    intro j t ht
    rw [hspawns] at ht
    by_cases hj : j = i
    · rw [hj, List.getElem?_set_self hi] at ht
      exact .inl ⟨hj,(Option.some.inj ht).symm⟩
    · rw [List.getElem?_set_ne (Ne.symm hj)] at ht
      exact .inr ⟨hj,ht⟩
  constructor
  case range =>
    intro j t h ht hh
    rcases hcases ht with ⟨rfl,rfl⟩ | ⟨_,ht⟩
    · exact (hown h hh).1
    · exact (hx.range j t h ht hh).trans_le hhandles
  case distinct =>
    intro j k t u h ht hu hth huh
    rcases hcases ht with ⟨rfl,rfl⟩ | ⟨hj,ht⟩ <;> rcases hcases hu with ⟨rfl,rfl⟩ | ⟨hk,hu⟩
    · rfl
    · exact absurd huh ((hown h hth).2.2 k u hk hu)
    · exact absurd hth ((hown h huh).2.2 j t hj ht)
    · exact hx.distinct j k t u h ht hu hth huh
  case made =>
    intro c j hc
    rw [hspawns, List.length_set]
    by_cases hj : j = i
    · subst hj
      exact ⟨hmade c hc,hi⟩
    · obtain ⟨hsmall,hlength⟩ := hx.made c j ((hhome c j hj).mp hc)
      exact ⟨hsmall.trans_le hcontexts,hlength⟩
  case serves =>
    intro c j t h hc ht hh
    rcases hcases ht with ⟨rfl,rfl⟩ | ⟨hj,ht⟩
    · exact (hown h hh).2.1 c hc
    · have hc' := (hhome c j hj).mp hc
      exact fun k hk => hx.serves c j t h hc' ht hh k (hhook c j hj hc' k hk)
  case pool =>
    intro j t ht
    rcases hcases ht with ⟨rfl,rfl⟩ | ⟨_,ht⟩
    · exact (hx.pool j s hs).trans_le hpools
    · exact (hx.pool j t ht).trans_le hpools
  case guards => exact fun p hp => (hx.guards p (hguards ▸ hp)).trans_le hpools
  case unshared => exact hunshared
  case fits =>
    intro j t ht
    rcases hcases ht with ⟨rfl,rfl⟩ | ⟨hj,ht⟩
    · exact hfits
    · have hfit := Fits.respects (hx.fits j t ht) fun h hh => hrespects j t h hj ht hh
      exact Fits.rehome hfit fun c => hhome c j hj

/-- One start takes a step within its handle. -/
theorem Sound.around (hx : Sound x) (hs : x.spawns[i]? = some s)
    (hspawns : y.spawns = x.spawns.set i { s with stage }) (hguards : y.guards = x.guards)
    (hhome : y.home = x.home) (haround : World.Around s.stage.handle? x.world y.world)
    (hhandle : ∀ h, stage.handle? = some h → s.stage.handle? = some h)
    (hshares : ∀ h, s.stage.handle? ≠ some h → y.shares h = x.shares h)
    (hfits : Spawn.Fits x.home y.world y.shares i { s with stage }) : Sound y := by
  have hold : ∀ c j, x.home c = some j → ∀ k, (y.world.context c).hook = some k →
      (x.world.context c).hook = some k ∨ j = i ∧ ∃ h, s.stage.handle? = some h ∧ k = .worker h := by
    intro c j hc k hk
    refine (haround.hook c k hk).imp_right fun ⟨h,hh,hunused,hworker⟩ => ⟨?_,h,hh,hworker⟩
    have hmine := Fits.unused (hx.fits i s hs) hh hunused
    exact Option.some.inj (hc.symm.trans hmine)
  refine hx.moved hs hspawns hguards haround.handles haround.contexts haround.pools (fun h hh => ?_)
    (fun c j _ => by rw [hhome]) (fun c hc => ?_) (fun c j hj hc k hk => ?_) (fun j t h hj ht hh => ?_)
    (fun h hh => ⟨?_,fun c hc k hk => ?_,fun j t hj ht hth => ?_⟩) (hhome ▸ hfits)
  · have hout := haround.handles.trans hh
    rw [hshares h fun hown => absurd (hx.range i s h hs hown) (Nat.not_lt.mpr hout)]
    exact hx.unshared h hout
  · exact (hx.made c i (hhome ▸ hc)).1.trans_le haround.contexts
  · exact (hold c j hc k hk).resolve_right fun hmine => hj hmine.1
  · have hother : s.stage.handle? ≠ some h := fun hown => hj (hx.distinct j i t s h ht hs hh hown)
    have hh' := hx.range j t h ht hh
    exact .of_steady (haround.keepsControl h hh' hother) (haround.steady h hh' hother) (hshares h hother)
  · exact (hx.range i s h hs (hhandle h hh)).trans_le haround.handles
  · have hown := hhandle h hh
    rw [hhome] at hc
    rcases hold c i hc k hk with hkept | ⟨_,h',hown',hworker⟩
    · exact hx.serves c i s h hc hs hown k hkept
    · obtain rfl := Option.some.inj (hown.symm.trans hown')
      exact hworker
  · exact hj (hx.distinct j i t s h ht hs hth (hhandle h hh))

end PoolState

end Workers
