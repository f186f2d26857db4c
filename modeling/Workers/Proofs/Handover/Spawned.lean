import Mathlib
import Workers.Proofs.Handover.Stages
import Workers.Proofs.Ledger.Dropped
/-! # Handing over frees nothing

A spawn takes its arguments from its caller, moves them under a worker handle and starts the worker.
The worker loads them, runs its code, captures the results, moves them under the handle and destroys
its context.  Between any two calls that this makes on a registry others may make theirs, and so may
the code that the worker runs.  An entry that the hand-over owes is alive all the way, until the
handle is dropped.
-/
namespace Workers

open TableHandle (shares)

variable {U N : Type}

inductive Leg (U N : Type) where
  /-- The caller has given the arguments away. -/
  | called
  /-- The worker handle has a number. -/
  | numbered (n : Nat)
  | adopting (h : WorkerId) (code : Code (Except Code.Refused (List Stored)))
  | working (h : WorkerId) (code : Code (Stage (Frame U N)))
  /-- The spawn has failed, or the handle has been dropped. -/
  | ended

def Leg.handle? : Leg U N → Option WorkerId
  | .adopting h _ | .working h _ => some h
  | .called | .numbered _ | .ended => none

/-- A hand-over under way, with the shares that nobody else gives up and the results captured so far. -/
structure Handover (U N : Type) where
  world : World
  leg : Leg U N
  ours : Set Share
  results : List Stored

def World.raise (w : World) (p : PoolId) (r : RegistryId) (n : Nat) : WorkerId × World :=
  let (context,w) := w.addContext r
  (w.handles.size,
    { w with
      handles := w.handles.push { number := n, pool := p, registry := r, context := some context } })

theorem World.handle_raise (w : World) (p : PoolId) (r : RegistryId) (n : Nat) :
    (w.raise p r n).2.handle w.handles.size =
      { number := n, pool := p, registry := r, context := some w.contexts.size } := by
  simp [World.raise, World.handle, World.addContext, World.setStore]

theorem World.addHandle_eq_raise (w : World) (p : PoolId) : w.addHandle p =
    (w.setStore (w.store.nextNumber (w.pool p).registry).2).raise p (w.pool p).registry
      (w.store.nextNumber (w.pool p).registry).1 := rfl

namespace Handover

def start (w : World) (arguments : List Stored) : Handover U N :=
  ⟨w,.called,{ x | x ∈ shares (arguments.flatMap Stored.handles) },[]⟩

/-- One call of the hand-over on a registry, one of somebody else, or the way from one operation to the
next.  What the code of the worker does while it runs is done by others, and may come to any end. -/
inductive Step (lib : Library U N) (p : PoolId) (r : RegistryId) (routine : Routine)
    (arguments : List Stored) (x : Handover U N) : Handover U N → Prop
  | other {w : World} (hw : x.world.OtherStep x.ours x.leg.handle? w) :
    Step lib p r routine arguments x { x with world := w }
  | number (hleg : x.leg = .called) : Step lib p r routine arguments x
      { x with
        world := x.world.setStore (x.world.store.nextNumber r).2
        leg := .numbered (x.world.store.nextNumber r).1
        ours := { y | y ∈ x.ours ∨ y.owner = (r,.thread (x.world.store.nextNumber r).1) } }
  | raise {n : Nat} (hleg : x.leg = .numbered n) : Step lib p r routine arguments x
      { x with
        world := (x.world.raise p r n).2
        leg := .adopting (x.world.raise p r n).1 (Code.adoptAll (x.world.raise p r n).1 1 arguments) }
  | adopt {h : WorkerId} {code : Code (Except Code.Refused (List Stored))}
      (hleg : x.leg = .adopting h code) :
    Step lib p r routine arguments x
      { x with
        world := (code.step x.world).2
        leg := .adopting h (code.step x.world).1
        ours := code.claims x.world x.ours }
  | launch {h : WorkerId} {adopted : List Stored} (hleg : x.leg = .adopting h (.done (.ok adopted))) :
    Step lib p r routine arguments x { x with leg := .working h (.done (.starting routine adopted)) }
  | begin {h : WorkerId} {stage : Stage (Frame U N)} (hleg : x.leg = .working h (.done stage)) :
    Step lib p r routine arguments x { x with leg := .working h (Code.ofStage x.world h stage) }
  | work {h : WorkerId} {code : Code (Stage (Frame U N))} (hleg : x.leg = .working h code) :
    Step lib p r routine arguments x
      { x with
        world := (code.step x.world).2
        leg := .working h (code.step x.world).1
        ours := code.claims x.world x.ours
        results := x.results ++ code.captures }
  | exit {h : WorkerId} {c : ContextId} {s : Strand (Frame U N)}
      (hleg : x.leg = .working h (.done (.running c s)))
      (e : Exit (Frame U N)) :
    Step lib p r routine arguments x { x with leg := .working h (.done (Worker.afterExit c e)) }
  | judge {h : WorkerId} {e : Ending} {worker : Worker (Frame U N)} {w : World}
      (hleg : x.leg = .working h (.done (.judging e)))
      (hstep : Worker.step lib x.world ⟨h,.judging e⟩ = .ran worker w) :
    Step lib p r routine arguments x { x with world := w, leg := .working h (.done worker.stage) }
  | announce {h : WorkerId} {status : Status} (hleg : x.leg = .working h (.done (.announcing status))) :
    Step lib p r routine arguments x
      { x with world := x.world.changeStatus h status, leg := .working h (.done .leaving) }
  | refuse (hleg : x.leg = .called ∨ ∃ h refused, x.leg = .adopting h (.done (.error refused))) :
    Step lib p r routine arguments x { x with leg := .ended }
  | drop {h : WorkerId} (hleg : x.leg = .working h (.done .leaving)) :
    Step lib p r routine arguments x { x with leg := .ended }

variable {lib : Library U N} {p : PoolId} {r : RegistryId} {routine : Routine} {arguments : List Stored}
variable {x y : Handover U N}

/-- The handles whose entries must stay alive: the strong ones among the arguments, and those of the
results. -/
def owed (arguments results : List Stored) : List TableHandle :=
  (arguments.flatMap Stored.handles).filter TableHandle.strong ++ results.flatMap Stored.handles

def entrance (arguments : List Stored) (x : Handover U N) : Holdings :=
  { ours := x.ours
    held := { y | y ∈ shares (arguments.flatMap Stored.handles) }
    kept := ∅
    owed := owed arguments x.results }

structure Entered (r : RegistryId) (arguments : List Stored) (x : Handover U N) : Prop where
  registersHeld : x.world.store.RegistersHeld (entrance arguments x)
  registry_lt : r < x.world.store.registries.size
  distinct : (shares (arguments.flatMap Stored.handles)).Nodup
  results : x.results = []

structure HasHoldings (arguments : List Stored) (x : Handover U N) (h : WorkerId)
    (place : HandlePlace) (g : Holdings) : Prop where
  handle : place.handle = h
  fits : place.Fits g x.world
  covers : g.Covers place
  ours : g.ours = x.ours
  owed : Handover.owed arguments x.results ⊆ g.owed

def Sound (r : RegistryId) (arguments : List Stored) (x : Handover U N) : Prop :=
  match x.leg with
  | .called => Entered r arguments x
  | .numbered n => Entered r arguments x ∧ ∀ id, ⟨r,id,.thread n⟩ ∈ x.ours
  | .adopting h code =>
    ∃ place g, HasHoldings arguments x h place g ∧ code.Safe place g fun o g' =>
      ∀ adopted, o = .ok adopted →
      g'.Settled place ∧ ∀ f ∈ adopted.flatMap Stored.handles, f.strong = false
  | .working h code => ∃ place g, HasHoldings arguments x h place g ∧ code.Safe place g fun stage g' =>
      g'.Settled place ∧ Code.Carries place g' stage
  | .ended => True

theorem Entered.otherStep (hx : Entered r arguments x) {w : World}
    (hw : x.world.OtherStep x.ours none w) :
    Entered r arguments { x with world := w } := by
  have hgrow : ∀ {t : Store}, x.world.store.Widens 0 t →
      Entered r arguments { x with world := x.world.setStore t } :=
    fun ht => ⟨hx.registersHeld.grow ht,hx.registry_lt.trans_le ht.size_le,hx.distinct,hx.results⟩
  cases hw with
  | number q => exact hgrow (Store.widens_nextNumber hx.registersHeld.sound q)
  | registry => exact hgrow (Store.widens_addRegistry hx.registersHeld.sound)
  | request happart =>
    have ht := happart.passes hx.registersHeld.sound
    exact ⟨hx.registersHeld.pass ht (fun y hy => (hx.registersHeld.held y hy).2) fun y hy =>
      happart.files hy,
      hx.registry_lt.trans_le ht.size_le,hx.distinct,hx.results⟩
  | secure hh => cases hh
  | elsewhere hstore =>
    have hbacks := hx.registersHeld
    have hlt := hx.registry_lt
    rw [← hstore] at hbacks hlt
    exact ⟨hbacks,hlt,hx.distinct,hx.results⟩

theorem HasHoldings.otherStep {h : WorkerId} {place : HandlePlace} {g : Holdings}
    (hg : HasHoldings arguments x h place g) {w : World}
    (hw : x.world.OtherStep x.ours (some h) w) :
    HasHoldings arguments { x with world := w } h place g :=
  ⟨hg.handle,hg.fits.otherStep (by rw [hg.ours, hg.handle]; exact hw),hg.covers,hg.ours,hg.owed⟩

theorem Sound.other (hx : Sound r arguments x) {w : World}
    (hw : x.world.OtherStep x.ours x.leg.handle? w) :
    Sound r arguments { x with world := w } := by
  obtain ⟨u,leg,ours,results⟩ := x
  cases leg with
  | called => exact Entered.otherStep hx hw
  | numbered n => exact ⟨hx.1.otherStep hw,hx.2⟩
  | adopting h code | working h code =>
    obtain ⟨place,g,hg,hs⟩ := hx
    exact ⟨place,g,hg.otherStep hw,hs⟩
  | ended => trivial

theorem Entered.number (hx : Entered r arguments x) (leg : Leg U N) :
    let n := (x.world.store.nextNumber r).1
    let ours := { y | y ∈ x.ours ∨ y.owner = (r,.thread n) }
    Entered r arguments (⟨x.world.setStore (x.world.store.nextNumber r).2,leg,ours,
      x.results⟩ : Handover U N) where
  registersHeld := hx.registersHeld.number hx.registry_lt rfl fun _ hk => Holder.noConfusion hk
  registry_lt := hx.registry_lt.trans_le (Store.later_nextNumber x.world.store r).size_eq.ge
  distinct := hx.distinct
  results := hx.results

theorem Entered.owedInHand (hx : Entered r arguments x) (place : HandlePlace) :
    Code.OwedInHand place (entrance arguments x) (arguments.flatMap Stored.handles) := by
  refine ⟨fun f hf => ?_,fun _ hy => hy,hx.distinct⟩
  rcases List.mem_append.mp hf with hf | hf
  · obtain ⟨hin,hstrong⟩ := List.mem_filter.mp hf
    exact .inr ⟨_,TableHandle.mem_shares.mpr ⟨f,hin,hstrong,rfl⟩,rfl,rfl⟩
  · rw [hx.results] at hf
    exact absurd hf List.not_mem_nil

/-- The new handle keeps nothing yet, and its context is of its registry. -/
theorem Entered.raise (hx : Entered r arguments x) {n : Nat}
    (hours : ∀ id, ⟨r,id,.thread n⟩ ∈ x.ours) (p : PoolId) :
    HandlePlace.Fits ⟨x.world.handles.size,n,r,x.world.contexts.size⟩ (entrance arguments x)
      (x.world.raise p r n).2 := by
  have hwidens : x.world.store.Widens 0 (x.world.raise p r n).2.store :=
    Store.widens_nextNumber hx.registersHeld.sound r
  have hhandle := World.handle_raise x.world p r n
  have hcontext : ((x.world.raise p r n).2.context x.world.contexts.size).registry = r := by
    simp [World.raise, World.context, World.addContext, World.setStore, Context.create]
  refine ⟨hx.registersHeld.grow hwidens,hours,fun id hid => absurd hid (Set.notMem_empty id),
    hx.registry_lt.trans_le hwidens.size_le,?_,?_,?_,?_,?_,?_,?_,hcontext⟩
  · exact (Array.size_push _).symm ▸ Nat.lt_succ_self x.world.handles.size
  · rw [hhandle]
  · rw [hhandle]
  · rw [hhandle]
    exact fun id hid => absurd hid List.not_mem_nil
  · rw [hhandle]
    exact fun f hf => absurd hf List.not_mem_nil
  · rw [hhandle]
    exact fun c hc => (Option.some.inj hc).symm
  · exact (Array.size_push _).symm ▸ Nat.lt_succ_self x.world.contexts.size

/-- One step of code takes the holdings to the next. -/
theorem HasHoldings.step {α : Type} {code : Code α} {Q : α → Holdings → Prop} {h : WorkerId}
    {place : HandlePlace} {g : Holdings} (hg : HasHoldings arguments x h place g)
    (hs : code.Safe place g Q) {leg : Leg U N} (results : List Stored)
    (hresults : ∀ f ∈ results.flatMap Stored.handles, f ∈ x.results.flatMap Stored.handles ∨
      f ∈ code.captures.flatMap Stored.handles) :
    ∃ g', HasHoldings arguments ⟨(code.step x.world).2,leg,code.claims x.world x.ours,results⟩
      h place g' ∧
      (code.step x.world).1.Safe place g' Q := by
  obtain ⟨g',hfits,hcovers,hsafe,hours,howed⟩ := hs.step hg.fits hg.covers
  refine ⟨g',⟨hg.handle,hfits,hcovers,by rw [hours, hg.ours],fun f hf => ?_⟩,hsafe⟩
  rw [howed]
  rcases List.mem_append.mp hf with hf | hf
  · exact List.mem_append_left _ (hg.owed (List.mem_append_left _ hf))
  · rcases hresults f hf with hf | hf
    · exact List.mem_append_left _ (hg.owed (List.mem_append_right _ hf))
    · exact List.mem_append_right _ hf

theorem carries_afterExit {place : HandlePlace} {g : Holdings} {c : ContextId}
    (hc : c = place.context) (e : Exit (Frame U N)) :
    Code.Carries place g (Worker.afterExit c e) := by
  unfold Worker.afterExit
  split
  · exact hc
  all_goals exact nofun

/-- A judgement changes nothing, and publishes what the worker ends with or how it failed. -/
theorem carries_judging {place : HandlePlace} {g : Holdings} {w w' : World} {h : WorkerId}
    {e : Ending} {worker : Worker (Frame U N)}
    (hstage : Code.Carries (U := U) (N := N) place g (.judging e))
    (hstep : Worker.step lib w ⟨h,.judging e⟩ = .ran worker w') :
    w' = w ∧ Code.Carries place g worker.stage := by
  have hfailed : ∀ description, g.OwesAll (failureResult description) := fun description f hf =>
    absurd hf (by simp [failureResult, Stored.handles])
  cases e with
  | completed results =>
    cases hstep
    exact ⟨rfl,hstage results rfl⟩
  | stopped =>
    cases hstep
    refine ⟨rfl,?_⟩
    simp only
    split <;> trivial
  | failed description =>
    cases hstep
    refine ⟨rfl,?_⟩
    simp only
    split
    · trivial
    · exact hfailed description

theorem Step.sound (hstep : Step lib p r routine arguments x y) (hx : Sound r arguments x) :
    Sound r arguments y := by
  obtain ⟨w,leg,ours,results⟩ := x
  cases hstep with
  | other hw => exact hx.other hw
  | refuse | drop => trivial
  | number hleg =>
    cases hleg
    exact ⟨Entered.number hx _,fun id => .inr rfl⟩
  | raise hleg =>
    cases hleg
    rename_i n
    have hpledged := hx.1.owedInHand ⟨w.handles.size,n,r,w.contexts.size⟩
    exact ⟨_,_,⟨rfl,hx.1.raise hx.2 p,hpledged.isCovers,rfl,List.Subset.refl _⟩,
      Code.safe_adoptAll 1 hpledged⟩
  | adopt hleg =>
    cases hleg
    obtain ⟨place,g,hg,hs⟩ := hx
    obtain ⟨g',hg',hs'⟩ := hg.step hs results fun f hf => .inl hf
    exact ⟨place,g',hg',hs'⟩
  | launch hleg =>
    cases hleg
    obtain ⟨place,g,hg,hs⟩ := hx
    exact ⟨place,g,⟨hg.handle,hg.fits,hg.covers,hg.ours,hg.owed⟩,hs _ rfl⟩
  | begin hleg =>
    cases hleg
    obtain ⟨place,g,hg,hsettled,hstage⟩ := hx
    obtain rfl := hg.handle
    exact ⟨place,g,⟨rfl,hg.fits,hg.covers,hg.ours,hg.owed⟩,Code.safe_ofStage hg.fits hsettled hstage⟩
  | work hleg =>
    cases hleg
    obtain ⟨place,g,hg,hs⟩ := hx
    rename_i code
    obtain ⟨g',hg',hs'⟩ := hg.step hs (results ++ code.captures) fun f hf => by
      rw [List.flatMap_append] at hf
      exact List.mem_append.mp hf
    exact ⟨place,g',hg',hs'⟩
  | exit hleg e =>
    cases hleg
    obtain ⟨place,g,hg,hsettled,hstage⟩ := hx
    exact ⟨place,g,⟨hg.handle,hg.fits,hg.covers,hg.ours,hg.owed⟩,hsettled,carries_afterExit hstage e⟩
  | judge hleg hjudge =>
    cases hleg
    obtain ⟨place,g,hg,hsettled,hstage⟩ := hx
    obtain ⟨rfl,hnext⟩ := carries_judging hstage hjudge
    exact ⟨place,g,⟨hg.handle,hg.fits,hg.covers,hg.ours,hg.owed⟩,hsettled,hnext⟩
  | announce hleg =>
    cases hleg
    rename_i h status
    obtain ⟨place,g,hg,hsettled,_⟩ := hx
    have hkeeps : w.KeepsHandle place.handle (w.changeStatus h status) := .setHandle rfl rfl rfl rfl rfl
    exact ⟨place,g,⟨hg.handle,hg.fits.keepsHandle rfl hkeeps,hg.covers,hg.ours,hg.owed⟩,hsettled,trivial⟩

theorem sound_of_run (hstart : Sound r arguments x)
    (hrun : Relation.ReflTransGen (Step lib p r routine arguments) x y) : Sound r arguments y := by
  induction hrun with
  | refl => exact hstart
  | tail _ hstep ih => exact hstep.sound ih

/-- Objects in hand can be given away as arguments. -/
theorem entered_start {e : GlobalState} (he : e.Accounted) {rest : List Stored}
    (hobjects : e.objects.Perm (arguments ++ rest)) (hp : p < e.world.pools.size) :
    Entered (U := U) (N := N) (e.world.pool p).registry arguments (start e.world arguments) := by
  have hbalanced := he.world.balanced
  have hsplit : (e.objects.map Stored.shares).sum =
      shares (arguments.flatMap Stored.handles) + (rest.map Stored.shares).sum := by
    rw [(hobjects.map Stored.shares).sum_eq, List.map_append, List.sum_append,
      TableHandle.shares_flatMap]
  have hin : shares (arguments.flatMap Stored.handles) ≤ e.world.shares + e.shares := by
    rw [GlobalState.shares, hsplit, add_assoc]
    exact (Multiset.le_add_right _ _).trans (Multiset.le_add_left _ _)
  have hgiven : ∀ x ∈ shares (arguments.flatMap Stored.handles),
      x ∈ e.world.store.filed + (e.world.shares + e.shares) :=
    fun x hx => Multiset.mem_add.mpr (.inr (Multiset.mem_of_le hin hx))
  have hdistinct := Multiset.nodup_add.mp hbalanced.nodup
  have hpool : e.world.pools[p]? = some (e.world.pool p) := by simp [World.pool, hp]
  refine ⟨⟨hbalanced.sound,fun x hx => ⟨(hbalanced.exact x).mpr (hgiven x hx),hx⟩,
    fun x hx => hbalanced.given x (hgiven x hx),fun x hx => ⟨fun hmem => ?_,?_⟩,fun x hx n hn => ?_⟩,
    he.world.pools p _ hpool,Multiset.nodup_of_le hin hdistinct.2.1,rfl⟩
  · exact Multiset.disjoint_left.mp hdistinct.2.2 hx (Multiset.mem_of_le hin hmem)
  · exact hbalanced.given x (Multiset.mem_add.mpr (.inl hx))
  · obtain ⟨m,hm⟩ := TableHandle.holder_of_mem_shares hx
    exact Holder.noConfusion (hm.symm.trans hn)

theorem Entered.alive (hx : Entered r arguments x) {f : TableHandle}
    (hf : f ∈ owed arguments x.results) :
    x.world.store.isAlive f.registry f.entry = true := by
  rw [owed, hx.results, List.flatMap_nil, List.append_nil, List.mem_filter] at hf
  exact (hx.registersHeld.held _ (TableHandle.mem_shares.mpr ⟨f,hf.1,hf.2,rfl⟩)).1.isAlive

theorem HasHoldings.alive {h : WorkerId} {place : HandlePlace} {g : Holdings}
    (hg : HasHoldings arguments x h place g) {f : TableHandle}
    (hf : f ∈ Handover.owed arguments x.results ∨ f ∈ (x.world.handle h).result.flatMap Stored.handles) :
    x.world.store.isAlive f.registry f.entry = true := by
  rcases hf with hf | hf
  · exact hg.fits.alive (hg.covers f (hg.owed hf))
  · rw [← hg.handle] at hf
    obtain ⟨f',hf',hregistry,hentry⟩ := (hg.fits.inWorld.result f hf).2
    rw [← hregistry, ← hentry]
    exact hg.fits.alive (hg.covers f' hf')

theorem Sound.alive (hx : Sound r arguments x) (hleg : x.leg ≠ .ended) {f : TableHandle}
    (hf : f ∈ owed arguments x.results) : x.world.store.isAlive f.registry f.entry = true := by
  obtain ⟨w,leg,ours,results⟩ := x
  cases leg with
  | called => exact Entered.alive hx hf
  | numbered n => exact hx.1.alive hf
  | adopting h code | working h code =>
    obtain ⟨place,g,hg,_⟩ := hx
    exact hg.alive (.inl hf)
  | ended => exact absurd rfl hleg

theorem Sound.alive_published (hx : Sound r arguments x) {h : WorkerId}
    (hh : x.leg.handle? = some h) {f : TableHandle}
    (hf : f ∈ (x.world.handle h).result.flatMap Stored.handles) :
    x.world.store.isAlive f.registry f.entry = true := by
  obtain ⟨w,leg,ours,results⟩ := x
  cases leg with
  | adopting i code | working i code =>
    cases hh
    obtain ⟨place,g,hg,_⟩ := hx
    exact hg.alive (.inr hf)
  | called | numbered | ended => cases hh

/-- Handing over frees nothing.  Whatever world has come about, whichever objects in hand are given away
as arguments, and however the calls of the hand-over and those of others take turns: until the handle is
dropped, every entry that a strong argument names is alive, and so is every entry that a result names,
from its capture on and when it is published. -/
theorem handover_never_frees {e : GlobalState} (he : e.Arises lib) {rest : List Stored}
    (hobjects : e.objects.Perm (arguments ++ rest)) (hp : p < e.world.pools.size)
    (hrun : Relation.ReflTransGen (Step lib p (e.world.pool p).registry routine arguments)
      (start e.world arguments) x)
    (hleg : x.leg ≠ .ended) :
    (∀ f, Stored.shared f ∈ arguments → f.strong = true →
      x.world.store.isAlive f.registry f.entry = true) ∧
      (∀ f, Stored.shared f ∈ x.results → x.world.store.isAlive f.registry f.entry = true) ∧
      ∀ h, x.leg.handle? = some h → ∀ f, Stored.shared f ∈ (x.world.handle h).result →
        x.world.store.isAlive f.registry f.entry = true := by
  have hsound : Sound (e.world.pool p).registry arguments x :=
    sound_of_run (x := start e.world arguments) (entered_start he.accounted hobjects hp) hrun
  have hnames : ∀ {f : TableHandle} {objects : List Stored}, Stored.shared f ∈ objects →
      f ∈ objects.flatMap Stored.handles :=
    fun hin => List.mem_flatMap.mpr ⟨_,hin,List.mem_singleton.mpr rfl⟩
  refine ⟨fun f hf hstrong => ?_,fun f hf => ?_,fun h hh f hf => hsound.alive_published hh (hnames hf)⟩
  · exact hsound.alive hleg (List.mem_append_left _ (List.mem_filter.mpr ⟨hnames hf,hstrong⟩))
  · exact hsound.alive hleg (List.mem_append_right _ (hnames hf))

def twice : GlobalState := GlobalState.run [.newPool,.create 0 [],.copy]

/-- One of the handles is given away.  The other one goes before the spawn takes it, and the worker
returns the table. -/
theorem captures_twice : ∃ x : Handover Unit Unit,
    Relation.ReflTransGen (Step GlobalState.unloadable 0 0 ⟨"",0⟩ (twice.objects.take 1))
      (start twice.world (twice.objects.take 1)) x ∧
    x.leg.handle? = some 0 ∧ x.results = [.shared ⟨⟨0,0⟩,5,0,true⟩] := by
  have hother : (Request.release ⟨0,0⟩ (.store 1)).Apart
      { y | y ∈ shares ((twice.objects.take 1).flatMap Stored.handles) } twice.world.store 0 := by
    change (⟨0,⟨0,0⟩,.store 1⟩ : Share) ∉ shares ((twice.objects.take 1).flatMap Stored.handles)
    decide
  refine ⟨_,.head (.other (.request hother)) <| .head (.number rfl) <| .head (.raise rfl) <|
    .head (.adopt rfl) <| .head (.adopt rfl) <| .head (.adopt rfl) <| .head (.launch rfl) <|
    .head (.begin rfl) <| .head (.work rfl) <| .head (.work rfl) <| .head (.work rfl) <|
    .head (.work rfl) <|
    .head (.exit rfl (.ended (.ok [.shared ⟨0,0⟩]) [])) <|
    .head (.begin rfl) <| .head (.work rfl) <| .head (.work rfl) <| .single (.work rfl),rfl,?_⟩
  cbv

theorem handover_never_frees_twice : ∃ x : Handover Unit Unit,
    (x.leg.handle? = some 0 ∧ x.results = [.shared ⟨⟨0,0⟩,5,0,true⟩]) ∧
    (∀ f, Stored.shared f ∈ twice.objects.take 1 → f.strong = true →
      x.world.store.isAlive f.registry f.entry = true) ∧
      (∀ f, Stored.shared f ∈ x.results → x.world.store.isAlive f.registry f.entry = true) ∧
      ∀ h, x.leg.handle? = some h → ∀ f, Stored.shared f ∈ (x.world.handle h).result →
        x.world.store.isAlive f.registry f.entry = true := by
  obtain ⟨x,hrun,hleg,hresults⟩ := captures_twice
  have hobjects : twice.objects.Perm (twice.objects.take 1 ++ twice.objects.drop 1) := by
    rw [List.take_append_drop]
  have hended : x.leg ≠ .ended := by
    intro hended
    rw [hended] at hleg
    cases hleg
  exact ⟨x,⟨hleg,hresults⟩,
    handover_never_frees (GlobalState.arises_run GlobalState.unloadable _) hobjects
    (by decide) hrun hended⟩

end Handover

end Workers
