import Workers.Errand
import Workers.Proofs.Capture.Keeps
import Workers.Proofs.Handover.Holdings
import Workers.Proofs.Handover.Programs
/-! # Questions of controllers

A controller asks a worker for its status or for its results, at once or after a wait for the end.
It looks at the control under one lock, takes the results under another, and copies each of them with
two calls on the registry.  With nobody in between, this is what the world reports.
-/
namespace Workers

inductive Topic where
  | status
  | results
  deriving DecidableEq

def Topic.moment : Topic → Status
  | status => .failed
  | results => .completed

/-- A question, from one lock to the next. -/
inductive Inquiry where
  /-- Waits for the end of the worker, up to a deadline if there is one. -/
  | waiting (topic : Topic) (deadline : Option Nat)
  | looking (topic : Topic)
  | taking (topic : Topic)
  | copying (topic : Topic) (code : Code (List Stored))
  | told (topic : Topic) (answer : List Stored)

namespace Code

def copyObject : Stored → Code Stored
  | .shared h => (copy h).bind fun h => .done (.shared h)
  | object => .done object

def copyAll : List Stored → Code (List Stored)
  | [] => .done []
  | object :: rest =>
    (copyObject object).bind fun object => (copyAll rest).bind fun rest => .done (object :: rest)

theorem run_copyObject (w : World) (object : Stored) :
    (copyObject object).run w = ((object.copy w.store).1,w.setStore (object.copy w.store).2) := by
  cases object with
  | shared h =>
    simp only [copyObject, run_bind, run_copy, Stored.copy]
    rfl
  | nil | boolean | integer | float | string | function => rfl

theorem run_copyAll (w : World) (objects : List Stored) : (copyAll objects).run w =
    ((Stored.copyAll w.store objects).1,w.setStore (Stored.copyAll w.store objects).2) := by
  induction objects generalizing w with
  | nil => rfl
  | cons object rest ih =>
    simp only [copyAll, run_bind, run_copyObject, ih, World.store_setStore, World.setStore_setStore]
    rfl

end Code

namespace Inquiry

def expired : Topic → Inquiry
  | .status => .looking .status
  | .results => .told .results []

/-- Takes the next lock; none while the end is waited for, and once the question is answered. -/
def step (h : WorkerId) (w : World) : Inquiry → Option (Inquiry × World)
  | .waiting topic deadline =>
    if w.isLatched (.completion h) then some (.looking topic,w)
    else if deadline.any (· ≤ w.clock) then some (expired topic,w)
    else none
  | .looking .status =>
    if w.status h = .failed then some (.taking .status,w)
      else some (.told .status [.string (w.status h).name],w)
  | .looking .results =>
    if w.status h = .completed then some (.taking .results,w) else some (.told .results [],w)
  | .taking topic => some (.copying topic (Code.copyAll (w.handle h).result),w)
  | .copying topic (.done answer) => some (.told topic answer,w)
  | .copying topic code => some (.copying topic (code.step w).1,(code.step w).2)
  | .told .. => none

def Goes (h : WorkerId) : Inquiry × World → Inquiry × World → Prop := fun x y => x.1.step h x.2 = some y

variable {h : WorkerId} {w : World}

theorem goes_awaited (hlatched : w.isLatched (.completion h) = true) (topic : Topic)
    (deadline : Option Nat) :
    Goes h (.waiting topic deadline,w) (.looking topic,w) := if_pos hlatched

theorem step_copying (topic : Topic) {code : Code (List Stored)}
    (hcode : ∀ answer, code ≠ .done answer) :
    (copying topic code).step h w = some (.copying topic (code.step w).1,(code.step w).2) := by
  cases code with
  | done answer => exact absurd rfl (hcode answer)
  | number | create | addReference | drop | secure | load | close | take | publish | captured => rfl

theorem copying_goes (topic : Topic) {x y : Code (List Stored) × World}
    (hgoes : Relation.ReflTransGen Code.Goes x y) :
    Relation.ReflTransGen (Goes h) (.copying topic x.1,x.2) (.copying topic y.1,y.2) := by
  induction hgoes with
  | refl => exact .refl
  | @tail y z _ hstep ih =>
    obtain rfl := hstep
    obtain ⟨code,w⟩ := y
    by_cases hdone : ∃ answer, code = .done answer
    · obtain ⟨answer,rfl⟩ := hdone
      exact ih
    · exact ih.tail (step_copying topic fun answer heq => hdone ⟨answer,heq⟩)

theorem taking_goes (topic : Topic) (w : World) : Relation.ReflTransGen (Goes h) (.taking topic,w)
    (.told topic (w.copyResult h).1,(w.copyResult h).2) := by
  have hcopies := copying_goes (h := h) topic (Code.goes (Code.copyAll (w.handle h).result) w)
  rw [Code.run_copyAll] at hcopies
  have htake : Goes h (.taking topic,w) (.copying topic (Code.copyAll (w.handle h).result),w) := rfl
  exact (Relation.ReflTransGen.head htake hcopies).tail rfl

/-- Asked at once and left alone, the question for the status is answered by the report of the world. -/
theorem goes_report (h : WorkerId) (w : World) : Relation.ReflTransGen (Goes h) (.looking .status,w)
    (.told .status (w.report h).1,(w.report h).2) := by
  by_cases hfailed : w.status h = .failed
  · have hreport : w.report h = w.copyResult h := by simp only [World.report, hfailed]
    rw [hreport]
    exact .head (if_pos hfailed) (taking_goes .status w)
  · have hreport : w.report h = ([.string (w.status h).name],w) := by
      unfold World.report
      split
      · rename_i hf
        exact absurd hf hfailed
      · rfl
    rw [hreport]
    exact .single (if_neg hfailed)

theorem goes_completedResult (h : WorkerId) (w : World) :
    Relation.ReflTransGen (Goes h) (.looking .results,w)
    (.told .results (w.completedResult h).1,(w.completedResult h).2) := by
  unfold World.completedResult
  split
  · rename_i hcompleted
    exact .head (if_pos hcompleted) (taking_goes .results w)
  · rename_i hnot
    exact .single (if_neg hnot)

end Inquiry

inductive Stored.CopiedAs : Stored → Stored → Prop
  | plain {object : Stored} (hplain : object.handles = []) : CopiedAs object object
  | shared (f : TableHandle) (number : Nat) :
      CopiedAs (.shared f) (.shared { f with number, strong := true })

namespace Code

variable {α β : Type} {code : Code α} {sure : RegistryId → EntryId → Prop} {Q Q' : α → Prop} {w : World}

def Clones (sure : RegistryId → EntryId → Prop) : Code α → (α → Prop) → Prop
  | .done a, Q => Q a
  | .number _ k, Q => ∀ n, (k n).Clones sure Q
  | .addReference r id _ k, Q =>
    (k (.ok ())).Clones sure Q ∧ (¬ sure r id → ∀ fault, (k (.error fault)).Clones sure Q)
  | _, _ => False

theorem Clones.imp (h : code.Clones sure Q) (hQ : ∀ a, Q a → Q' a) : code.Clones sure Q' := by
  induction code with
  | done a => exact hQ a h
  | number r k ih => exact fun n => ih n (h n)
  | addReference r id holder k ih => exact ⟨ih _ h.1,fun hsure fault => ih _ (h.2 hsure fault)⟩
  | create | drop | secure | load | close | take | publish | captured => exact h.elim

theorem clones_bind {f : α → Code β} {Q : β → Prop} (h : code.Clones sure fun a => (f a).Clones sure Q) :
    (code.bind f).Clones sure Q := by
  induction code with
  | done a => exact h
  | number r k ih => exact fun n => ih n (h n)
  | addReference r id holder k ih => exact ⟨ih _ h.1,fun hsure fault => ih _ (h.2 hsure fault)⟩
  | create | drop | secure | load | close | take | publish | captured => exact h.elim

theorem clones_copyObject {object : Stored} (hsure : ∀ f ∈ object.handles, sure f.registry f.entry) :
    (copyObject object).Clones sure object.CopiedAs := by
  cases object with
  | shared f =>
    have hf := hsure f (List.mem_singleton.mpr rfl)
    exact clones_bind fun n => ⟨.shared f n,fun hnot => absurd hf hnot⟩
  | nil | boolean | integer | float | string | function => exact .plain rfl

theorem clones_copyAll {objects : List Stored}
    (hsure : ∀ f ∈ objects.flatMap Stored.handles, sure f.registry f.entry) :
    (copyAll objects).Clones sure (List.Forall₂ Stored.CopiedAs objects) := by
  induction objects with
  | nil => exact .nil
  | cons object rest ih =>
    rw [List.flatMap_cons] at hsure
    refine clones_bind ((clones_copyObject fun f hf => hsure f (List.mem_append_left _ hf)).imp
      fun copy hcopy => ?_)
    refine clones_bind ((ih fun f hf => hsure f (List.mem_append_right _ hf)).imp
      fun copies hcopies => ?_)
    exact .cons hcopy hcopies

/-- A step of copying is a call that others may make, and writes to the store alone. -/
theorem Clones.step (h : code.Clones sure Q)
    (hsure : ∀ r id, sure r id → w.store.isAlive r id = true) (ours : Set Share)
    (h? : Option WorkerId) :
    (code.step w).1.Clones sure Q ∧ w.OtherStep ours h? (code.step w).2 ∧
    ∃ s, (code.step w).2 = w.setStore s := by
  cases code with
  | done a => exact ⟨h,.elsewhere rfl fun i _ => .of_eq rfl rfl,w.store,rfl⟩
  | number r k => exact ⟨h _,.number r,_,rfl⟩
  | addReference r id holder k =>
    simp only [Code.step]
    split
    · rename_i t ht
      have hserved : (w.store.frees r (.addReference id holder)).2 =
        t := by simp only [Store.frees, Store.serve, ht]
      have happart : (Request.addReference id holder).Apart ours w.store r := trivial
      exact ⟨h.1,hserved ▸ .request happart,t,rfl⟩
    · rename_i fault ht
      have hnot : ¬ sure r id := by
        intro hs
        obtain ⟨t,ht'⟩ := Store.addReference_of_alive (hsure r id hs) holder
        rw [ht] at ht'
        cases ht'
      exact ⟨h.2 hnot fault,.elsewhere rfl fun i _ => .of_eq rfl rfl,w.store,rfl⟩
  | create | drop | secure | load | close | take | publish | captured => exact h.elim

end Code

end Workers
