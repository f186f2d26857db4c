import Mathlib.Logic.Function.Basic
import Mathlib.Logic.Relation
import Workers.Errand
/-! # A notifier under its mutex

A notifier is a latch that is guarded by a mutex, with a condition variable on which the threads
that wait for it sleep.  Here its operations are cut at every point at which another thread may act:
a step of a thread is one instruction, sleepers wake up whenever they like, and time passes in
between.  Run without interruption, an operation does to the latch what it does in one piece, and a
wait that looks decides what one look decides.
-/
namespace Workers

namespace Notifier

def look (n : Notifier) (deadline : Option Nat) (now : Nat) : Option Bool :=
  if n.latched then some true else if deadline.any (· ≤ now) then some false else none

variable {n : Notifier} {deadline : Option Nat} {now now' : Nat} {b : Bool}

theorem look_eq_true : n.look deadline now = some true ↔ n.latched = true := by
  unfold look
  split
  · simp [*]
  · split <;> simp [*]

theorem look_eq_false :
    n.look deadline now = some false ↔ n.latched = false ∧ ∃ d, deadline = some d ∧ d ≤ now := by
  unfold look
  split
  · simp [*]
  · split <;> simp_all [Option.any_eq_true]

theorem look_of_not_latched (h : ¬ n.latched = true) (deadline : Option Nat) (now : Nat) :
    n.look deadline now = if deadline.any (· ≤ now) then some false else none := by rw [look, if_neg h]

theorem latched_of_look (h : n.look deadline now = some b) : n.latched = b := by
  cases b with
  | true => exact look_eq_true.mp h
  | false => exact (look_eq_false.mp h).1

theorem look_of_le (h : n.look deadline now = some b) (hle : now ≤ now') :
    n.look deadline now' = some b := by
  cases b with
  | true => exact look_eq_true.mpr (look_eq_true.mp h)
  | false =>
    obtain ⟨hlatched,d,hd,hdue⟩ := look_eq_false.mp h
    exact look_eq_false.mpr ⟨hlatched,d,hd,Nat.le_trans hdue hle⟩

end Notifier

theorem Errand.step_await (w : World) (s : Signal) (deadline : Option Nat) (rest : List Order)
    (answered : Bool) :
    Errand.step w { orders := .await s deadline :: rest, answered } =
      match Notifier.look ⟨w.isLatched s⟩ deadline w.clock with
      | some answered => .ran { orders := rest, answered } w
      | none => .blocked deadline := by
  cases hlatched : w.isLatched s with
  | true => simp only [step, Notifier.look, hlatched, if_true]
  | false =>
    cases hdue : deadline.any (· ≤ w.clock) <;>
      simp only [step, Notifier.look, hlatched, hdue, Bool.false_eq_true, if_true, if_false]

theorem Strand.step_waiting {U N : Type} (lib : Library U N) (c : ContextId) (w : World)
    (n : NotifierId) (deadline : Nat) (role : Role (Frame U N)) (k : Bool → Act role.Report)
    (callers : List (Caller (Frame U N))) :
    Strand.step lib c w { phase := .waiting n deadline role k, callers } =
      match Notifier.look ⟨w.isNotified n⟩ (some deadline) w.clock with
      | some answered => .ran { phase := .acting role (k answered), callers } w
      | none => .blocked (some deadline) := by
  cases hlatched : w.isNotified n with
  | true => simp only [step, Notifier.look, hlatched, if_true]
  | false =>
    by_cases hdue : deadline ≤ w.clock <;>
      simp [step, Notifier.look, hlatched, hdue]

namespace Monitor

structure Wait where
  timeout : Option Nat
  began : Nat

def Wait.deadline (last : Nat) (w : Wait) : Option Nat :=
  w.timeout.bind fun timeout => if w.began + timeout ≤ last then some (w.began + timeout) else none

def Wait.isDue (last : Nat) (w : Wait) (now : Nat) : Bool := (w.deadline last).any (· ≤ now)

inductive Call where
  | notify
  | reset
  | isNotified
  | wait (timeout : Option Nat)

inductive Answer where
  | done
  | told (latched : Bool)
  | waited (w : Wait) (signalled : Bool)

inductive Point where
  | outside
  /-- Takes the mutex. -/
  | entering (call : Call)
  | begun (call : Call)
  /-- Wakes all that are asleep. -/
  | notifying
  /-- Looks at the latch. -/
  | looking (w : Wait)
  /-- Looks at the clock. -/
  | measuring (w : Wait)
  /-- Gives up the mutex and goes to sleep, in one step. -/
  | parking (w : Wait)
  | asleep (w : Wait)
  /-- Takes the mutex again. -/
  | woken (w : Wait)
  /-- Has left the loop of the wait. -/
  | answering (w : Wait)
  /-- Gives up the mutex and returns. -/
  | leaving (answer : Answer)

def Point.inside : Point → Bool
  | .outside | .entering _ | .asleep _ | .woken _ => false
  | .begun _ | .notifying | .looking _ | .measuring _ | .parking _ | .answering _ | .leaving _ => true

def Point.wake : Point → Point
  | .asleep w => .woken w
  | p => p

end Monitor

structure Monitor (ι : Type) where
  notifier : Notifier := {}
  holder : Option ι := none
  now : Nat := 0
  point : ι → Monitor.Point := fun _ => .outside

namespace Monitor

variable {ι : Type}

def set (m : Monitor ι) (notifier : Notifier) : Monitor ι := { m with notifier }

def wakeAll (m : Monitor ι) : Monitor ι := { m with point := fun i => (m.point i).wake }

variable [DecidableEq ι]

def goto (m : Monitor ι) (i : ι) (p : Point) : Monitor ι :=
  { m with point := Function.update m.point i p }

def withMutex (m : Monitor ι) (i : ι) (p : Point) : Monitor ι := { m.goto i p with holder := some i }

def release (m : Monitor ι) (i : ι) (p : Point) : Monitor ι := { m.goto i p with holder := none }

def lock (m : Monitor ι) (i : ι) (p : Point) : Option (Monitor ι) :=
  match m.holder with
  | none => some (m.withMutex i p)
  | some _ => none

def advance (last : Nat) (m : Monitor ι) (i : ι) : Option (Monitor ι) :=
  match m.point i with
  | .outside | .asleep _ => none
  | .entering call => m.lock i (.begun call)
  | .begun .notify => some ((m.set m.notifier.notify).goto i .notifying)
  | .notifying => some (m.wakeAll.goto i (.leaving .done))
  | .begun .reset => some ((m.set m.notifier.reset).goto i (.leaving .done))
  | .begun .isNotified => some (m.goto i (.leaving (.told m.notifier.latched)))
  | .begun (.wait timeout) => some (m.goto i (.looking ⟨timeout,m.now⟩))
  | .looking w =>
    if m.notifier.latched then some (m.goto i (.answering w))
    else if w.timeout.isNone then some (m.goto i (.parking w))
    else some (m.goto i (.measuring w))
  | .measuring w =>
    if w.isDue last m.now then some (m.goto i (.answering w)) else some (m.goto i (.parking w))
  | .parking w => some (m.release i (.asleep w))
  | .woken w => m.lock i (.looking w)
  | .answering w => some (m.goto i (.leaving (.waited w (w.timeout.isNone || m.notifier.latched))))
  | .leaving _ => some (m.release i .outside)

inductive Event (ι : Type) where
  /-- A thread calls an operation. -/
  | call (i : ι) (call : Call)
  | advance (i : ι)
  /-- A sleeper wakes up of itself, since its time is up or for no reason. -/
  | wake (i : ι)
  | elapse (time : Nat)

def move (last : Nat) (m : Monitor ι) : Event ι → Option (Monitor ι)
  | .call i call =>
    match m.point i with
    | .outside => some (m.goto i (.entering call))
    | _ => none
  | .advance i => m.advance last i
  | .wake i =>
    match m.point i with
    | .asleep w => some (m.goto i (.woken w))
    | _ => none
  | .elapse time => some { m with now := m.now + time }

def Reachable (last : Nat) (m : Monitor ι) : Prop :=
  Relation.ReflTransGen (fun m m' => ∃ event, m.move last event = some m') {} m

def Returns (last : Nat) (m : Monitor ι) (i : ι) (answer : Answer) (m' : Monitor ι) : Prop :=
  m.point i = .leaving answer ∧ m.advance last i = some m'

variable {m m' : Monitor ι} {i j : ι} {p q : Point} {w : Wait} {last : Nat}

@[simp] theorem point_goto_self (m : Monitor ι) (i : ι) (p : Point) : (m.goto i p).point i = p :=
  Function.update_self ..

theorem point_goto_of_ne (h : j ≠ i) : (m.goto i p).point j = m.point j := Function.update_of_ne h ..

@[simp] theorem point_withMutex_self (m : Monitor ι) (i : ι) (p : Point) :
    (m.withMutex i p).point i = p := point_goto_self m i p

@[simp] theorem notifier_withMutex (m : Monitor ι) (i : ι) (p : Point) :
    (m.withMutex i p).notifier = m.notifier := rfl

@[simp] theorem now_withMutex (m : Monitor ι) (i : ι) (p : Point) : (m.withMutex i p).now = m.now := rfl

@[simp] theorem goto_withMutex (m : Monitor ι) (i : ι) (p q : Point) :
    (m.withMutex i p).goto i q = m.withMutex i q := by
  simp [withMutex, goto]

@[simp] theorem release_withMutex (m : Monitor ι) (i : ι) (p q : Point) :
    (m.withMutex i p).release i q = m.release i q := by
  simp [withMutex, release, goto]

@[simp] theorem set_withMutex (m : Monitor ι) (i : ι) (p : Point) (n : Notifier) :
    (m.withMutex i p).set n = (m.set n).withMutex i p := rfl

@[simp] theorem wakeAll_withMutex (m : Monitor ι) (i : ι) (p : Point) :
    (m.withMutex i p).wakeAll = m.wakeAll.withMutex i p.wake := by
  have hpoint := Function.comp_update Point.wake m.point i p
  simpa [wakeAll, withMutex, goto, Function.comp_def] using hpoint

theorem release_of_free (h : m.holder = none) (i : ι) (p : Point) : m.release i p = m.goto i p := by
  simp [release, goto, h]

theorem lock_of_free (h : m.holder = none) (i : ι) (p : Point) :
    m.lock i p = some (m.withMutex i p) := by
  simp only [lock, h]

def Alone (last : Nat) (i : ι) : Monitor ι → Monitor ι → Prop :=
  Relation.ReflTransGen fun m m' => m.advance last i = some m'

theorem Alone.enter {call : Call} (hfree : m.holder = none) (hp : m.point i = .entering call)
    (h : Alone last i (m.withMutex i (.begun call)) m') : Alone last i m m' :=
  .head (by simp only [advance, hp, lock_of_free hfree]) h

theorem advance_leaving (last : Nat) (m : Monitor ι) (i : ι) (answer : Answer) :
    (m.withMutex i (.leaving answer)).advance last i = some (m.release i .outside) := by
  simp [advance]

/-- A notification that nothing comes between sets the latch and wakes the sleepers. -/
theorem alone_notify (hfree : m.holder = none) (hp : m.point i = .entering .notify) :
    Alone last i m ((m.set m.notifier.notify).wakeAll.goto i .outside) := by
  have hset : (m.withMutex i (.begun .notify)).advance last i = some
      ((m.set m.notifier.notify).withMutex i .notifying) := by
    simp [advance]
  have hwake : ((m.set m.notifier.notify).withMutex i .notifying).advance last i =
      some ((m.set m.notifier.notify).wakeAll.withMutex i (.leaving .done)) := by
    simp [advance]
  have hleave := advance_leaving last (m.set m.notifier.notify).wakeAll i .done
  rw [release_of_free (by exact hfree)] at hleave
  exact .enter hfree hp (.head hset (.head hwake (.single hleave)))

theorem alone_reset (hfree : m.holder = none) (hp : m.point i = .entering .reset) :
    Alone last i m ((m.set m.notifier.reset).goto i .outside) := by
  have hset : (m.withMutex i (.begun .reset)).advance last i = some
      ((m.set m.notifier.reset).withMutex i (.leaving .done)) := by
    simp [advance]
  have hleave := advance_leaving last (m.set m.notifier.reset) i .done
  rw [release_of_free (by exact hfree)] at hleave
  exact .enter hfree hp (.head hset (.single hleave))

theorem alone_isNotified (hfree : m.holder = none) (hp : m.point i = .entering .isNotified) :
    Alone last i m (m.withMutex i (.leaving (.told m.notifier.latched))) :=
  .enter hfree hp (.single (by simp [advance]))

def looked (last : Nat) (m : Monitor ι) (i : ι) (w : Wait) : Monitor ι :=
  match m.notifier.look (w.deadline last) m.now with
  | some signalled => m.withMutex i (.leaving (.waited w signalled))
  | none => m.release i (.asleep w)

theorem Wait.deadline_eq_some {d : Nat} :
    w.deadline last = some d ↔ ∃ timeout, w.timeout = some timeout ∧ w.began + timeout = d ∧
    d ≤ last := by
  simp only [deadline, Option.bind_eq_some_iff]
  refine exists_congr fun timeout => and_congr_right fun _ => ?_
  split <;> simp <;> omega

theorem Wait.deadline_of_isNone (h : w.timeout.isNone = true) : w.deadline last = none := by
  rw [deadline, Option.isNone_iff_eq_none.mp h]
  rfl

theorem alone_answering (last : Nat) (m : Monitor ι) (i : ι) (w : Wait) :
    Alone last i (m.withMutex i (.answering w))
    (m.withMutex i (.leaving (.waited w (w.timeout.isNone || m.notifier.latched)))) :=
  .single (by simp [advance])

theorem alone_parking (m : Monitor ι) (i : ι) (w : Wait) :
    Alone last i (m.withMutex i (.parking w)) (m.release i (.asleep w)) :=
  .single (by simp [advance])

/-- A wait decides what one look decides, or goes to sleep. -/
theorem alone_looking (m : Monitor ι) (i : ι) (w : Wait) :
    Alone last i (m.withMutex i (.looking w)) (m.looked last i w) := by
  have hanswer := alone_answering last m i w
  by_cases hlatched : m.notifier.latched = true
  · rw [hlatched, Bool.or_true] at hanswer
    simp only [looked, Notifier.look_eq_true.mpr hlatched]
    exact .head (by simp [advance, hlatched]) hanswer
  have hlook := Notifier.look_of_not_latched hlatched (w.deadline last) m.now
  by_cases htimeout : w.timeout.isNone = true
  · rw [Wait.deadline_of_isNone htimeout, Option.any_none, if_neg Bool.false_ne_true] at hlook
    rw [looked, Wait.deadline_of_isNone htimeout]
    simp only [hlook]
    exact .head (by simp [advance, hlatched, htimeout]) (alone_parking m i w)
  refine .head (b := m.withMutex i (.measuring w)) (by simp [advance, hlatched, htimeout]) ?_
  by_cases hdue : w.isDue last m.now = true
  · simp only [looked, hlook.trans (if_pos hdue)]
    rw [Bool.not_eq_true] at hlatched htimeout
    rw [hlatched, htimeout, Bool.or_false] at hanswer
    exact .head (by simp [advance, hdue]) hanswer
  · simp only [looked, hlook.trans (if_neg hdue)]
    exact .head (by simp [advance, hdue]) (alone_parking m i w)

theorem alone_wait {timeout : Option Nat} (hfree : m.holder = none)
    (hp : m.point i = .entering (.wait timeout)) :
    Alone last i m (m.looked last i ⟨timeout,m.now⟩) :=
  .enter hfree hp (.head (by simp [advance]) (alone_looking m i ⟨timeout,m.now⟩))

theorem alone_woken (hfree : m.holder = none) (hp : m.point i = .woken w) :
    Alone last i m (m.looked last i w) :=
  .head (by simp only [advance, hp, lock_of_free hfree]) (alone_looking m i w)

end Monitor

end Workers
