import Workers.Proofs.Notifier.Monitor
/-! # Sleepers under a latch

Whoever goes to sleep has seen the latch unset and still has the mutex, and whoever sets it has all
sleepers woken before the mutex is free again.  So nobody is asleep while the latch is set and the
mutex is free, and since the latch stays as it is from the last look of a wait to its return, the
answer is what the latch then says.
-/
namespace Workers

namespace Monitor

variable {ι : Type} {m m' : Monitor ι} {i : ι} {p q : Point} {w : Wait} {last : Nat}

def Fits (last : Nat) (m : Monitor ι) : Point → Prop
  | .notifying => m.notifier.latched = true
  | .measuring _ | .parking _ => m.notifier.latched = false
  | .answering w => ∃ signalled, m.notifier.look (w.deadline last) m.now = some signalled
  | .leaving (.waited w signalled) => m.notifier.look (w.deadline last) m.now = some signalled
  | .leaving (.told latched) => m.notifier.latched = latched
  | _ => True

def Awake (m : Monitor ι) : Prop :=
  m.notifier.latched = true → ∀ i w, m.point i = .asleep w → ∃ j, m.point j = .notifying

structure Sound (last : Nat) (m : Monitor ι) : Prop where
  exclusive : ∀ i, (m.point i).inside = true ↔ m.holder = some i
  awake : m.Awake
  fits : ∀ i, m.Fits last (m.point i)

theorem fits_of_not_inside (h : ¬ p.inside = true) : m.Fits last p := by
  cases p with
  | outside | entering | asleep | woken => trivial
  | begun | notifying | looking | measuring | parking | answering | leaving => exact absurd rfl h

theorem sound_new (last : Nat) : ({} : Monitor ι).Sound last where
  exclusive _ := ⟨nofun,nofun⟩
  awake := nofun
  fits _ := trivial

@[simp] theorem Point.inside_wake (p : Point) : p.wake.inside = p.inside := by cases p <;> rfl

/-- What was decided while the clock was earlier is still so. -/
theorem Fits.elapse (h : m.Fits last p) (time : Nat) :
    ({ m with now := m.now + time } : Monitor ι).Fits last p := by
  have hle := Nat.le_add_right m.now time
  cases p with
  | answering w =>
    obtain ⟨signalled,hlook⟩ := h
    exact ⟨signalled,Notifier.look_of_le hlook hle⟩
  | leaving answer =>
    cases answer with
    | waited w signalled => exact Notifier.look_of_le h hle
    | done | told => exact h
  | outside | entering | begun | notifying | looking | measuring | parking | asleep | woken => exact h

theorem Sound.elapse (h : m.Sound last) (time : Nat) :
    ({ m with now := m.now + time } : Monitor ι).Sound last :=
  ⟨h.exclusive,h.awake,fun i => (h.fits i).elapse time⟩

structure Acts (m : Monitor ι) (i : ι) (m' : Monitor ι) : Prop where
  held : ∀ j, j ≠ i → m.holder ≠ some j
  others : ∀ j, j ≠ i → m'.point j = m.point j ∨ m'.point j = (m.point j).wake
  holder : ∀ j, m'.holder = some j ↔ j = i ∧ (m'.point i).inside = true

/-- The threads that do not have the mutex know nothing that could change. -/
theorem Sound.acts (h : m.Sound last) (hacts : m.Acts i m') (hawake : m'.Awake)
    (hfits : m'.Fits last (m'.point i)) :
    m'.Sound last := by
  have houtside : ∀ j, j ≠ i → ¬ (m'.point j).inside = true := fun j hj hinside => by
    refine hacts.held j hj ((h.exclusive j).mp ?_)
    rcases hacts.others j hj with hsame | hwoken
    · rwa [← hsame]
    · rwa [hwoken, Point.inside_wake] at hinside
  refine ⟨fun j => ?_,hawake,fun j => ?_⟩
  · rw [hacts.holder]
    by_cases hj : j = i
    · simp [hj]
    · simp [hj, houtside j hj]
  · by_cases hj : j = i
    · rwa [hj]
    · exact fits_of_not_inside (houtside j hj)

theorem Sound.held (h : m.Sound last) (hi : (m.point i).inside = true) (j : ι) (hj : j ≠ i) :
    m.holder ≠ some j := by
  rw [(h.exclusive i).mp hi]
  exact fun heq => hj (Option.some.inj heq).symm

/-- What a wait answers when it has left its loop is what the look has decided. -/
theorem signalled_of_look {signalled : Bool}
    (h : m.notifier.look (w.deadline last) m.now = some signalled) :
    (w.timeout.isNone || m.notifier.latched) = signalled := by
  rw [Notifier.latched_of_look h]
  cases signalled with
  | true => exact Bool.or_true _
  | false =>
    obtain ⟨_,d,hd,_⟩ := Notifier.look_eq_false.mp h
    rw [Bool.or_false, Bool.eq_false_iff]
    intro htimeout
    rw [Wait.deadline_of_isNone htimeout] at hd
    cases hd

/-- While the latch is set and the mutex is free, nobody is asleep. -/
theorem Sound.not_asleep (h : m.Sound last) (hlatched : m.notifier.latched = true)
    (hfree : m.holder = none) (i : ι) (w : Wait) : m.point i ≠ .asleep w := by
  intro hi
  obtain ⟨j,hj⟩ := h.awake hlatched i w hi
  have hholder := (h.exclusive j).mp (by simp [hj, Point.inside])
  rw [hfree] at hholder
  cases hholder

variable [DecidableEq ι]

theorem awake_goto (h : m.Awake) (hi : m.point i ≠ .notifying) (hp : ∀ w, p ≠ .asleep w) :
    (m.goto i p).Awake := by
  intro hlatched j w hj
  have hji : j ≠ i := fun heq => hp w (by rwa [heq, point_goto_self] at hj)
  rw [point_goto_of_ne hji] at hj
  obtain ⟨k,hk⟩ := h hlatched j w hj
  have hki : k ≠ i := fun heq => hi (heq ▸ hk)
  exact ⟨k,by rwa [point_goto_of_ne hki]⟩

theorem Sound.acts_goto (h : m.Sound last) (hi : (m.point i).inside = true) (hp : p.inside = true)
    (n : Notifier) :
    m.Acts i ((m.set n).goto i p) where
  held := h.held hi
  others j hj := .inl (point_goto_of_ne hj)
  holder j := by
    change m.holder = some j ↔ _
    rw [point_goto_self, (h.exclusive i).mp hi]
    simp [hp, eq_comm]

theorem acts_withMutex (hfree : m.holder = none) (hp : p.inside = true) :
    m.Acts i (m.withMutex i p) where
  held j _ := by simp [hfree]
  others j hj := .inl (point_goto_of_ne hj)
  holder j := by simp [hp, withMutex, eq_comm]

theorem Sound.acts_release (h : m.Sound last) (hi : (m.point i).inside = true) (hp : ¬ p.inside = true) :
    m.Acts i (m.release i p) where
  held := h.held hi
  others j hj := .inl (point_goto_of_ne hj)
  holder j := by simp [hp, release]

theorem Sound.acts_wakeAll (h : m.Sound last) (hi : (m.point i).inside = true) (hp : p.inside = true) :
    m.Acts i (m.wakeAll.goto i p) where
  held := h.held hi
  others j hj := .inr (point_goto_of_ne hj)
  holder j := by
    change m.holder = some j ↔ _
    rw [point_goto_self, (h.exclusive i).mp hi]
    simp [hp, eq_comm]

theorem Sound.goto (h : m.Sound last) (hq : m.point i = q) (hinside : q.inside = true)
    (hnotifying : q ≠ .notifying) (hp : p.inside = true) (hfits : m.Fits last p) :
    (m.goto i p).Sound last := by
  subst hq
  have hawake : (m.goto i p).Awake :=
    awake_goto h.awake hnotifying fun w heq => by simp [heq, Point.inside] at hp
  refine h.acts (h.acts_goto hinside hp m.notifier) hawake ?_
  rw [point_goto_self]
  exact hfits

/-- A thread that finds the mutex free takes it. -/
theorem Sound.lock (h : m.Sound last) (hq : m.point i = q) (hnotifying : q ≠ .notifying)
    (hp : p.inside = true) (hfits : m.Fits last p) (hm : m.lock i p = some m') : m'.Sound last := by
  subst hq
  unfold Monitor.lock at hm
  split at hm
  · rename_i hfree
    cases hm
    have hawake : (m.goto i p).Awake :=
      awake_goto h.awake hnotifying fun w heq => by simp [heq, Point.inside] at hp
    refine h.acts (acts_withMutex hfree hp) hawake ?_
    rw [point_withMutex_self]
    exact hfits
  · cases hm

theorem Sound.notify (h : m.Sound last) (hi : (m.point i).inside = true) :
    ((m.set m.notifier.notify).goto i .notifying).Sound last := by
  refine h.acts (h.acts_goto hi rfl _) (fun _ _ _ _ => ⟨i,point_goto_self ..⟩) ?_
  rw [point_goto_self]
  rfl

theorem Sound.reset (h : m.Sound last) (hi : (m.point i).inside = true) :
    ((m.set m.notifier.reset).goto i (.leaving .done)).Sound last := by
  refine h.acts (h.acts_goto hi rfl _) nofun ?_
  rw [point_goto_self]
  trivial

theorem Sound.wakeAll (h : m.Sound last) (hi : (m.point i).inside = true) :
    (m.wakeAll.goto i (.leaving .done)).Sound last := by
  refine h.acts (h.acts_wakeAll hi rfl) (fun _ j w hj => ?_) ?_
  · -- nobody is asleep any more
    by_cases hji : j = i
    · rw [hji, point_goto_self] at hj
      cases hj
    · rw [point_goto_of_ne hji] at hj
      change (m.point j).wake = .asleep w at hj
      cases hpoint : m.point j <;> simp [hpoint, Point.wake] at hj
  · rw [point_goto_self]
    trivial

/-- Whoever goes to sleep has seen that the latch is not set. -/
theorem Sound.park (h : m.Sound last) (hi : m.point i = .parking w) :
    (m.release i (.asleep w)).Sound last := by
  have hlatched : m.notifier.latched = false := by simpa [hi, Fits] using h.fits i
  have hawake : (m.release i (.asleep w)).Awake := fun h => absurd (h.symm.trans hlatched) nofun
  refine h.acts (h.acts_release (by simp [hi, Point.inside]) nofun) hawake ?_
  exact fits_of_not_inside (by simp [release, Point.inside])

theorem Sound.leave {answer : Answer} (h : m.Sound last) (hi : m.point i = .leaving answer) :
    (m.release i .outside).Sound last := by
  have hawake : (m.goto i .outside).Awake := awake_goto h.awake (by simp [hi]) nofun
  refine h.acts (h.acts_release (by simp [hi, Point.inside]) nofun) hawake ?_
  exact fits_of_not_inside (by simp [release, Point.inside])

/-- Every instruction of a thread keeps the order. -/
theorem Sound.advance (h : m.Sound last) (hm : m.advance last i = some m') : m'.Sound last := by
  have hfits := h.fits i
  unfold Monitor.advance at hm
  cases hp : m.point i with
  | outside | asleep =>
    simp only [hp] at hm
    cases hm
  | entering call =>
    simp only [hp] at hm
    exact h.lock (p := .begun call) hp nofun rfl trivial hm
  | woken w =>
    simp only [hp] at hm
    exact h.lock (p := .looking w) hp nofun rfl trivial hm
  | notifying =>
    simp only [hp, Option.some.injEq] at hm
    subst hm
    exact h.wakeAll (by simp [hp, Point.inside])
  | begun call =>
    have hi : (m.point i).inside = true := by simp [hp, Point.inside]
    cases call <;> simp only [hp, Option.some.injEq] at hm <;> subst hm
    case notify => exact h.notify hi
    case reset => exact h.reset hi
    case isNotified => exact h.goto hp rfl nofun rfl rfl
    case wait => exact h.goto hp rfl nofun rfl trivial
  | looking w =>
    simp only [hp] at hm
    by_cases hlatched : m.notifier.latched = true
    · rw [if_pos hlatched, Option.some.injEq] at hm
      subst hm
      exact h.goto hp rfl nofun rfl ⟨true,Notifier.look_eq_true.mpr hlatched⟩
    · -- with a timeout the clock comes first, else the thread goes straight to sleep
      rw [if_neg hlatched] at hm
      rw [Bool.not_eq_true] at hlatched
      split at hm <;> rw [Option.some.injEq] at hm <;> subst hm
      · exact h.goto hp rfl nofun rfl hlatched
      · exact h.goto hp rfl nofun rfl hlatched
  | measuring w =>
    simp only [hp] at hm hfits
    by_cases hdue : w.isDue last m.now = true
    · rw [if_pos hdue, Option.some.injEq] at hm
      subst hm
      have hlook := (Notifier.look_of_not_latched (Bool.eq_false_iff.mp hfits) _ _).trans (if_pos hdue)
      exact h.goto hp rfl nofun rfl ⟨false,hlook⟩
    · rw [if_neg hdue, Option.some.injEq] at hm
      subst hm
      exact h.goto hp rfl nofun rfl hfits
  | parking w =>
    simp only [hp, Option.some.injEq] at hm
    subst hm
    exact h.park hp
  | answering w =>
    simp only [hp, Option.some.injEq] at hm hfits
    subst hm
    obtain ⟨signalled,hlook⟩ := hfits
    refine h.goto hp rfl nofun rfl ?_
    rwa [signalled_of_look hlook]
  | leaving answer =>
    simp only [hp, Option.some.injEq] at hm
    subst hm
    exact h.leave hp

/-- A thread outside of the mutex goes somewhere else outside, and not to sleep. -/
theorem Sound.stray (h : m.Sound last) (hq : m.point i = q) (hinside : ¬ q.inside = true)
    (hp : ¬ p.inside = true) (hasleep : ∀ w, p ≠ .asleep w) : (m.goto i p).Sound last := by
  subst hq
  refine ⟨fun j => ?_,awake_goto h.awake (fun heq => hinside (heq ▸ rfl)) hasleep,fun j => ?_⟩
  · change _ ↔ m.holder = some j
    by_cases hj : j = i
    · subst hj
      rw [point_goto_self, ← h.exclusive]
      exact ⟨fun hinside' => absurd hinside' hp,fun hinside' => absurd hinside' hinside⟩
    · rw [point_goto_of_ne hj]
      exact h.exclusive j
  · by_cases hj : j = i
    · rw [hj, point_goto_self]
      exact fits_of_not_inside hp
    · rw [point_goto_of_ne hj]
      exact h.fits j

theorem Sound.move {event : Event ι} (h : m.Sound last) (hm : m.move last event = some m') :
    m'.Sound last := by
  unfold Monitor.move at hm
  cases event with
  | advance i => exact h.advance hm
  | elapse time =>
    cases hm
    exact h.elapse time
  | call i call =>
    simp only at hm
    split at hm
    · rename_i hp
      cases hm
      exact h.stray hp nofun nofun nofun
    · cases hm
  | wake i =>
    simp only at hm
    split at hm
    · rename_i w hp
      cases hm
      exact h.stray hp nofun nofun nofun
    · cases hm

theorem Reachable.sound (h : Reachable last m) : m.Sound last := by
  induction h with
  | refl => exact sound_new last
  | tail _ hstep ih =>
    obtain ⟨event,hm⟩ := hstep
    exact ih.move hm

/-- A wait answers what a look would decide as it returns. -/
theorem Sound.look_of_returns {signalled : Bool} (h : m.Sound last)
    (hreturns : m.Returns last i (.waited w signalled) m') :
    m'.notifier.look (w.deadline last) m'.now = some signalled := by
  obtain ⟨hp,hm⟩ := hreturns
  have hfits := h.fits i
  rw [hp] at hfits
  simp only [Monitor.advance, hp, Option.some.injEq] at hm
  subst hm
  exact hfits

/-- Whatever any threads do with a notifier, in any order and with any spurious wakings: while the
latch is set and the mutex is free, nobody is asleep; a wait without a timeout returns only while
the latch is set; and a wait with one answers whether the latch is set as it returns, and only
answers that it is not when its deadline has come. -/
theorem never_stranded (h : Reachable last m) :
    (m.notifier.latched = true → m.holder = none → ∀ i w, m.point i ≠ .asleep w) ∧
      ∀ i w signalled m', m.Returns last i (.waited w signalled) m' →
        (w.timeout = none → m'.notifier.latched = true ∧ signalled = true) ∧
          (signalled = true ↔ m'.notifier.latched = true) ∧
            (signalled = false → ∃ timeout, w.timeout = some timeout ∧ w.began + timeout ≤ m'.now) := by
  have hsound := h.sound
  refine ⟨hsound.not_asleep,fun i w signalled m' hreturns => ?_⟩
  have hlook := hsound.look_of_returns hreturns
  have hlatched := Notifier.latched_of_look hlook
  refine ⟨fun htimeout => ?_,by rw [hlatched],?_⟩
  · have htrue := signalled_of_look hlook
    rw [htimeout] at htrue
    exact ⟨hlatched.trans htrue.symm,htrue.symm⟩
  · rintro rfl
    obtain ⟨_,d,hd,hle⟩ := Notifier.look_eq_false.mp hlook
    obtain ⟨timeout,htimeout,rfl,_⟩ := Wait.deadline_eq_some.mp hd
    exact ⟨timeout,htimeout,hle⟩

theorem reachable_of_foldlM {events : List (Event ι)}
    (h : events.foldlM (Monitor.move last) {} = some m) :
    Reachable last m := by
  have hfold : ∀ m₀, Reachable last m₀ → events.foldlM (Monitor.move last) m₀ = some m →
      Reachable last m := by
    clear h
    induction events with
    | nil =>
      rintro m₀ hreachable ⟨⟩
      exact hreachable
    | cons event rest ih =>
      intro m₀ hreachable h
      obtain ⟨m₁,hmove,hrest⟩ := Option.bind_eq_some_iff.mp h
      exact ih m₁ (hreachable.tail ⟨event,hmove⟩) hrest
  exact hfold {} .refl h

def woken : List (Event Bool) :=
  [.call false (.wait (some 5)),.advance false,.advance false,.advance false,.advance false,
    .advance false,.elapse 3,
    .call true .notify,.advance true,.advance true,.advance true,.advance true,.advance
    false,.advance false,
    .advance false]

theorem never_stranded_woken : ∃ m m', Reachable 9 m ∧ m.Returns 9 false (.waited ⟨some 5,0⟩ true) m' ∧
    (m.notifier.latched = true → m.holder = none → ∀ i w, m.point i ≠ .asleep w) ∧
      ∀ i w signalled m', m.Returns 9 i (.waited w signalled) m' →
        (w.timeout = none → m'.notifier.latched = true ∧ signalled = true) ∧
          (signalled = true ↔ m'.notifier.latched = true) ∧
            (signalled = false → ∃ timeout, w.timeout = some timeout ∧ w.began + timeout ≤ m'.now) := by
  have hrun : ∃ m, woken.foldlM (Monitor.move 9) {} = some m ∧
      m.point false = .leaving (.waited ⟨some 5,0⟩ true) :=
    ⟨_,rfl,rfl⟩
  obtain ⟨m,hm,hp⟩ := hrun
  have hreachable := reachable_of_foldlM hm
  have hreturns : m.Returns 9 false (.waited ⟨some 5,0⟩ true) (m.release false .outside) :=
    ⟨hp,by simp only [Monitor.advance, hp]⟩
  exact ⟨m,_,hreachable,hreturns,never_stranded hreachable⟩

end Monitor

end Workers
