import Workers.Proofs.Call.Atop
import Workers.Proofs.Call.Handling
import Workers.Proofs.Call.Recounted
/-! # Protected calls

In a context without a hook and without an error handler, a protected call is a try.  It comes to an
end exactly if its callee does when somebody calls that from outside, and hands on what has become
of it; others find and leave the same meanwhile.  The callee is at the bottom of a stack in the one
case, and on top of the protected call and of whatever is below that in the other.
-/
namespace Workers

variable {U N : Type}

/-- What a protected call makes of what has become of its callee. -/
def RunnableOutcome.tried : RunnableOutcome → RunnableOutcome
  | .ok values => .ok (.boolean true :: values)
  | .failure fault _ => .ok [.boolean false,.string fault.message]
  | .stop => .stop
  | .panic text => .panic text

namespace World

variable {c : ContextId} {w v w' v' : World}

theorem context_counted (w : World) (c : ContextId) :
    (w.counted c).context c = (w.context c).countInstruction.2 := by
  rcases w.setContext_cases c with hset | ⟨hc,hsame⟩
  · exact hset _
  · have hdefault : w.context c = default := by
      rw [context, Array.getElem?_eq_none hc]
      rfl
    rw [counted, hsame, hdefault]
    rfl

theorem KeepsContext.counted (h : w.KeepsContext c w') :
    (w.counted c).KeepsContext c (w'.counted c) where
  context := by rw [context_counted, context_counted, h.context]
  contexts := by simpa [World.counted] using h.contexts

/-- What others left after an instruction was counted, they could have left before it. -/
theorem KeepsContext.uncounted (h : (w.counted c).KeepsContext c v') :
    ∃ w', w.KeepsContext c w' ∧ w'.counted c = v' := by
  have hcontext := h.context
  rw [context_counted] at hcontext
  refine ⟨v'.setContext c (w.context c),⟨?_,by simpa [World.counted] using h.contexts⟩,?_⟩
  · rcases v'.setContext_cases c with hset | ⟨hc,hsame⟩
    · exact hset _
    · have hc' : w.contexts.size ≤ c := by simpa [World.counted] using h.contexts.trans hc
      rw [hsame, hcontext, ← context_counted, World.counted, setContext_of_le hc']
  · rw [World.counted, setContext_setContext]
    rcases v'.setContext_cases c with hset | ⟨_,hsame⟩
    · rw [hset, ← hcontext, World.setContext_self]
    · rw [hsame]

end World

namespace Strand

section Heads

variable (lib : Library U N) (c : ContextId) (stopping : Bool)
    (ends : RunnableOutcome → Strand (Frame U N) → Prop)
  (goal : Strand (Frame U N) → Prop)

/-- In a context without a hook and without an error handler, the strand goes on to the goal
whatever the world is like, and counts a number of instructions and does nothing else to the world
on the way. -/
inductive MustReach : ℕ → Strand (Frame U N) → Prop
  | here {s : Strand (Frame U N)} (h : goal s) : MustReach 0 s
  | step {n : ℕ} {s s' : Strand (Frame U N)} (hopen : Open ends s)
      (hstep : ∀ w : World, w.Bare c stopping → s.step lib c w = .ran s' w)
      (rest : MustReach n s') : MustReach n s
  | count {n : ℕ} {s s' : Strand (Frame U N)} (hopen : Open ends s)
      (hstep : ∀ w : World, w.Bare c stopping → s.step lib c w = .ran s' (w.counted c))
      (rest : MustReach n s') :
      MustReach (n + 1) s

end Heads

variable {lib : Library U N} {c : ContextId} {stopping : Bool}
    {ends ends' : RunnableOutcome → Strand (Frame U N) → Prop}
  {goal goal' : Strand (Frame U N) → Prop} {n m : ℕ} {w v w' v' : World} {s s' t : Strand (Frame U N)}
  {result result' : RunnableOutcome}

def countedTimes (c : ContextId) (n : ℕ) (w : World) : World := (fun w : World => w.counted c)^[n] w

theorem recounts_countedTimes (c : ContextId) (n : ℕ) (w : World) :
    w.Recounts c (countedTimes c n w) := by
  induction n generalizing w with
  | zero => exact .refl c w
  | succ n ih => exact (World.recounts_counted w c).trans (ih (w.counted c))

theorem keepsContext_countedTimes (n : ℕ) (h : w.KeepsContext c w') :
    (countedTimes c n w).KeepsContext c (countedTimes c n w') := by
  induction n generalizing w w' with
  | zero => exact h
  | succ n ih => exact ih h.counted

theorem keepsContext_uncountedTimes (n : ℕ) (h : (countedTimes c n w).KeepsContext c v') :
    ∃ w', w.KeepsContext c w' ∧ countedTimes c n w' = v' := by
  induction n generalizing w with
  | zero => exact ⟨v',h,rfl⟩
  | succ n ih =>
    obtain ⟨u,hu,rfl⟩ := ih (w := w.counted c) h
    obtain ⟨w',hw',rfl⟩ := hu.uncounted
    exact ⟨w',hw',rfl⟩

theorem MustReach.mono (h : MustReach lib c stopping ends goal n s)
    (hends : ∀ {s}, Open ends s → Open ends' s) (hgoal : ∀ {s}, goal s → goal' s) :
    MustReach lib c stopping ends' goal' n s := by
  induction h with
  | here h => exact .here (hgoal h)
  | step hopen hstep _ ih => exact .step (hends hopen) hstep ih
  | count hopen hstep _ ih => exact .count (hends hopen) hstep ih

/-- The strand gets to the goal by itself. -/
theorem MustReach.alone (h : MustReach lib c stopping ends goal n s) (hw : w.Bare c stopping) :
    ∃ s', goal s' ∧ Alone lib c ends (w,s) (countedTimes c n w,s') := by
  induction h generalizing w with
  | here h => exact ⟨_,h,.refl⟩
  | step hopen hstep _ ih =>
    obtain ⟨s',hs',halone⟩ := ih hw
    exact ⟨s',hs',halone.head hopen (hstep w hw)⟩
  | count hopen hstep _ ih =>
    obtain ⟨s',hs',halone⟩ := ih (hw.recounts (World.recounts_counted w c))
    exact ⟨s',hs',halone.head hopen (hstep w hw)⟩

/-- One step on the way. -/
theorem MustReach.next (h : MustReach lib c stopping ends goal n s) (hw : w.Bare c stopping)
    (hstep : s.step lib c w = .ran s' w') :
    n = 0 ∧ goal s ∨ ∃ m, MustReach lib c stopping ends goal m s' ∧
      w'.Bare c stopping ∧ w.Recounts c w' ∧ countedTimes c m w' = countedTimes c n w := by
  cases h with
  | here h => exact .inl ⟨rfl,h⟩
  | step hopen hown hrest =>
    rw [hown w hw] at hstep
    cases hstep
    exact .inr ⟨_,hrest,hw,.refl c w,rfl⟩
  | count hopen hown hrest =>
    rw [hown w hw] at hstep
    cases hstep
    have hcounted := World.recounts_counted w c
    exact .inr ⟨_,hrest,hw.recounts hcounted,hcounted,rfl⟩

theorem MustReach.goal_of_end (h : MustReach lib c stopping ends goal n s) (hend : ends result s) :
    goal s := by
  cases h with
  | here h => exact h
  | step hopen | count hopen => exact absurd hend (hopen result)

end Strand

def Phase.Above (below : List (Frame U N)) : Phase (Frame U N) → Prop
  | .turn (.offer _ stack _ _) => below.length ≤ stack.length
  | .turn (.escape ..) | .turn (.ended ..) | .exit _ => False
  | _ => True

namespace Strand

variable {lib : Library U N} {c : ContextId} {stopping : Bool}
    {ends : RunnableOutcome → Strand (Frame U N) → Prop}
  {n m : ℕ} {w v w' v' : World} {s s' t t' : Strand (Frame U N)} {result result' given : RunnableOutcome}
  {f : Routine} {arguments : List Value} {below tail : List (Frame U N)}
  {base callers : List (Caller (Frame U N))}
  {x y : World × Strand (Frame U N)}

structure BusyAbove (below : List (Frame U N)) (callers : List (Caller (Frame U N)))
    (s : Strand (Frame U N)) : Prop where
  running : s.exit? = none
  above : callers.length < s.callers.length ∨ s.phase.Above below

theorem BusyAbove.open_delivered (h : BusyAbove below callers s) : Open (Delivered below callers) s := by
  obtain ⟨hrunning,habove⟩ := h
  have hover : ∀ outcome frames, ¬ (Phase.turn (Turn.handOver below outcome frames)).Above below := by
    intro outcome frames
    cases below with
    | nil => cases outcome <;> exact id
    | cons r below => exact Nat.not_succ_le_self _
  rintro result ⟨⟩
  · exact habove.elim (Nat.lt_irrefl _) (hover _ _)
  · exact habove.elim (Nat.lt_irrefl _) (hover _ _)
  · exact habove.elim (Nat.lt_irrefl _) id
  · cases hrunning

theorem exit_eq_none {phase : Phase (Frame U N)} (hphase : phase.IsInner) :
    (⟨phase,callers⟩ : Strand (Frame U N)).exit? = none := by
  cases phase with
  | exit => exact hphase.elim
  | turn | acting | counting | checking | waiting => rfl

theorem Atop.busyAbove {r : Frame U N} (h : Atop base callers (r :: below) t s) :
    BusyAbove below callers s := by
  cases h with
  | count | counting | step => exact ⟨rfl,.inr trivial⟩
  | offer r' stack outcome frames =>
    refine ⟨rfl,.inr ?_⟩
    simp only [Phase.Above, List.length_append, List.length_cons]
    omega
  | act p stack a => cases p <;> exact ⟨rfl,.inr trivial⟩
  | check p stack probe k => cases p <;> exact ⟨rfl,.inr trivial⟩
  | wait p stack n deadline k => cases p <;> exact ⟨rfl,.inr trivial⟩
  | call p stack k ht =>
    rw [under_eq ht.phase]
    refine ⟨exit_eq_none ht.phase,.inl ?_⟩
    simp only [List.length_append, List.length_cons]
    omega

theorem Atop.exit_eq_none (h : Atop base callers tail t s) : t.exit? = none := by
  cases h with
  | count | counting | step | offer => rfl
  | act p | check p | wait p => cases p <;> rfl
  | call p stack k ht =>
    rw [under_eq ht.phase]
    exact exit_eq_none ht.phase

structure ProtectedEnds (lib : Library U N) (c : ContextId) (below : List (Frame U N))
    (callers : List (Caller (Frame U N))) (ends : RunnableOutcome → Strand (Frame U N) → Prop) :
    Prop where
  opens : ∀ {s}, BusyAbove below callers s → Open ends s
  unique : ∀ {result result' s}, ends result s → ends result' s → result = result'
  mustReach : ∀ (stopping : Bool) (given : RunnableOutcome) {s}, Delivered below callers given.tried s →
    ∃ n, MustReach lib c stopping ends (ends given.tried) n s

theorem Delivered.unique (h : Delivered below callers result s)
    (h' : Delivered below callers result' s) :
    result = result' := by
  cases below <;> cases h <;> cases h' <;> rfl

theorem protectedEnds_delivered (below : List (Frame U N)) (callers : List (Caller (Frame U N))) :
    ProtectedEnds lib c below callers (Delivered below callers) where
  opens := BusyAbove.open_delivered
  unique := Delivered.unique
  mustReach _ _ _ h := ⟨0,.here h⟩

theorem mustReach_ended {outcome : Outcome}
    (hreturns : ∀ left callers,
      Returns result (⟨.exit (.ended outcome left),callers⟩ : Strand (Frame U N)))
    (left : List (Frame U N)) :
    MustReach lib c stopping Returns (Returns result) 0
      ⟨.turn (.ended outcome left),[⟨.outside,.done⟩]⟩ :=
  .step (open_returns rfl) (fun _ _ => rfl)
    (.step (open_returns rfl) (fun _ _ => rfl) (.here (hreturns _ _)))

theorem mustReach_escape (fault : Fault) (frames : List String) :
    MustReach lib c stopping Returns (Returns (.failure fault [])) 0
    (⟨.turn (.escape fault frames),[⟨.outside,.done⟩]⟩ : Strand (Frame U N)) := by
  refine .step (open_returns rfl) (fun w hw => ?_) (mustReach_ended (.failure fault) [])
  simp only [step, stepTurn, Context.handleFault, hw.handler]

theorem Returns.unique (h : Returns result s) (h' : Returns result' s) : result = result' := by
  cases h <;> cases h' <;> rfl

theorem protectedEnds_returns :
    ProtectedEnds lib c [] [⟨.outside,.done⟩] (Returns (U := U) (N := N)) where
  opens h := open_returns h.running
  unique := Returns.unique
  mustReach stopping given s h := by
    cases given with
    | ok | failure =>
      cases h
      exact ⟨0,mustReach_ended (.ok _) []⟩
    | stop =>
      cases h with
      | stop left => exact ⟨0,mustReach_ended .stop left⟩
    | panic text =>
      cases h
      exact ⟨0,.here (.panic text [])⟩

/-- The callee is called from outside, and has come to what a protected call makes the outcome of. -/
def Tried (result : RunnableOutcome) (s : Strand (Frame U N)) : Prop :=
  ∃ given, given.tried = result ∧ Returns given s

theorem Tried.unique (h : Tried result s) (h' : Tried result' s) : result = result' := by
  obtain ⟨given,rfl,hgiven⟩ := h
  obtain ⟨given',rfl,hgiven'⟩ := h'
  rw [hgiven.unique hgiven']

theorem open_tried (h : Open Returns s) : Open Tried s := fun _ ⟨given,_,hreturns⟩ => h given hreturns

theorem MustReach.tried (given : RunnableOutcome)
    (h : MustReach lib c stopping Returns (Returns given) n s) :
    MustReach lib c stopping Tried (Tried given.tried) n s :=
  h.mono open_tried fun hreturns => ⟨given,rfl,hreturns⟩

theorem mustReach_bottom (h : Delivered [] [⟨.outside,.done⟩] result s) :
    MustReach lib c stopping Tried (Tried result.tried) 0 s := by
  cases h with
  | ok values => exact (mustReach_ended (.ok values) []).tried (.ok values)
  | failure fault frames => exact (mustReach_escape fault frames).tried (.failure fault [])
  | stop left => exact (mustReach_ended .stop left).tried .stop
  | panic text => exact .here ⟨.panic text,rfl,.panic text []⟩

theorem mustReach_uncalled (f : Routine) (arguments : List Value) :
    MustReach lib c true Returns (Returns .stop) 0 (ofCall f arguments : Strand (Frame U N)) := by
  have hdone : MustReach lib c true Returns (Returns .stop) 0
      (⟨.acting .outside (.done (.error .stop)),[]⟩ : Strand (Frame U N)) :=
    .step (open_returns rfl) (fun _ _ => rfl) (.here (.stop [] []))
  refine .step (open_returns rfl) (fun w hw => ?_) hdone
  simp [ofCall, step, stepAct, hw.stopping]

section Above

variable (hends : ProtectedEnds lib c below callers ends)
include hends

theorem mustReach_finish (given : RunnableOutcome) {values : List Value}
    (hgiven : given.tried = .ok values) (f : Routine) :
    ∃ n, MustReach lib c false ends (ends given.tried) n
      ⟨.acting (.step below) (.done (.guarded f .waiting,.finish values)),callers⟩ := by
  have hgives : Delivered below callers given.tried
      (⟨.turn (.handOver below (.ok values) []),callers⟩ : Strand (Frame U N)) := hgiven ▸ .ok values
  obtain ⟨n,hrest⟩ := hends.mustReach false given hgives
  exact ⟨n,.step (hends.opens ⟨rfl,.inr trivial⟩)
    (fun w hw => (takes_finish (by rw [hw.stopping]; exact Bool.false_ne_true)).ran) hrest⟩

/-- It takes whatever its callee has come to, and is run once more. -/
theorem mustReach_offer (given : RunnableOutcome) {outcome : Except Fault (List Value)}
    (hgiven : given.tried = .ok (Protection.values outcome)) (f : Routine) (frames : List String) : ∃ n,
      MustReach lib c false ends (ends given.tried) n
      ⟨.turn (.offer (.guarded f .waiting) below outcome frames),callers⟩ := by
  obtain ⟨n,hrest⟩ := mustReach_finish hends given hgiven f
  have hopen : ∀ {phase : Phase (Frame U N)}, phase.Above below →
    (⟨phase,callers⟩ : Strand (Frame U N)).exit? = none →
      Open ends ⟨phase,callers⟩ := fun habove hrunning => hends.opens ⟨hrunning,.inr habove⟩
  have hstep : MustReach lib c false ends (ends given.tried) n
      ⟨.turn (.step (.guarded f (.finished (Protection.values outcome))) below),callers⟩ :=
    .step (hopen trivial rfl) (fun _ _ => rfl) hrest
  have hcount : MustReach lib c false ends (ends given.tried) (n + 1)
      ⟨.turn (.count (.guarded f (.finished (Protection.values outcome)) :: below)),callers⟩ := by
    refine .count (hopen trivial rfl) (fun w hw => ?_) hstep
    rw [step_count_unhooked hw.hook, hw.stopping]
    rfl
  have haccept : MustReach lib c false ends (ends given.tried) (n + 1)
      ⟨.acting (.receive below frames) (lib.accept outcome (.guarded f .waiting)),callers⟩ :=
    .step (hopen trivial rfl) (fun _ _ => rfl) hcount
  exact ⟨n + 1,.step (hopen (Nat.le_refl _) rfl) (fun _ _ => rfl) haccept⟩

theorem mustReach_top (h : Delivered (.guarded f .waiting :: below) callers result s) :
    ∃ n, MustReach lib c false ends (ends result.tried) n s := by
  cases h with
  | ok values => exact mustReach_offer hends (.ok values) rfl f []
  | failure fault frames => exact mustReach_offer hends (.failure fault frames) rfl f frames
  | stop left => exact hends.mustReach false .stop (.stop left)
  | panic text => exact hends.mustReach false (.panic text) (.panic text)

/-- A protected call that is run gets to load its callee. -/
theorem mustReach_count (f : Routine) (arguments : List Value) : MustReach lib c false ends
    (· = ⟨.acting (.step below) (lib.advance (.guarded f (.launch arguments))),callers⟩) 1
    ⟨.turn (.count (.guarded f (.launch arguments) :: below)),callers⟩ := by
  have hstep : MustReach lib c false ends
      (· = ⟨.acting (.step below) (lib.advance (.guarded f (.launch arguments))),callers⟩) 0
      ⟨.turn (.step (.guarded f (.launch arguments)) below),callers⟩ :=
    .step (hends.opens ⟨rfl,.inr trivial⟩) (fun _ _ => rfl) (.here rfl)
  refine .count (hends.opens ⟨rfl,.inr trivial⟩) (fun w hw => ?_) hstep
  rw [step_count_unhooked hw.hook, hw.stopping]
  rfl

theorem mustReach_stopped (f : Routine) (arguments : List Value) :
    ∃ n, MustReach lib c true ends (ends (RunnableOutcome.tried .stop)) n
      ⟨.turn (.count (.guarded f (.launch arguments) :: below)),callers⟩ := by
  obtain ⟨n,hrest⟩ := hends.mustReach true .stop (.stop (.guarded f (.launch arguments) :: below))
  refine ⟨n + 1,.count (hends.opens ⟨rfl,.inr trivial⟩) (fun w hw => ?_) hrest⟩
  rw [step_count_unhooked hw.hook, hw.stopping]
  rfl

end Above

/-- A protected call on top of the given frames beside its callee at the bottom. -/
inductive Tries (lib : Library U N) (c : ContextId) (f : Routine) (arguments : List Value)
    (below : List (Frame U N)) (callers : List (Caller (Frame U N)))
    (ends : RunnableOutcome → Strand (Frame U N) → Prop) :
    World × Strand (Frame U N) → World × Strand (Frame U N) → Prop
  /-- The callee has yet to be loaded.  The protected call may have to be counted before that. -/
  | before {n : ℕ} {w : World} {s : Strand (Frame U N)} (hw : w.Bare c false)
      (hs : MustReach lib c false ends
        (· = ⟨.acting (.step below) (lib.advance (.guarded f (.launch arguments))),callers⟩) n s) :
      Tries lib c f arguments below callers ends (w,s) (countedTimes c n w,ofCall f arguments)
  /-- The callee is running in the same world. -/
  | during {w : World} {s t : Strand (Frame U N)} (hw : w.Bare c false) (hnone : t.phase.probe? = none)
      (h : Atop [⟨.outside,.done⟩] callers (.guarded f .waiting :: below) t s) :
      Tries lib c f arguments below callers ends (w,s) (w,t)
  /-- What becomes of the callee is certain. -/
  | after {stopping : Bool} {given : RunnableOutcome} {n m : ℕ} {w v : World}
      {s t : Strand (Frame U N)} (hw : w.Bare c stopping) (hsame : w.Recounts c v)
      (hs : MustReach lib c stopping ends (ends given.tried) n s)
      (ht : MustReach lib c stopping Tried (Tried given.tried) m t) :
      Tries lib c f arguments below callers ends (w,s) (v,t)

section Tries

variable (hends : ProtectedEnds lib c below callers ends)

theorem Tries.worlds (h : Tries lib c f arguments below callers ends x y) : x.1.Recounts c y.1 := by
  cases h with
  | before => exact recounts_countedTimes c _ _
  | during => exact .refl c _
  | after _ hsame => exact hsame

theorem Tries.others (h : Tries lib c f arguments below callers ends (w,s) (v,t))
    (hbeside : w.KeepsContext c w') :
    ∃ v', v.KeepsContext c v' ∧ Tries lib c f arguments below callers ends (w',s) (v',t) := by
  cases h with
  | before hw hs => exact ⟨_,keepsContext_countedTimes _ hbeside,.before (hw.keepsContext hbeside) hs⟩
  | during hw hnone h => exact ⟨w',hbeside,.during (hw.keepsContext hbeside) hnone h⟩
  | after hw hsame hs ht =>
    obtain ⟨v',hbeside',hsame'⟩ := hsame.keepsContext hbeside
    exact ⟨v',hbeside',.after (hw.keepsContext hbeside) hsame' hs ht⟩

theorem Tries.others_back (h : Tries lib c f arguments below callers ends (w,s) (v,t))
    (hbeside : v.KeepsContext c v') :
    ∃ w', w.KeepsContext c w' ∧ Tries lib c f arguments below callers ends (w',s) (v',t) := by
  cases h with
  | before hw hs =>
    obtain ⟨w',hw',rfl⟩ := keepsContext_uncountedTimes _ hbeside
    exact ⟨w',hw',.before (hw.keepsContext hw') hs⟩
  | during hw hnone h => exact ⟨v',hbeside,.during (hw.keepsContext hbeside) hnone h⟩
  | after hw hsame hs ht =>
    obtain ⟨w',hw',hsame'⟩ := hsame.symm.keepsContext hbeside
    exact ⟨w',hw',.after (hw.keepsContext hw') hsame'.symm hs ht⟩

include hends

/-- When the callee is to be loaded, both take the step, unless that fails. -/
theorem tries_load (f : Routine) (arguments : List Value) (hw : w.Bare c false) :
    (∃ s' t', Strand.step lib c w
      ⟨.acting (.step below) (lib.advance (.guarded f (.launch arguments))),callers⟩ =
        .ran s' w ∧
        (ofCall f arguments).step lib c w = .ran t' w ∧
        Tries lib c f arguments below callers ends (w,s') (w,t')) ∨
      ∃ (given : RunnableOutcome) (n m : ℕ), MustReach lib c false ends (ends given.tried) n
          ⟨.acting (.step below) (lib.advance (.guarded f (.launch arguments))),callers⟩ ∧
        MustReach lib c false Tried (Tried given.tried) m (ofCall f arguments) := by
  have hgo : ∀ {w : World}, w.Bare c false → ¬ (w.context c).stopping = true := fun hw => by
    rw [hw.stopping]
    exact Bool.false_ne_true
  cases hload : lib.load f arguments with
  | ok child =>
    have hact : lib.advance (.guarded f (.launch arguments)) = .done
        (.guarded f .waiting,.launch child) := by
      simp only [Library.advance, hload]
      rfl
    refine .inl ⟨_,⟨.turn (.count [child]),[⟨.outside,.done⟩]⟩,?_,?_,.during hw rfl (.count child [])⟩
    · rw [hact]
      exact (takes_launch (hgo hw)).ran
    · simp only [ofCall, step, stepAct, if_neg (hgo hw), hload]
  | error fault =>
    have hact : lib.advance (.guarded f (.launch arguments)) =
        .done (.guarded f .waiting,.finish (Protection.failure fault)) := by
      simp only [Library.advance, hload]
      rfl
    obtain ⟨n,hs⟩ := mustReach_finish hends (.failure fault []) rfl f
    have hfailed : MustReach lib c false Returns (Returns (.failure fault [])) 0
        (ofCall f arguments : Strand (Frame U N)) := by
      have hdone : MustReach lib c false Returns (Returns (.failure fault [])) 0
          (⟨.acting .outside (.done (.error (.fault fault))),[]⟩ : Strand (Frame U N)) :=
        .step (open_returns rfl) (fun _ _ => rfl) (.here (.failure fault [] []))
      refine .step (open_returns rfl) (fun w hw => ?_) hdone
      simp only [ofCall, step, stepAct, if_neg (hgo hw), hload, Context.handleFault, hw.handler]
    rw [hact]
    exact .inr ⟨_,n,0,hs,hfailed.tried (.failure fault [])⟩

/-- While the callee is running, both take the same steps. -/
theorem tries_next (hw : w.Bare c false) (hnone : t.phase.probe? = none)
    (h : Atop [⟨.outside,.done⟩] callers (.guarded f .waiting :: below) t s) :
    (∃ deadline, t.step lib c w = .blocked deadline ∧ s.step lib c w = .blocked deadline) ∨
      ∃ t' s' w', t.step lib c w = .ran t' w' ∧ s.step lib c w = .ran s' w' ∧
        Tries lib c f arguments below callers ends (w',s') (w',t') := by
  have htogether : Together lib c [⟨.outside,.done⟩] callers (.guarded f .waiting :: below) w t s :=
    h.together
  cases htogether with
  | blocked ht hs => exact .inl ⟨_,ht,hs⟩
  | ran ht hs hnext =>
    obtain ⟨hw',hnone'⟩ := bare_step hw hnone ht
    refine .inr ⟨_,_,_,ht,hs,?_⟩
    cases hnext with
    | atop h' => exact .during hw' hnone' h'
    | landed e hbottom htop =>
      obtain ⟨n,hs'⟩ := mustReach_top hends htop
      exact .after hw' (.refl c _) hs' (mustReach_bottom hbottom)

omit hends in
theorem own_after (hw : w.Bare c stopping) (hsame : w.Recounts c v)
    (hs : MustReach lib c stopping ends (ends given.tried) n s)
    (ht : MustReach lib c stopping Tried (Tried given.tried) m t) (hopen : Open ends s)
    (hstep : s.step lib c w = .ran s' w') :
    ∃ y', Alone lib c Tried (v,t) y' ∧ Tries lib c f arguments below callers ends (w',s') y' := by
  rcases hs.next hw hstep with ⟨_,hend⟩ | ⟨_,hs',hw',hcounted,_⟩
  · exact absurd hend (hopen _)
  · exact ⟨_,.refl,.after hw' (hcounted.symm.trans hsame) hs' ht⟩

omit hends in
theorem own_after_back (hw : w.Bare c stopping) (hsame : w.Recounts c v)
    (hs : MustReach lib c stopping ends (ends given.tried) n s)
    (ht : MustReach lib c stopping Tried (Tried given.tried) m t) (hopen : Open Tried t)
    (hstep : t.step lib c v = .ran t' v') :
    ∃ x', Alone lib c ends (w,s) x' ∧ Tries lib c f arguments below callers ends x' (v',t') := by
  rcases ht.next (hw.recounts hsame) hstep with ⟨_,hend⟩ | ⟨_,ht',_,hcounted,_⟩
  · exact absurd hend (hopen _)
  · exact ⟨_,.refl,.after hw (hsame.trans hcounted) hs ht'⟩

/-- The callee follows the protected call. -/
theorem Tries.own (h : Tries lib c f arguments below callers ends (w,s) (v,t)) (hopen : Open ends s)
    (hstep : s.step lib c w = .ran s' w') :
    ∃ y', Alone lib c Tried (v,t) y' ∧ Tries lib c f arguments below callers ends (w',s') y' := by
  cases h with
  | after hw hsame hs ht => exact own_after hw hsame hs ht hopen hstep
  | before hw hs =>
    rcases hs.next hw hstep with ⟨rfl,rfl⟩ | ⟨_,hs',hw',_,hcounted⟩
    · rcases tries_load hends f arguments hw with ⟨s₁,t₁,hload,hcall,hnext⟩ | ⟨given,n,m,hfinish,hfailed⟩
      · rw [hload] at hstep
        cases hstep
        exact ⟨_,.head (open_tried (open_returns rfl)) hcall .refl,hnext⟩
      · exact own_after hw (.refl c w) hfinish hfailed hopen hstep
    · rw [← hcounted]
      exact ⟨_,.refl,.before hw' hs'⟩
  | during hw hnone h =>
    rcases tries_next hends hw hnone h with ⟨_,_,hs⟩ | ⟨t₁,s₁,w₁,ht,hs,hnext⟩
    · rw [hs] at hstep
      cases hstep
    · rw [hs] at hstep
      cases hstep
      exact ⟨_,.head (open_tried (open_returns h.exit_eq_none)) ht .refl,hnext⟩

/-- The protected call follows its callee. -/
theorem Tries.own_back (h : Tries lib c f arguments below callers ends (w,s) (v,t))
    (hopen : Open Tried t) (hstep : t.step lib c v = .ran t' v') :
    ∃ x', Alone lib c ends (w,s) x' ∧ Tries lib c f arguments below callers ends x' (v',t') := by
  cases h with
  | after hw hsame hs ht => exact own_after_back hw hsame hs ht hopen hstep
  | @before n w s hw hs =>
    obtain ⟨s₁,rfl,halone⟩ := hs.alone hw
    have hu := hw.recounts (recounts_countedTimes c n w)
    rcases tries_load hends f arguments hu with ⟨s₁,t₁,hload,hcall,hnext⟩ | ⟨given,n,m,hfinish,hfailed⟩
    · rw [hcall] at hstep
      cases hstep
      exact ⟨_,halone.trans (.head (hends.opens ⟨rfl,.inr trivial⟩) hload .refl),hnext⟩
    · obtain ⟨x',halone',hnext⟩ := own_after_back hu (.refl c _) hfinish hfailed hopen hstep
      exact ⟨x',halone.trans halone',hnext⟩
  | during hw hnone h =>
    rcases tries_next hends hw hnone h with ⟨_,ht,_⟩ | ⟨t₁,s₁,w₁,ht,hs,hnext⟩
    · rw [ht] at hstep
      cases hstep
    · rw [ht] at hstep
      cases hstep
      exact ⟨_,.head (hends.opens h.busyAbove) hs .refl,hnext⟩

/-- When the protected call has come to its end, its callee gets to the end by itself. -/
theorem Tries.arrives (h : Tries lib c f arguments below callers ends x y) (hend : ends result x.2) :
    ∃ y', Alone lib c Tried y y' ∧ Tried result y'.2 ∧ x.1.Recounts c y'.1 := by
  cases h with
  | before hw hs =>
    have hload := hs.goal_of_end hend
    exact absurd hend (hends.opens (hload ▸ ⟨rfl,.inr trivial⟩) result)
  | during hw hnone h => exact absurd hend (hends.opens h.busyAbove result)
  | after hw hsame hs ht =>
    obtain rfl := hends.unique (hs.goal_of_end hend) hend
    obtain ⟨t',ht',halone⟩ := ht.alone (hw.recounts hsame)
    exact ⟨_,halone,ht',hsame.trans (recounts_countedTimes c _ _)⟩

omit hends in
theorem Tries.arrives_back (h : Tries lib c f arguments below callers ends x y)
    (hend : Tried result y.2) :
    ∃ x', Alone lib c ends x x' ∧ ends result x'.2 ∧ y.1.Recounts c x'.1 := by
  cases h with
  | before hw hs => exact absurd hend (open_tried (open_returns rfl) result)
  | during hw hnone h => exact absurd hend (open_tried (open_returns h.exit_eq_none) result)
  | after hw hsame hs ht =>
    obtain rfl := (ht.goal_of_end hend).unique hend
    obtain ⟨s',hs',halone⟩ := hs.alone hw
    exact ⟨_,halone,hs',hsame.symm.trans (recounts_countedTimes c _ _)⟩

theorem Tries.comesTo_iff (h : Tries lib c f arguments below callers ends x y)
    (result : RunnableOutcome) (met : List (World × World)) (w' : World) :
    ComesTo lib c x ends result met w' ↔ ComesTo lib c y Tried result met w' := by
  have hforth : Simulates lib c ends Tried (Tries lib c f arguments below callers ends) :=
    ⟨Tries.worlds,fun h => h.own hends,Tries.others,fun h => h.arrives hends⟩
  have hback : Simulates lib c Tried ends fun y x => Tries lib c f arguments below callers ends x y :=
    ⟨fun h => h.worlds.symm,fun h => h.own_back hends,Tries.others_back,fun h => h.arrives_back⟩
  exact ⟨hforth.comesTo h,hback.comesTo h⟩

theorem tries_run (hw : w.Bare c stopping) (f : Routine) (arguments : List Value) :
    Tries lib c f arguments below callers ends (w,
      ⟨.turn (.count (.guarded f (.launch arguments) :: below)),callers⟩)
      (w.counted c,ofCall f arguments) := by
  cases stopping with
  | false => exact .before hw (mustReach_count hends f arguments)
  | true =>
    obtain ⟨n,hstopped⟩ := mustReach_stopped hends f arguments
    exact .after hw (World.recounts_counted w c) hstopped ((mustReach_uncalled f arguments).tried .stop)

end Tries

/-- A call from outside that loads a protected call. -/
theorem tries_call {g : Routine} {arguments' : List Value} (hw : w.Bare c stopping)
    (hload : lib.load g arguments' = .ok (.guarded f (.launch arguments))) :
    Tries lib c f arguments [] [⟨.outside,.done⟩] Returns (w,ofCall g arguments')
      (w.counted c,ofCall f arguments) := by
  cases stopping with
  | false =>
    refine .before hw (.step (open_returns rfl) (fun w hw => ?_)
      (mustReach_count protectedEnds_returns f arguments))
    simp [ofCall, step, stepAct, hw.stopping, hload]
  | true =>
    have hstopped : MustReach lib c true Returns (Returns (RunnableOutcome.tried .stop)) 0
        (ofCall g arguments') :=
      mustReach_uncalled g arguments'
    exact .after hw (World.recounts_counted w c) hstopped ((mustReach_uncalled f arguments).tried .stop)

theorem comesTo_tried_iff {result : RunnableOutcome} {met : List (World × World)} :
    ComesTo lib c x Tried result met w' ↔
    ∃ given, given.tried = result ∧ ComesTo lib c x Returns given met w' := by
  constructor
  · rintro ⟨log,u,s,hrun,⟨given,rfl,hreturns⟩,hbefore,hmet⟩
    exact ⟨given,rfl,log,u,s,hrun,hreturns,
      fun v t hmem given hend => hbefore v t hmem given.tried ⟨given,rfl,hend⟩,hmet⟩
  · rintro ⟨given,rfl,log,u,s,hrun,hreturns,hbefore,hmet⟩
    exact ⟨log,u,s,hrun,⟨given,rfl,hreturns⟩,fun v t hmem => open_tried (hbefore v t hmem),hmet⟩

/-- A call from outside comes to the same with one more instruction counted if there is no hook
step, or if code makes nothing of a tick. -/
theorem comesTo_counted_iff (hhook : (w.context c).hook = none)
    (hcount : (w.context c).hookStep = 0 ∨ lib.IgnoresTicks) (f : Routine)
    (arguments : List Value) (result : RunnableOutcome) (met : List (World × World)) (w' : World) :
    ComesTo lib c (w.counted c,ofCall f arguments) Returns result met w' ↔
      ComesTo lib c (w,ofCall f arguments) Returns result met w' := by
  rcases hcount with hzero | hlib
  · have hsame : w.counted c = w := by
      have hcontext : (w.context c).countInstruction.2 = w.context c := by
        simp only [Context.countInstruction, hzero, if_true]
        split <;> rfl
      rw [World.counted, hcontext, World.setContext_self]
    rw [hsame]
  · exact comesTo_counted hlib hhook f arguments result met w'

/-- A protected call in a context without a hook and without an error handler is a try of its
callee: on top of any frames it hands over, and called from outside it returns, what a try makes of
what its callee returns when that is called from outside, with the same done to the world, and it
comes to no end if that does not. -/
theorem protected_tries (hhook : (w.context c).hook = none)
    (hhandler : (w.context c).handler = none)
    (hcount : (w.context c).hookStep = 0 ∨ lib.IgnoresTicks) (f : Routine)
    (arguments : List Value) (result : RunnableOutcome) (met : List (World × World)) (w' : World) :
    (∀ below callers, ComesTo lib c
      (w,⟨.turn (.count (.guarded f (.launch arguments) :: below)),callers⟩)
        (Delivered below callers) result met w' ↔
      ∃ given, given.tried = result ∧ ComesTo lib c (w,ofCall f arguments) Returns given met w') ∧
    ∀ g arguments', lib.load g arguments' = .ok (.guarded f (.launch arguments)) →
      (ComesTo lib c (w,ofCall g arguments') Returns result met w' ↔
        ∃ given, given.tried = result ∧ ComesTo lib c (w,ofCall f arguments) Returns given
          met w') := by
  have hw : w.Bare c (w.context c).stopping := ⟨hhook,hhandler,rfl⟩
  have hcallee : ComesTo lib c (w.counted c,ofCall f arguments) Tried result met w' ↔
      ∃ given, given.tried = result ∧ ComesTo lib c (w,ofCall f arguments) Returns given met w' := by
    rw [comesTo_tried_iff]
    exact exists_congr fun given => and_congr_right fun _ =>
      comesTo_counted_iff hhook hcount f arguments given met w'
  refine ⟨fun below callers => ?_,fun g arguments' hload => ?_⟩
  · have hends : ProtectedEnds lib c below callers (Delivered below callers) :=
      protectedEnds_delivered below callers
    exact ((tries_run hends hw f arguments).comesTo_iff hends result met w').trans hcallee
  · exact ((tries_call hw hload).comesTo_iff protectedEnds_returns result met w').trans hcallee

def plain : World where
  contexts := #[{ number := 0, registry := 0 }]

theorem LoggedRun.open_returns {log : List (LogEntry U N)} (h : LoggedRun lib c x log y)
    (hmem : .own v t ∈ log) :
    Open Returns t := by
  obtain ⟨_,_,_,_,_,_,hstep,_⟩ := h.split hmem
  rintro result ⟨⟩ <;> cases hstep

theorem protected_tries_passes :
    ((plain.context 0).hook = none ∧ (plain.context 0).handler = none ∧
      (plain.context 0).hookStep = 0 ∧
      passing.load ⟨"tries",2⟩ [] = .ok (.guarded ⟨"passes",1⟩ (.launch []))) ∧
    ∃ w', ComesTo passing 0 (plain,ofCall ⟨"passes",1⟩ []) Returns
      (.failure (.detailed "boom") []) [] w' ∧
      ComesTo passing 0 (plain,ofCall ⟨"tries",2⟩ []) Returns
        (.ok [.boolean false,.string "boom"]) [] w' := by
  have hrun := loggedRun_alone passing 0 20 (plain,ofCall ⟨"passes",1⟩ [])
  have hcallee : ComesTo passing 0 (plain,ofCall ⟨"passes",1⟩ []) Returns
    (.failure (.detailed "boom") []) []
      (alone passing 0 20 (plain,ofCall ⟨"passes",1⟩ [])).2.1 :=
    ⟨_,_,_,hrun,.failure _ [] [],fun v t hmem => hrun.open_returns hmem,.nil,.refl 0 _⟩
  refine ⟨⟨rfl,rfl,rfl,rfl⟩,_,hcallee,?_⟩
  exact ((protected_tries rfl rfl (.inl rfl) ⟨"passes",1⟩ [] _ _ _).2 ⟨"tries",2⟩ [] rfl).mpr
    ⟨_,rfl,hcallee⟩

end Strand

end Workers
