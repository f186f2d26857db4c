import Workers.Proofs.Call.Logged
/-! # A stack on top of other frames

A scheduler with a stack of its own, and the same stack on top of other frames, in a scheduler that
somebody else waits for.  The two take the same steps in the same worlds, until the bottom of the
stack has ended in the one and is handed over to the frame below in the other.
-/
namespace Workers

variable {U N : Type}

namespace Strand

section Atop

variable (base callers : List (Caller (Frame U N))) (tail : List (Frame U N))

/-- The one strand has a stack, and the other one has it on top of a tail. -/
inductive Atop : Strand (Frame U N) → Strand (Frame U N) → Prop
  | count (r : Frame U N) (stack : List (Frame U N)) :
      Atop ⟨.turn (.count (r :: stack)),base⟩ ⟨.turn (.count (r :: (stack ++ tail))),callers⟩
  | counting (probe : Probe) (r : Frame U N) (stack : List (Frame U N)) :
      Atop ⟨.counting probe (r :: stack),base⟩ ⟨.counting probe (r :: (stack ++ tail)),callers⟩
  | step (r : Frame U N) (stack : List (Frame U N)) :
      Atop ⟨.turn (.step r stack),base⟩ ⟨.turn (.step r (stack ++ tail)),callers⟩
  | offer (r : Frame U N) (stack : List (Frame U N)) (outcome : Except Fault (List Value))
      (frames : List String) :
      Atop ⟨.turn (.offer r stack outcome frames),base⟩
        ⟨.turn (.offer r (stack ++ tail) outcome frames),callers⟩
  | act (p : Part) (stack : List (Frame U N)) (a : Act (p.Report (Frame U N))) :
      Atop (Job.place stack base (.act p a)) (Job.place (stack ++ tail) callers (.act p a))
  | check (p : Part) (stack : List (Frame U N)) (probe : Probe) (k : Bool → Act (p.Report (Frame U N))) :
      Atop (p.check stack base probe k) (p.check (stack ++ tail) callers probe k)
  | wait (p : Part) (stack : List (Frame U N)) (n : NotifierId) (deadline : ℕ)
      (k : Bool → Act (p.Report (Frame U N))) :
      Atop (p.wait stack base n deadline k) (p.wait (stack ++ tail) callers n deadline k)
  | call (p : Part) (stack : List (Frame U N)) (k : Outcome → Act (p.Report (Frame U N)))
      {t : Strand (Frame U N)} (ht : t.Inner) :
      Atop (t.under (p.caller stack k :: base)) (t.under (p.caller (stack ++ tail) k :: callers))

inductive Parallel (s t : Strand (Frame U N)) : Prop
  | atop (h : Atop base callers tail s t)
  | landed (e : RunnableOutcome) (hs : Delivered [] base e s) (ht : Delivered tail callers e t)

end Atop

variable {lib : Library U N} {c : ContextId} {w w' : World} {s s' t t' : Strand (Frame U N)}
  {base callers : List (Caller (Frame U N))} {tail : List (Frame U N)}

theorem parallel_unwind (describe : Frame U N → String) (fault : Fault) (failed : Frame U N)
    (stack : List (Frame U N)) (frames : List String) :
    Parallel base callers tail ⟨.turn (Turn.unwind describe fault failed stack frames),base⟩
      ⟨.turn (Turn.unwind describe fault failed (stack ++ tail) frames),callers⟩ := by
  cases stack with
  | nil =>
    have hover : Turn.unwind describe fault failed tail frames =
        .handOver tail (.error fault) (frames ++ [describe failed]) := by
      cases tail <;> rfl
    rw [List.nil_append, hover]
    exact .landed _ (.failure fault _) (.failure fault _)
  | cons r stack => exact .atop (.offer r stack _ _)

theorem parallel_afterCount (stopped : Bool) (r : Frame U N) (stack : List (Frame U N)) :
    Parallel base callers tail ⟨.turn (Turn.afterCount stopped (r :: stack)),base⟩
      ⟨.turn (Turn.afterCount stopped (r :: (stack ++ tail))),callers⟩ := by
  cases stopped with
  | true => exact .landed _ (.stop _) (.stop _)
  | false => exact .atop (.step r stack)

theorem parallel_afterStep (describe : Frame U N → String) (stopping : Bool) (r : Frame U N)
    (move : Move (Frame U N)) (stack : List (Frame U N)) :
    Parallel base callers tail ⟨.turn (Turn.afterStep describe stopping r move stack),base⟩
      ⟨.turn (Turn.afterStep describe stopping r move (stack ++ tail)),callers⟩ := by
  cases stopping with
  | true =>
    cases move with
    | again => exact .atop (.step r stack)
    | proceed | launch | finish | fault | stop => exact .landed _ (.stop []) (.stop [])
  | false =>
    cases move with
    | again => exact .atop (.step r stack)
    | proceed => exact .atop (.count r stack)
    | launch child => exact .atop (.count child (r :: stack))
    | stop => exact .landed _ (.stop []) (.stop [])
    | fault fault => exact parallel_unwind describe fault r stack []
    | finish values =>
      cases stack with
      | nil =>
        have hover : Turn.afterStep describe false r (.finish values) tail =
            .handOver tail (.ok values) [] := by
          cases tail <;> rfl
        rw [List.nil_append, hover]
        exact .landed _ (.ok values) (.ok values)
      | cons parent stack => exact .atop (.offer parent stack _ _)

theorem parallel_afterReceive (describe : Frame U N → String) (r : Frame U N)
    (accepted : Except Fault Unit) (stack : List (Frame U N)) (frames : List String) :
    Parallel base callers tail ⟨.turn (Turn.afterReceive describe r accepted stack frames),base⟩
      ⟨.turn (Turn.afterReceive describe r accepted (stack ++ tail) frames),callers⟩ := by
  cases accepted with
  | ok _ => exact .atop (.count r stack)
  | error fault => exact parallel_unwind describe fault r stack frames

inductive Together (lib : Library U N) (c : ContextId) (base callers : List (Caller (Frame U N)))
    (tail : List (Frame U N))
    (w : World) (s t : Strand (Frame U N)) : Prop
  | blocked {deadline : Option ℕ} (hs : s.step lib c w = .blocked deadline)
      (ht : t.step lib c w = .blocked deadline)
  | ran {s' t' : Strand (Frame U N)} {w' : World} (hs : s.step lib c w = .ran s' w')
      (ht : t.step lib c w = .ran t' w')
      (h : Parallel base callers tail s' t')

/-- A step that shows its moment leads to the world of the moment. -/
theorem Takes.ran {tr : List (Event U N)} (h : Takes lib c w s (.moment w w' :: tr) s') :
    s.step lib c w = .ran s' w' := by
  obtain ⟨u,hstep,hevents⟩ := h
  have hworld : u = w' := by
    obtain ⟨phase,callers⟩ := s
    cases phase with
    | turn t => cases t <;> cases hevents <;> rfl
    | acting | counting | checking | waiting | exit =>
      cases hevents
      rfl
  rw [hstep, hworld]

theorem Together.of_takes {tr tr' : List (Event U N)} (hs : Takes lib c w s (.moment w w' :: tr) s')
    (ht : Takes lib c w t (.moment w w' :: tr') t') (h : Parallel base callers tail s' t') :
    Together lib c base callers tail w s t := .ran hs.ran ht.ran h

theorem Together.of_looks {look look' : Probe → Strand (Frame U N)}
    {after after' : Bool → Strand (Frame U N)} (hs : Looks lib c look after)
    (ht : Looks lib c look' after') (probe : Probe)
    (hlook : ∀ next, Parallel base callers tail (look next) (look' next))
    (hafter : ∀ stopped, Parallel base callers tail (after stopped) (after' stopped)) :
    Together lib c base callers tail w (look probe) (look' probe) := by
  cases hprobe : probe.step w with
  | goto next u => exact .of_takes (hs.goto hprobe) (ht.goto hprobe) (hlook next)
  | finish stopped u => exact .of_takes (hs.finish hprobe) (ht.finish hprobe) (hafter stopped)
  | blocked => exact .blocked (hs.blocked hprobe) (ht.blocked hprobe)

theorem together_act (p : Part) (stack : List (Frame U N)) (a : Act (p.Report (Frame U N))) :
    Together lib c base callers tail w (Job.place stack base (.act p a))
      (Job.place (stack ++ tail) callers (.act p a)) := by
  cases a with
  | done report =>
    cases p with
    | step => exact .ran rfl rfl (parallel_afterStep _ _ report.1 report.2 stack)
    | receive frames => exact .ran rfl rfl (parallel_afterReceive _ report.1 report.2 stack frames)
  | query q k => exact .of_takes (takes_query q k) (takes_query q k) (.atop (.act p stack _))
  | wait n d k => exact .of_takes (takes_wait n d k) (takes_wait n d k) (.atop (.wait p stack n _ k))
  | panic text =>
    exact .of_takes (takes_panic text) (takes_panic text) (.landed _ (.panic text) (.panic text))
  | check kind k =>
    cases hhook : (w.context c).hook with
    | none => exact .of_takes (takes_unhooked k hhook) (takes_unhooked k hhook) (.atop (.act p stack _))
    | some hook =>
      exact .of_takes (takes_hooked k hhook) (takes_hooked k hhook) (.atop (.check p stack _ k))
  | call f arguments k =>
    by_cases hstop : (w.context c).stopping = true
    · exact .of_takes (takes_uncalled k hstop) (takes_uncalled k hstop) (.atop (.act p stack _))
    · cases hload : lib.load f arguments with
      | error fault =>
        exact .of_takes (takes_unloaded k hstop hload) (takes_unloaded k hstop hload)
          (.atop (.act p stack _))
      | ok r =>
        have hinner : (ofStack [r]).Inner := ⟨trivial,nofun⟩
        exact .of_takes (takes_call k hstop hload) (takes_call k hstop hload)
          (.atop (.call p stack k hinner))

theorem together_count (r : Frame U N) (stack : List (Frame U N)) : Together lib c base callers tail w
    ⟨.turn (.count (r :: stack)),base⟩ ⟨.turn (.count (r :: (stack ++ tail))),callers⟩ := by
  have hafter : ∀ stopped, Parallel base callers tail (counted stack base r stopped)
      (counted (stack ++ tail) callers r stopped) :=
    fun stopped => parallel_afterCount stopped r stack
  cases hcount : (w.context c).countInstruction with
  | mk count context =>
    have hquiet (hgo : count ≠ .stop) (hnone : count = .tick → context.hook = none) :
      Together lib c base callers tail w
        (Job.place stack base (.run r)) (Job.place (stack ++ tail) callers (.run r)) :=
      .of_takes (takes_counted_quiet hcount hgo hnone) (takes_counted_quiet hcount hgo hnone)
        (hafter false)
    cases count with
    | stop => exact .of_takes (takes_counted_stop hcount) (takes_counted_stop hcount) (hafter true)
    | pass => exact hquiet nofun nofun
    | tick =>
      cases hhook : context.hook with
      | none => exact hquiet nofun fun _ => hhook
      | some hook =>
        exact .of_takes (takes_counted_tick hcount hhook) (takes_counted_tick hcount hhook)
          (.atop (.counting (Probe.start hook .tick) r stack))

/-- The code of a call at the bottom of both goes on by itself, until its scheduler ends. -/
theorem together_call (p : Part) (stack : List (Frame U N)) (k : Outcome → Act (p.Report (Frame U N)))
    (ht : t.Inner) : Together lib c base callers tail w (t.under (p.caller stack k :: base))
      (t.under (p.caller (stack ++ tail) k :: callers)) := by
  by_cases hopen : t.Returned []
  · obtain ⟨outcome,left,rfl⟩ := hopen
    have hback : Parallel base callers tail (Job.place stack base (.act p (k outcome)))
        (Job.place (stack ++ tail) callers (.act p (k outcome))) := .atop (.act p stack _)
    cases p <;> exact .ran rfl rfl hback
  · obtain ⟨hnext,_⟩ := inner_step lib c w [] ht hopen
    have hunder := fun base => (inner_step lib c w base ht hopen).2
    cases hown : t.step lib c w with
    | blocked deadline =>
      simp only [hown, Progress.map] at hunder
      exact .blocked (hunder _) (hunder _)
    | ran t' u =>
      simp only [hown, Progress.map] at hunder
      refine .ran (hunder _) (hunder _) ?_
      rcases hnext t' u hown with hinner | ⟨text,rfl⟩
      · exact .atop (.call p stack k hinner)
      · exact .landed _ (.panic text) (.panic text)

/-- The two strands stay together until the stack has come to its end in both. -/
theorem Atop.together (h : Atop base callers tail s t) : Together lib c base callers tail w s t := by
  cases h with
  | count r stack => exact together_count r stack
  | counting probe r stack =>
    have hlooks : ∀ stack callers, Looks lib c (fun probe => ⟨.counting probe (r :: stack),callers⟩)
        (counted stack callers r) := fun _ _ => looks_counting r
    exact Together.of_looks (hlooks stack base) (hlooks (stack ++ tail) callers) probe
      (fun next => .atop (.counting next r stack))
      (fun stopped => parallel_afterCount stopped r stack)
  | step r stack => exact .ran rfl rfl (.atop (.act .step stack (lib.advance r)))
  | offer r stack outcome frames =>
    exact .ran rfl rfl (.atop (.act (.receive frames) stack (lib.accept outcome r)))
  | act p stack a => exact together_act p stack a
  | check p stack probe k =>
    exact Together.of_looks (looks_check p k) (looks_check p k) probe
      (fun next => .atop (.check p stack next k))
      (fun stopped => .atop (.act p stack (k stopped)))
  | wait p stack n deadline k =>
    by_cases hn : w.isNotified n = true
    · exact .of_takes (takes_notified k hn) (takes_notified k hn) (.atop (.act p stack _))
    · by_cases hlate : deadline ≤ w.clock
      · exact .of_takes (takes_expired k hn hlate) (takes_expired k hn hlate) (.atop (.act p stack _))
      · have hblocked : ∀ stack callers, (p.wait stack callers n deadline k).step lib c w =
            .blocked (some deadline) := by
          intro stack callers
          cases p <;> simp only [Part.wait, Strand.step, if_neg hn, if_neg hlate]
        exact .blocked (hblocked stack base) (hblocked (stack ++ tail) callers)
  | call p stack k ht => exact together_call p stack k ht

end Strand

end Workers
