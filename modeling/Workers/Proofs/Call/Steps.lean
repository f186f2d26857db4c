import Mathlib.Data.Nat.Notation
import Workers.Proofs.Call.Evaluation
/-! # Strands step by step

The runs of a strand with what can be told of them, and one lemma for each step from where a job of
the evaluator is placed on a stack: what happens, what shows of it, and where the strand is then.
-/
namespace Workers

variable {U N : Type}

def Phase.opening : Phase (Frame U N) → List (Event U N)
  | .turn (.step r _) => [.step r]
  | _ => []

def Phase.final : Phase (Frame U N) → Bool
  | .turn (.ended ..) | .turn (.escape ..) | .exit _ => true
  | _ => false

def Role.described (stopping : Bool) : (role : Role (Frame U N)) → role.Report → List (Event U N)
  | .step _, (r,.fault _) => if stopping then [] else [.describe r]
  | .receive .., (r,.error _) => [.describe r]
  | _, _ => []

namespace Strand

def actEvents (lib : Library U N) (stopping : Bool) (role : Role (Frame U N)) :
    Act role.Report → List (Event U N)
  | .done report => role.described stopping report
  | .call f arguments _ =>
    if stopping then []
    else
      match lib.load f arguments with
      | .error fault => [.handle fault []]
      | .ok _ => []
  | _ => []

def events (lib : Library U N) (c : ContextId) (w : World) (s s' : Strand (Frame U N)) (w' : World) :
    List (Event U N) :=
  match s.phase with
  | .turn (.step ..) | .turn (.ended ..) => []
  | .turn (.offer r _ outcome _) => [.receive r outcome]
  | .turn (.escape fault frames) => [.moment w w',.handle fault frames]
  | .acting role act => .moment w w' :: actEvents lib (w.context c).stopping role act
  | _ => .moment w w' :: s'.phase.opening

def Takes (lib : Library U N) (c : ContextId) (w : World) (s : Strand (Frame U N))
    (tr : List (Event U N)) (s' : Strand (Frame U N)) : Prop :=
  ∃ w', s.step lib c w = .ran s' w' ∧ s.events lib c w s' w' = tr

inductive Runs (lib : Library U N) (c : ContextId) :
    ℕ → Strand (Frame U N) → List (Event U N) → Strand (Frame U N) → Prop
  | refl (s : Strand (Frame U N)) : Runs lib c 0 s [] s
  | step {n : ℕ} {s s' s'' : Strand (Frame U N)} {w : World} {tr tr' : List (Event U N)}
      (h : Takes lib c w s tr s') (rest : Runs lib c n s' tr' s'') : Runs lib c (n + 1) s (tr ++ tr') s''

abbrev Leads (lib : Library U N) (c : ContextId) (s : Strand (Frame U N)) (tr : List (Event U N))
    (s' : Strand (Frame U N)) : Prop := ∃ n, Runs lib c n s tr s'

variable {lib : Library U N} {c : ContextId} {s s' s'' : Strand (Frame U N)} {w : World}
  {tr tr' : List (Event U N)} {n m : ℕ}

theorem Takes.det (h : Takes lib c w s tr s') (h' : Takes lib c w s tr' s'') : tr = tr' ∧ s' = s'' := by
  obtain ⟨u,hu,htr⟩ := h
  obtain ⟨v,hv,htr'⟩ := h'
  rw [hu] at hv
  cases hv
  exact ⟨htr.symm.trans htr',rfl⟩

theorem Takes.leads (h : Takes lib c w s tr s') : Leads lib c s tr s' := by
  have hone : Runs lib c 1 s (tr ++ []) s' := .step h (.refl s')
  rw [List.append_nil] at hone
  exact ⟨1,hone⟩

theorem Takes.head (h : Takes lib c w s tr s') (h' : Leads lib c s' tr' s'') :
    Leads lib c s (tr ++ tr') s'' := by
  obtain ⟨n,hn⟩ := h'
  exact ⟨n + 1,.step h hn⟩

theorem Runs.trans (h : Runs lib c n s tr s') (h' : Runs lib c m s' tr' s'') :
    Runs lib c (m + n) s (tr ++ tr') s'' := by
  induction h with
  | refl s => exact h'
  | step h _ ih =>
    rw [List.append_assoc]
    exact .step h (ih h')

theorem Leads.trans (h : Leads lib c s tr s') (h' : Leads lib c s' tr' s'') :
    Leads lib c s (tr ++ tr') s'' := by
  obtain ⟨n,hn⟩ := h
  obtain ⟨m,hm⟩ := h'
  exact ⟨m + n,hn.trans hm⟩

end Strand

def Turn.handOver (below : List (Frame U N)) (outcome : Except Fault (List Value))
    (frames : List String) :
    Turn (Frame U N) :=
  match below, outcome with
  | [], .ok values => .ended (.ok values) []
  | [], .error fault => .escape fault frames
  | r :: below, outcome => .offer r below outcome frames

section Place

variable (below : List (Frame U N)) (callers : List (Caller (Frame U N)))

def Job.place : Job U N → Strand (Frame U N)
  | .run r => ⟨.turn (.count (r :: below)),callers⟩
  | .act .step a => ⟨.acting (.step below) a,callers⟩
  | .act (.receive frames) a => ⟨.acting (.receive below frames) a,callers⟩

def Part.check (probe : Probe) : (p : Part) → (Bool → Act (p.Report (Frame U N))) → Strand (Frame U N)
  | .step, k => ⟨.checking probe (.step below) k,callers⟩
  | .receive frames, k => ⟨.checking probe (.receive below frames) k,callers⟩

def Part.wait (n : NotifierId) (deadline : ℕ) :
    (p : Part) → (Bool → Act (p.Report (Frame U N))) → Strand (Frame U N)
  | .step, k => ⟨.waiting n deadline (.step below) k,callers⟩
  | .receive frames, k => ⟨.waiting n deadline (.receive below frames) k,callers⟩

def Part.caller : (p : Part) → (Outcome → Act (p.Report (Frame U N))) → Caller (Frame U N)
  | .step, k => ⟨.step below,k⟩
  | .receive frames, k => ⟨.receive below frames,k⟩

inductive Delivered : RunnableOutcome → Strand (Frame U N) → Prop
  | ok (values : List Value) : Delivered (.ok values) ⟨.turn (.handOver below (.ok values) []),callers⟩
  | failure (fault : Fault) (frames : List String) :
      Delivered (.failure fault frames) ⟨.turn (.handOver below (.error fault) frames),callers⟩
  | stop (left : List (Frame U N)) : Delivered .stop ⟨.turn (.ended (.error .stop) left),callers⟩
  | panic (text : String) : Delivered (.panic text) ⟨.exit (.panicked text),[]⟩

end Place

section Takes

open Strand

variable {lib : Library U N} {c : ContextId} {w : World} {below : List (Frame U N)}
  {callers : List (Caller (Frame U N))} {p : Part} {r : Frame U N}

theorem takes_query (q : Query) (k : q.Answer → Act (p.Report (Frame U N))) :
    Takes lib c w (Job.place below callers (.act p (.query q k))) [.moment w (w.answer c q).2]
      (Job.place below callers (.act p (k (w.answer c q).1))) := by
  cases p <;> exact ⟨_,rfl,rfl⟩

theorem takes_unhooked {kind : CheckKind} (k : Bool → Act (p.Report (Frame U N)))
    (h : (w.context c).hook = none) :
    Takes lib c w (Job.place below callers (.act p (.check kind k))) [.moment w w]
      (Job.place below callers (.act p (k false))) := by
  cases p <;> exact ⟨w,by simp [Job.place, step, stepAct, h],rfl⟩

theorem takes_hooked {kind : CheckKind} {hook : Hook} (k : Bool → Act (p.Report (Frame U N)))
    (h : (w.context c).hook = some hook) :
    Takes lib c w (Job.place below callers (.act p (.check kind k))) [.moment w w]
      (p.check below callers (Probe.start hook kind) k) := by
  cases p <;> exact ⟨w,by simp [Job.place, Part.check, step, stepAct, h],rfl⟩

theorem takes_wait (n : NotifierId) (d : Duration) (k : Bool → Act (p.Report (Frame U N))) :
    Takes lib c w (Job.place below callers (.act p (.wait n d k))) [.moment w w]
      (p.wait below callers n (w.after d.millis) k) := by
  cases p <;> exact ⟨w,rfl,rfl⟩

theorem takes_panic (text : String) :
    Takes lib c w (Job.place below callers (.act p (.panic text))) [.moment w w]
      ⟨.exit (.panicked text),[]⟩ := by
  cases p <;> exact ⟨w,rfl,rfl⟩

section Call

variable {f : Routine} {arguments : List Value} (k : Outcome → Act (p.Report (Frame U N)))

theorem takes_uncalled (h : (w.context c).stopping = true) :
    Takes lib c w (Job.place below callers (.act p (.call f arguments k))) [.moment w w]
      (Job.place below callers (.act p (k (.error .stop)))) := by
  cases p <;> exact ⟨w,by simp [Job.place, step, stepAct, h],by simp [Job.place, events, actEvents, h]⟩

theorem takes_unloaded {fault : Fault} (h : ¬ (w.context c).stopping = true)
    (hload : lib.load f arguments = .error fault) :
    Takes lib c w (Job.place below callers (.act p (.call f arguments k))) [.moment w w,.handle fault []]
      (Job.place below callers (.act p (k (.error (.fault ((w.context c).handleFault fault [])))))) := by
  cases p <;>
    exact ⟨w,
      by simp [Job.place, step, stepAct, h, hload],by simp [Job.place, events, actEvents, h, hload]⟩

theorem takes_call (h : ¬ (w.context c).stopping = true) (hload : lib.load f arguments = .ok r) :
    Takes lib c w (Job.place below callers (.act p (.call f arguments k))) [.moment w w]
      (Job.place [] (p.caller below k :: callers) (.run r)) := by
  cases p <;> exact ⟨w,by simp [Job.place, Part.caller, step, stepAct, h, hload],
    by simp [Job.place, events, actEvents, h, hload]⟩

end Call

theorem takes_escape (fault : Fault) (frames : List String) :
    Takes lib c w ⟨.turn (.escape fault frames),callers⟩ [.moment w w,.handle fault frames]
      ⟨.turn (.ended (.error (.fault ((w.context c).handleFault fault frames))) []),callers⟩ :=
  ⟨w,rfl,rfl⟩

theorem takes_launch {child : Frame U N} (h : ¬ (w.context c).stopping = true) :
    Takes lib c w (Job.place below callers (.act .step (.done (r,.launch child)))) [.moment w w]
      (Job.place (r :: below) callers (.run child)) :=
  ⟨w,by simp [Job.place, step, stepAct, afterAct, Turn.afterStep, h],rfl⟩

theorem takes_finish {values : List Value} (h : ¬ (w.context c).stopping = true) :
    Takes lib c w (Job.place below callers (.act .step (.done (r,.finish values)))) [.moment w w]
      ⟨.turn (.handOver below (.ok values) []),callers⟩ := by
  refine ⟨w,?_,rfl⟩
  cases below <;> simp [Job.place, step, stepAct, afterAct, Turn.afterStep, Turn.handOver, h]

end Takes

structure Asks (lib : Library U N) (c : ContextId) (s : Strand (Frame U N))
    (Q : List (Event U N) → Option Bool → Prop) (after : Bool → Strand (Frame U N)) : Prop where
  cut : Q [] none
  open_leads {tr : List (Event U N)} (h : Q tr none) : ∃ s', Strand.Leads lib c s tr s'
  leads {tr : List (Event U N)} {b : Bool} (h : Q tr (some b)) :
    Strand.Leads lib c s (tr ++ (after b).phase.opening) (after b)
  runs {n : ℕ} {tr : List (Event U N)} {s' : Strand (Frame U N)} (h : Strand.Runs lib c n s tr s') :
    Q tr none ∧ s'.phase.final = false ∨ ∃ tr₁ tr₂ b m, m < n ∧
    tr = tr₁ ++ ((after b).phase.opening ++ tr₂) ∧
      Q tr₁ (some b) ∧ Strand.Runs lib c m (after b) tr₂ s'

section Asks

open Strand

variable {lib : Library U N} {c : ContextId} {below : List (Frame U N)}
    {callers : List (Caller (Frame U N))}
  {s s' : Strand (Frame U N)} {tr : List (Event U N)} {n : ℕ}

theorem Strand.Runs.split (h : Runs lib c n s tr s') : n = 0 ∧ tr = [] ∧ s' = s ∨
    ∃ m w s₁ tr₁ tr₂, n = m + 1 ∧ tr = tr₁ ++ tr₂ ∧ Takes lib c w s tr₁ s₁ ∧ Runs lib c m s₁ tr₂ s' := by
  cases h with
  | refl => exact .inl ⟨rfl,rfl,rfl⟩
  | step h rest => exact .inr ⟨_,_,_,_,_,rfl,rfl,h,rest⟩

structure Looks (lib : Library U N) (c : ContextId) (look : Probe → Strand (Frame U N))
    (after : Bool → Strand (Frame U N)) : Prop where
  busy (probe : Probe) : (look probe).phase.final = false
  goto {probe next : Probe} {w w' : World} (h : probe.step w = .goto next w') :
    Takes lib c w (look probe) [.moment w w'] (look next)
  finish {probe : Probe} {stopped : Bool} {w w' : World} (h : probe.step w = .finish stopped w') :
    Takes lib c w (look probe) (.moment w (observe w' c stopped) :: (after stopped).phase.opening)
    (after stopped)
  blocked {probe : Probe} {w : World} (h : probe.step w = .blocked) : (look probe).step lib c w =
  .blocked none

variable {look : Probe → Strand (Frame U N)} {after : Bool → Strand (Frame U N)}

theorem Looks.leads (hl : Looks lib c look after) {probe : Probe} {b : Option Bool}
    (h : Probes U N c probe tr b) :
    (b = none → ∃ s', Leads lib c (look probe) tr s') ∧
      ∀ stopped, b = some stopped → Leads lib c (look probe) (tr ++ (after stopped).phase.opening)
        (after stopped) := by
  induction h with
  | cut probe => exact ⟨fun _ => ⟨_,0,.refl _⟩,nofun⟩
  | goto h _ ih =>
    obtain ⟨hopen,hdone⟩ := ih
    refine ⟨fun hb => ?_,fun stopped hb => (hl.goto h).head (hdone stopped hb)⟩
    obtain ⟨s',hs'⟩ := hopen hb
    exact ⟨s',(hl.goto h).head hs'⟩
  | finish h =>
    refine ⟨nofun,fun stopped hb => ?_⟩
    cases hb
    exact (hl.finish h).leads

theorem Looks.runs (hl : Looks lib c look after) {probe : Probe} (h : Runs lib c n (look probe) tr s') :
    Probes U N c probe tr none ∧ s'.phase.final = false ∨ ∃ tr₁ tr₂ b m, m < n ∧
      tr = tr₁ ++ ((after b).phase.opening ++ tr₂) ∧ Probes U N c probe tr₁ (some b) ∧
        Runs lib c m (after b) tr₂ s' := by
  induction n generalizing probe tr with
  | zero =>
    cases h
    exact .inl ⟨.cut probe,hl.busy probe⟩
  | succ n ih =>
    cases h with
    | @step _ _ s₁ _ w tr₁ tr₂ h rest =>
      cases hp : probe.step w with
      | goto next w' =>
        obtain ⟨rfl,rfl⟩ := h.det (hl.goto hp)
        rcases ih rest with ⟨hopen,hs'⟩ | ⟨tr₁,tr₂,b,m,hm,rfl,hdone,hrest⟩
        · exact .inl ⟨.goto hp hopen,hs'⟩
        · exact .inr ⟨_ :: tr₁,tr₂,b,m,Nat.lt_succ_of_lt hm,rfl,.goto hp hdone,hrest⟩
      | finish stopped w' =>
        obtain ⟨rfl,rfl⟩ := h.det (hl.finish hp)
        exact .inr ⟨[_],tr₂,stopped,n,Nat.lt_succ_self n,rfl,.finish hp,rest⟩
      | blocked =>
        obtain ⟨w',hstep,_⟩ := h
        rw [hl.blocked hp] at hstep
        cases hstep

theorem Looks.asks (hl : Looks lib c look after) (probe : Probe) :
    Asks lib c (look probe) (Probes U N c probe) after where
  cut := .cut probe
  open_leads h := (hl.leads h).1 rfl
  leads h := (hl.leads h).2 _ rfl
  runs h := hl.runs h

def counted (below : List (Frame U N)) (callers : List (Caller (Frame U N))) (r : Frame U N)
    (stopped : Bool) :
    Strand (Frame U N) := ⟨.turn (Turn.afterCount stopped (r :: below)),callers⟩

theorem looks_counting (r : Frame U N) :
    Looks lib c (fun probe => ⟨.counting probe (r :: below),callers⟩)
    (counted below callers r) where
  busy _ := rfl
  goto h := ⟨_,by simp [step, h],rfl⟩
  finish {probe stopped w w'} h := by
    refine ⟨_,by simp only [step, h]; rfl,?_⟩
    rfl
  blocked h := by simp [step, h]

theorem looks_check (p : Part) (k : Bool → Act (p.Report (Frame U N))) :
    Looks lib c (fun probe => p.check below callers probe k)
      (fun b => Job.place below callers (.act p (k b))) where
  busy _ := by cases p <;> rfl
  goto h := by cases p <;> exact ⟨_,by simp [Part.check, step, h],rfl⟩
  finish h := by cases p <;> exact ⟨_,by simp only [Part.check, step, h]; rfl,rfl⟩
  blocked h := by cases p <;> simp [Part.check, step, h]

section Wait

variable {w : World} {p : Part} {i : NotifierId} {deadline : ℕ} (k : Bool → Act (p.Report (Frame U N)))

theorem takes_notified (h : w.isNotified i = true) :
    Takes lib c w (p.wait below callers i deadline k) [.moment w w]
    (Job.place below callers (.act p (k true))) := by
  cases p <;> exact ⟨w,by simp only [Part.wait, step, h, if_true]; rfl,rfl⟩

theorem takes_expired (h : ¬ w.isNotified i = true) (hlate : deadline ≤ w.clock) :
    Takes lib c w (p.wait below callers i deadline k) [.moment w w]
      (Job.place below callers (.act p (k false))) := by
  cases p <;> exact ⟨w,by simp only [Part.wait, step, if_neg h, if_pos hlate]; rfl,rfl⟩

end Wait

section Count

variable {w : World} {context : Context} {r : Frame U N}

theorem takes_counted_stop (h : (w.context c).countInstruction = (.stop,context)) :
    Takes lib c w (Job.place below callers (.run r)) [.moment w (w.setContext c context)]
      (counted below callers r true) := by
  exact ⟨_,by simp only [Job.place, step, stepTurn, h]; rfl,rfl⟩

theorem takes_counted_quiet {count : Count} (h : (w.context c).countInstruction = (count,context))
    (hgo : count ≠ .stop) (hquiet : count = .tick → context.hook = none) :
    Takes lib c w (Job.place below callers (.run r)) [.moment w (w.setContext c context),.step r]
      (counted below callers r false) := by
  have hstep : (Job.place below callers (.run r)).step lib c w =
      .ran (counted below callers r false) (w.setContext c context) := by
    simp only [Job.place, step, stepTurn, h]
    cases count with
    | stop => exact absurd rfl hgo
    | pass => rfl
    | tick => simp [hquiet rfl, counted]
  exact ⟨_,hstep,rfl⟩

theorem takes_counted_tick {hook : Hook} (h : (w.context c).countInstruction = (.tick,context))
    (hhook : context.hook = some hook) :
    Takes lib c w (Job.place below callers (.run r)) [.moment w (w.setContext c context)]
      ⟨.counting (Probe.start hook .tick) (r :: below),callers⟩ := by
  exact ⟨_,by simp only [Job.place, step, stepTurn, h, hhook],rfl⟩

end Count

end Asks

end Workers
