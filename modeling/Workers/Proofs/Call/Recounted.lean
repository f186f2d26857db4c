import Workers.Proofs.Call.Comparison
/-! # Counting without a hook

Without a hook there is nobody to call when a tick is due.  Code may count, but all that it can make
of a tick is a check, which comes to nothing then: it does the same however much its context has
counted before.
-/
namespace Workers

variable {U N : Type}

/-- The same code, but for checks that come to nothing, after counts that may bring up a tick or not. -/
inductive Act.Level {α : Type} : Act α → Act α → Prop
  | done (a : α) : Level (.done a) (.done a)
  | query {q : Query} {k k' : q.Answer → Act α} (hq : q ≠ .count)
      (hk : ∀ answer, Level (k answer) (k' answer)) :
      Level (.query q k) (.query q k')
  | count {k k' : Count → Act α} (hstop : Level (k .stop) (k' .stop))
      (hgo : ∀ n m, n ≠ .stop → m ≠ .stop → Level (k n) (k' m)) :
      Level (.query .count k) (.query .count k')
  | before {kind : CheckKind} {k : Bool → Act α} {a : Act α} (hk : Level (k false) a) :
      Level (.check kind k) a
  | after {kind : CheckKind} {k : Bool → Act α} {a : Act α} (hk : Level a (k false)) :
      Level a (.check kind k)
  | wait {n : NotifierId} {d : Duration} {k k' : Bool → Act α}
      (hk : ∀ notified, Level (k notified) (k' notified)) :
      Level (.wait n d k) (.wait n d k')
  | call {routine : Routine} {arguments : List Value} {k k' : Outcome → Act α}
      (hk : ∀ outcome, Level (k outcome) (k' outcome)) :
      Level (.call routine arguments k) (.call routine arguments k')
  | panic (text : String) : Level (.panic text) (.panic text)

namespace Act

variable {α β : Type} {a a' : Act α}

theorem Level.symm (h : a.Level a') : a'.Level a := by
  induction h with
  | done x => exact .done x
  | query hq _ ih => exact .query hq ih
  | count _ _ ihstop ihgo => exact .count ihstop fun n m hn hm => ihgo m n hm hn
  | before _ ih => exact .after ih
  | after _ ih => exact .before ih
  | wait _ ih => exact .wait ih
  | call _ ih => exact .call ih
  | panic text => exact .panic text

theorem Level.bind {f f' : α → Act β} (h : a.Level a') (hf : ∀ x, (f x).Level (f' x)) :
    (a.bind f).Level (a'.bind f') := by
  induction h with
  | done x => exact hf x
  | query hq _ ih => exact .query hq ih
  | count _ _ ihstop ihgo => exact .count ihstop ihgo
  | before _ ih => exact .before ih
  | after _ ih => exact .after ih
  | wait _ ih => exact .wait ih
  | call _ ih => exact .call ih
  | panic text => exact .panic text

theorem level_countInstruction : countInstruction.Level countInstruction := by
  refine .count (.done true) fun n m hn hm => ?_
  cases n <;> cases m <;> first | exact absurd rfl hn | exact absurd rfl hm | skip
  · exact .done false
  · exact .after (.done false)
  · exact .before (.done false)
  · exact .before (.after (.done false))

end Act

/-- A library whose code makes nothing of a tick but a check. -/
structure Library.IgnoresTicks (lib : Library U N) : Prop where
  step : ∀ u, (lib.step u).Level (lib.step u)
  receive : ∀ u outcome, (lib.receive u outcome).Level (lib.receive u outcome)
  body : ∀ n, (lib.body n).Level (lib.body n)

namespace Library.IgnoresTicks

variable {lib : Library U N}

theorem advance (hlib : lib.IgnoresTicks) (frame : Frame U N) :
    (lib.advance frame).Level (lib.advance frame) := by
  cases frame with
  | own u => exact (hlib.step u).bind fun _ => .done _
  | native name body =>
    cases body with
    | none => exact .done _
    | some n =>
      refine (hlib.body n).bind fun report => ?_
      obtain ⟨n',stretch⟩ := report
      cases stretch <;> exact .done _
  | guarded f phase =>
    cases phase with
    | launch arguments =>
      simp only [Library.advance]
      split <;> exact .done _
    | waiting | finished => exact .done _

theorem accept (hlib : lib.IgnoresTicks) (outcome : Except Fault (List Value)) (frame : Frame U N) :
    (lib.accept outcome frame).Level (lib.accept outcome frame) := by
  cases frame with
  | own u => exact (hlib.receive u outcome).bind fun _ => .done _
  | native | guarded => exact .done _

end Library.IgnoresTicks

namespace Context

variable (context : Context) (executed : UInt32)

theorem recount_of_record {before after after' : Context}
    (h : after = { before with references := after.references })
    (h' : after' = { before.recount executed with references := after'.references })
    (hsame : after'.hookless = after.hookless) : after' = after.recount executed := by
  have hreferences : after'.references = after.references := by
    change after'.hookless.references = after.hookless.references
    rw [hsame]
  rw [h', hreferences, h]
  rfl

theorem load_recount (s : Store) (object : Stored) : (context.recount executed).load s object =
    (context.load s object).map fun found => (found.1,found.2.1.recount executed,found.2.2) := by
  have hsame := (load_hookless context s object).symm.trans
    (load_hookless (context.recount executed) s object)
  cases hfound : context.load s object with
  | error fault =>
    cases hfound' : (context.recount executed).load s object with
    | error fault' =>
      rw [hfound, hfound'] at hsame
      cases hsame
      rfl
    | ok found' =>
      rw [hfound, hfound'] at hsame
      cases hsame
  | ok found =>
    cases hfound' : (context.recount executed).load s object with
    | error fault' =>
      rw [hfound, hfound'] at hsame
      cases hsame
    | ok found' =>
      obtain ⟨value,after,store⟩ := found
      obtain ⟨value',after',store'⟩ := found'
      rw [hfound, hfound'] at hsame
      simp only [Except.map, Except.ok.injEq, Prod.mk.injEq] at hsame
      obtain ⟨rfl,hafter,rfl⟩ := hsame
      rw [recount_of_record executed (World.load_record hfound) (World.load_record hfound') hafter.symm]
      rfl

theorem get_recount (m : Memory) (table key : Value) : (context.recount executed).get m table key =
    ((context.get m table key).1,(context.get m table key).2.1.recount executed,
      (context.get m table key).2.2) := by
  have hsame := (get_hookless context m table key).symm.trans
    (get_hookless (context.recount executed) m table key)
  simp only [Prod.mk.injEq] at hsame
  obtain ⟨hvalue,hafter,hstore⟩ := hsame
  have hrecord := World.get_record context m table key
  have hrecord' := World.get_record (context.recount executed) m table key
  rw [hvalue, hstore, ← recount_of_record executed hrecord hrecord' hafter.symm]

theorem destroy_recount (s : Store) : (context.recount executed).destroy s =
    ((context.destroy s).1.recount executed,(context.destroy s).2) := by
  unfold destroy
  change (if context.destroyed = true then _ else _) = _
  split <;> rfl

end Context

namespace World.Recounts

variable {c : ContextId} {w v : World}

theorem setMemory (h : w.Recounts c v) (memory : Memory) :
    ({ w with memory } : World).Recounts c { v with memory } := by
  obtain ⟨executed,rfl⟩ := h
  exact ⟨executed,rfl⟩

theorem setStore (h : w.Recounts c v) (s : Store) : (w.setStore s).Recounts c (v.setStore s) := by
  obtain ⟨executed,rfl⟩ := h
  exact ⟨executed,rfl⟩

theorem setNotifiers (h : w.Recounts c v) (notifiers : Array Notifier) :
    ({ w with notifiers } : World).Recounts c { v with notifiers } := by
  obtain ⟨executed,rfl⟩ := h
  exact ⟨executed,rfl⟩

theorem destroyUnhooked (h : w.Recounts c v) :
    (w.destroyUnhooked c).Recounts c (v.destroyUnhooked c) := by
  obtain ⟨executed,hcontext⟩ := h.context
  have hstore : v.store = w.store := by
    obtain ⟨_,rfl⟩ := h
    rfl
  simp only [World.destroyUnhooked, hcontext, hstore, Context.destroy_recount]
  exact (h.setStore _).setContext _ executed

theorem destroy (h : w.Recounts c v) (hhook : (w.context c).hook = none) :
    (w.destroy c).Recounts c (v.destroy c) := by
  obtain ⟨executed,hcontext⟩ := h.context
  have hhook' : (v.context c).hook = none := by
    rw [hcontext]
    exact hhook
  have hdestroyed : (v.context c).destroyed = (w.context c).destroyed := by
    rw [hcontext]
    rfl
  have hgone : ∀ {u : World}, (u.context c).hook = none → ¬ (u.context c).destroyed = true →
      u.destroy c = u.destroyUnhooked c := by
    intro u hnone hdead
    have hself : u.clearHook c = u := Code.clearHook_self hnone
    have hclear : u.destroy c = (u.clearHook c).destroyUnhooked c := by
      simp only [World.destroy, if_neg hdead]
      rfl
    rw [hclear, hself]
  by_cases hdead : (w.context c).destroyed = true
  · rw [World.destroy, World.destroy, if_pos hdead, if_pos (hdestroyed.trans hdead)]
    exact h
  · rw [hgone hhook hdead, hgone hhook' (hdestroyed ▸ hdead)]
    exact h.destroyUnhooked

theorem share (h : w.Recounts c v) (value : Value) :
    (v.share c value).1 = (w.share c value).1 ∧ (w.share c value).2.Recounts c (v.share c value).2 := by
  obtain ⟨executed,hcontext⟩ := h.context
  have hstored : value.store v.store v.memory.heap (v.context c).registry =
      value.store w.store w.memory.heap (w.context c).registry := by
    rw [hcontext]
    obtain ⟨_,rfl⟩ := h
    rfl
  unfold World.share
  dsimp only
  rw [hstored, hcontext]
  rcases value.store w.store w.memory.heap (w.context c).registry with ⟨_ | object,s⟩
  · exact ⟨rfl,h.setStore s⟩
  · dsimp only
    rw [Context.load_recount]
    cases (w.context c).load s object with
    | error fault => exact ⟨rfl,h.setStore _⟩
    | ok found => exact ⟨rfl,(h.setStore _).setContext _ executed⟩

/-- Only a count is answered by what has been counted. -/
theorem answer (h : w.Recounts c v) (hhook : (w.context c).hook = none) {q : Query} (hq : q ≠ .count) :
    (v.answer c q).1 = (w.answer c q).1 ∧ (w.answer c q).2.Recounts c (v.answer c q).2 := by
  obtain ⟨executed,hcontext⟩ := h.context
  have hmemory : v.memory = w.memory := by
    obtain ⟨_,rfl⟩ := h
    rfl
  have hnotifiers : v.notifiers = w.notifiers := by
    obtain ⟨_,rfl⟩ := h
    rfl
  have hstore : v.store = w.store := congrArg Memory.store hmemory
  cases q with
  | count => exact absurd rfl hq
  | destroy => exact ⟨rfl,h.destroy hhook⟩
  | newTable =>
    simp only [World.answer, hmemory]
    exact ⟨trivial,h.setMemory _⟩
  | newShared =>
    simp only [World.answer, hcontext, hstore]
    exact ⟨rfl,(h.setStore _).setContext _ executed⟩
  | get table key =>
    simp only [World.answer, hcontext, hmemory, Context.get_recount]
    exact ⟨trivial,(h.setStore _).setContext _ executed⟩
  | set table key value =>
    simp only [World.answer, hcontext, hmemory]
    exact ⟨rfl,h.setMemory _⟩
  | length table =>
    simp only [World.answer, hcontext, hmemory]
    exact ⟨rfl,h⟩
  | share value => exact h.share value
  | paths | hookStep =>
    simp only [World.answer, hcontext]
    exact ⟨rfl,h⟩
  | notify n =>
    simp only [World.answer, World.notify, hnotifiers]
    exact ⟨trivial,h.setNotifiers _⟩
  | isNotified n =>
    simp only [World.answer, World.isNotified, hnotifiers]
    exact ⟨trivial,h⟩
  | newNotifier =>
    simp only [World.answer, World.addNotifier, hnotifiers]
    exact ⟨trivial,h.setNotifiers _⟩
  | retarget target =>
    have hhook' : (v.context c).hook = none := by
      rw [hcontext]
      exact hhook
    simp only [World.answer, World.retarget, hhook, hhook']
    exact ⟨trivial,h⟩

end World.Recounts

inductive Phase.Level : Phase (Frame U N) → Phase (Frame U N) → Prop
  | turn (t : Turn (Frame U N)) : Level (.turn t) (.turn t)
  | acting (role : Role (Frame U N)) {a a' : Act role.Report} (h : a.Level a') :
      Level (.acting role a) (.acting role a')
  | waiting (n : NotifierId) (deadline : ℕ) (role : Role (Frame U N)) {k k' : Bool → Act role.Report}
      (h : ∀ notified, (k notified).Level (k' notified)) :
      Level (.waiting n deadline role k) (.waiting n deadline role k')
  | exit (e : Exit (Frame U N)) : Level (.exit e) (.exit e)

inductive Caller.Level : Caller (Frame U N) → Caller (Frame U N) → Prop
  | mk (role : Role (Frame U N)) {k k' : Outcome → Act role.Report}
      (h : ∀ outcome, (k outcome).Level (k' outcome)) :
      Level ⟨role,k⟩ ⟨role,k'⟩

theorem Phase.Level.symm {p p' : Phase (Frame U N)} (h : p.Level p') : p'.Level p := by
  cases h with
  | turn t => exact .turn t
  | acting role ha => exact .acting role ha.symm
  | waiting n deadline role hk => exact .waiting n deadline role fun notified => (hk notified).symm
  | exit e => exact .exit e

theorem Caller.Level.symm {caller caller' : Caller (Frame U N)} (h : caller.Level caller') :
    caller'.Level caller := by
  cases h with
  | mk role hk => exact .mk role fun outcome => (hk outcome).symm

namespace Strand

structure Level (c : ContextId) (x y : World × Strand (Frame U N)) : Prop where
  worlds : x.1.Recounts c y.1
  hook : (x.1.context c).hook = none
  phase : x.2.phase.Level y.2.phase
  callers : List.Forall₂ Caller.Level x.2.callers y.2.callers

variable {lib : Library U N} {c : ContextId} {w v w' : World} {s s' : Strand (Frame U N)}
  {callers callers' : List (Caller (Frame U N))} {x y : World × Strand (Frame U N)}

theorem Level.symm (h : Level c x y) : Level c y x where
  worlds := h.worlds.symm
  hook := h.worlds.hook.trans h.hook
  phase := h.phase.symm
  callers := List.Forall₂.flip (h.callers.imp fun _ _ hcaller => hcaller.symm)

theorem level_afterAct (hlib : lib.IgnoresTicks) (stopping : Bool) (role : Role (Frame U N))
    (report : role.Report) :
    (afterAct lib stopping role report).Level (afterAct lib stopping role report) := by
  cases role with
  | step | receive => exact .turn _
  | loneStep =>
    obtain ⟨frame,move⟩ := report
    cases move with
    | again => exact .acting .loneStep (hlib.advance frame)
    | proceed | launch | finish | fault | stop => exact .exit _
  | loneReceive | outside => exact .exit _

def Matched (lib : Library U N) (c : ContextId) (w' : World) (s' : Strand (Frame U N))
    (y : World × Strand (Frame U N)) : Prop :=
  ∃ y', Alone lib c Returns y y' ∧ Level c (w',s') y'

section Steps

variable (hw : w.Recounts c v) (hhook : (w.context c).hook = none)
  (hcallers : List.Forall₂ Caller.Level callers callers')
include hw hhook hcallers

theorem level_stepTurn (hlib : lib.IgnoresTicks) (t : Turn (Frame U N))
    (hstep : (⟨.turn t,callers⟩ : Strand (Frame U N)).step lib c w = .ran s' w') :
    Matched lib c w' s' (v,⟨.turn t,callers'⟩) := by
  obtain ⟨executed,hcontext⟩ := hw.context
  have hopen : Open Returns (⟨.turn t,callers'⟩ : Strand (Frame U N)) := open_returns rfl
  cases t with
  | count stack =>
    have hcounted := World.recounts_counted w c
    have hsame := (hcounted.symm.trans hw).trans (World.recounts_counted v c)
    have hstep' : (⟨.turn (.count stack),callers'⟩ : Strand (Frame U N)).step lib c v = _ :=
      step_count_unhooked (hw.hook.trans hhook) stack callers'
    rw [step_count_unhooked hhook] at hstep
    cases hstep
    rw [hw.stopping] at hstep'
    exact ⟨_,.head hopen hstep' .refl,hsame,hcounted.hook.trans hhook,.turn _,hcallers⟩
  | step active below =>
    cases hstep
    exact ⟨_,.head hopen rfl .refl,hw,hhook,.acting _ (hlib.advance active),hcallers⟩
  | offer parent below outcome unwound =>
    cases hstep
    exact ⟨_,.head hopen rfl .refl,hw,hhook,.acting _ (hlib.accept outcome parent),hcallers⟩
  | escape fault unwound =>
    cases hstep
    refine ⟨_,.head hopen rfl .refl,hw,hhook,?_,hcallers⟩
    rw [hcontext]
    exact .turn _
  | ended outcome left =>
    cases hcallers with
    | nil =>
      cases hstep
      exact ⟨_,.head hopen rfl .refl,hw,hhook,.exit _,.nil⟩
    | cons hcaller hrest =>
      cases hcaller with
      | mk role hk =>
        cases hstep
        exact ⟨_,.head hopen rfl .refl,hw,hhook,.acting role (hk outcome),hrest⟩

theorem level_query {role : Role (Frame U N)} {q : Query} {k k' : q.Answer → Act role.Report}
    (hq : q ≠ .count) (hk : ∀ answer, (k answer).Level (k' answer))
    (hstep : (⟨.acting role (.query q k),callers⟩ : Strand (Frame U N)).step lib c w = .ran s' w') :
    Matched lib c w' s' (v,⟨.acting role (.query q k'),callers'⟩) := by
  obtain ⟨hsame,hw'⟩ := hw.answer hhook hq
  have hhook' := (World.addsNothing_answer (c := c) w c q).hook.elim (fun hkept => hkept.trans hhook) id
  change Progress.ran (⟨.acting role (k (w.answer c q).1),callers⟩ : Strand (Frame U N))
    (w.answer c q).2 = _ at hstep
  obtain ⟨rfl,rfl⟩ := Progress.ran.inj hstep
  have hstep' : (⟨.acting role (.query q k'),callers'⟩ : Strand (Frame U N)).step lib c v =
      .ran ⟨.acting role (k' (w.answer c q).1),callers'⟩ (v.answer c q).2 := by
    rw [← hsame]
    rfl
  exact ⟨_,.head (open_returns rfl) hstep' .refl,hw',hhook',.acting role (hk _),hcallers⟩

/-- Code that asks whether an instruction is due hears of a stop, or goes on alike. -/
theorem level_counting {role : Role (Frame U N)} {k k' : Count → Act role.Report}
    (hstop : (k .stop).Level (k' .stop))
    (hgo : ∀ count count', count ≠ .stop → count' ≠ .stop → (k count).Level (k' count'))
    (hstep : (⟨.acting role (.query .count k),callers⟩ : Strand (Frame U N)).step lib c w = .ran s' w') :
    Matched lib c w' s' (v,⟨.acting role (.query .count k'),callers'⟩) := by
  have hcounted := World.recounts_counted w c
  have hsame := (hcounted.symm.trans hw).trans (World.recounts_counted v c)
  have hcount : (k (w.context c).countInstruction.1).Level (k' (v.context c).countInstruction.1) := by
    have hiff := Context.countInstruction_eq_stop (w.context c)
    have hiff' := Context.countInstruction_eq_stop (v.context c)
    rw [hw.stopping] at hiff'
    by_cases hs : (w.context c).stopping = true
    · rw [hiff.mpr hs, hiff'.mpr hs]
      exact hstop
    · exact hgo _ _ (fun h => hs (hiff.mp h)) fun h => hs (hiff'.mp h)
  change Progress.ran (⟨.acting role (k (w.context c).countInstruction.1),callers⟩ : Strand (Frame U N))
    (w.counted c) = _ at hstep
  obtain ⟨rfl,rfl⟩ := Progress.ran.inj hstep
  exact ⟨(v.counted c,⟨.acting role (k' (v.context c).countInstruction.1),callers'⟩),
    .head (open_returns rfl) rfl .refl,
    hsame,hcounted.hook.trans hhook,.acting role hcount,hcallers⟩

theorem level_call {role : Role (Frame U N)} {f : Routine} {arguments : List Value}
    {k k' : Outcome → Act role.Report} (hk : ∀ outcome, (k outcome).Level (k' outcome))
    (hstep : (⟨.acting role (.call f arguments k),callers⟩ : Strand (Frame U N)).step lib c
      w = .ran s' w') :
    Matched lib c w' s' (v,⟨.acting role (.call f arguments k'),callers'⟩) := by
  have hopen : Open Returns (⟨.acting role (.call f arguments k'),callers'⟩ : Strand (Frame U N)) :=
    open_returns rfl
  have hgoing : ¬ (w.context c).stopping = true → ¬ (v.context c).stopping = true :=
    fun hgo h => hgo (hw.stopping ▸ h)
  cases transition_of_step hstep with
  | uncalled _ _ _ hstop =>
    have hstop' : (v.context c).stopping = true := hw.stopping.trans hstop
    exact ⟨_,.head hopen (step_uncalled role k' callers' hstop') .refl,hw,hhook,
      .acting role (hk _),hcallers⟩
  | unloaded _ _ _ hgo hload =>
    refine ⟨_,.head hopen (step_unloaded role k' callers' (hgoing hgo) hload) .refl,hw,hhook,?_,hcallers⟩
    obtain ⟨executed,hcontext⟩ := hw.context
    rw [hcontext]
    exact .acting role (hk _)
  | calls _ _ _ hgo hload =>
    exact ⟨_,.head hopen (step_calls role k' callers' (hgoing hgo) hload) .refl,hw,hhook,.turn _,
      .cons (.mk role hk) hcallers⟩

theorem level_stepAct (hlib : lib.IgnoresTicks) (role : Role (Frame U N)) {a a' : Act role.Report}
    (ha : a.Level a')
    (hstep : (⟨.acting role a,callers⟩ : Strand (Frame U N)).step lib c w = .ran s' w') :
    Matched lib c w' s' (v,⟨.acting role a',callers'⟩) := by
  have hopen : ∀ a, Open Returns (⟨.acting role a,callers'⟩ : Strand (Frame U N)) :=
    fun a => open_returns rfl
  induction ha with
  | done report =>
    cases hstep
    refine ⟨_,.head (hopen _) rfl .refl,hw,hhook,?_,hcallers⟩
    rw [hw.stopping]
    exact level_afterAct hlib _ role report
  | query hq hk => exact level_query hw hhook hcallers hq hk hstep
  | count hstop hgo => exact level_counting hw hhook hcallers hstop hgo hstep
  | @before kind k a hk ih =>
    simp only [step, stepAct, hhook] at hstep
    cases hstep
    exact ⟨_,.refl,hw,hhook,.acting role hk,hcallers⟩
  | @after kind k a hk ih =>
    obtain ⟨y',halone,hlevel⟩ := ih hstep
    refine ⟨y',halone.head (hopen _) ?_,hlevel⟩
    simp only [step, stepAct, hw.hook, hhook]
  | @wait n d k k' hk =>
    have hclock : v.after d.millis = w.after d.millis := by
      obtain ⟨_,rfl⟩ := hw
      rfl
    cases hstep
    refine ⟨_,.head (hopen _) rfl .refl,hw,hhook,?_,hcallers⟩
    rw [hclock]
    exact .waiting n _ role hk
  | call hk => exact level_call hw hhook hcallers hk hstep
  | panic text =>
    cases hstep
    exact ⟨_,.head (hopen _) rfl .refl,hw,hhook,.exit _,.nil⟩

theorem level_waiting {n : NotifierId} {deadline : ℕ} {role : Role (Frame U N)}
    {k k' : Bool → Act role.Report} (hk : ∀ notified, (k notified).Level (k' notified))
    (hstep : (⟨.waiting n deadline role k,callers⟩ : Strand (Frame U N)).step lib c w = .ran s' w') :
    Matched lib c w' s' (v,⟨.waiting n deadline role k',callers'⟩) := by
  have hopen : Open Returns (⟨.waiting n deadline role k',callers'⟩ : Strand (Frame U N)) :=
    open_returns rfl
  have hnotified : v.isNotified n = w.isNotified n := by
    obtain ⟨_,rfl⟩ := hw
    rfl
  have hclock : v.clock = w.clock := by
    obtain ⟨_,rfl⟩ := hw
    rfl
  have hstep' : (⟨.waiting n deadline role k',callers'⟩ : Strand (Frame U N)).step lib c v =
      if w.isNotified n then .ran ⟨.acting role (k' true),callers'⟩ v
      else if deadline ≤ w.clock then .ran ⟨.acting role (k' false),callers'⟩ v
          else .blocked (some deadline) := by
    simp only [step, hnotified, hclock]
  simp only [step] at hstep
  split at hstep
  · rename_i hn
    cases hstep
    rw [if_pos hn] at hstep'
    exact ⟨_,.head hopen hstep' .refl,hw,hhook,.acting role (hk true),hcallers⟩
  · rename_i hn
    split at hstep <;> cases hstep
    rename_i hlate
    rw [if_neg hn, if_pos hlate] at hstep'
    exact ⟨_,.head hopen hstep' .refl,hw,hhook,.acting role (hk false),hcallers⟩

end Steps

theorem Level.step (hlib : lib.IgnoresTicks) (h : Level c (w,s) y)
    (hstep : s.step lib c w = .ran s' w') :
    Matched lib c w' s' y := by
  obtain ⟨v,⟨phase',callers'⟩⟩ := y
  obtain ⟨phase,callers⟩ := s
  obtain ⟨hw,hhook,hphase,hcallers⟩ := h
  cases hphase with
  | turn t => exact level_stepTurn hw hhook hcallers hlib t hstep
  | acting role ha => exact level_stepAct hw hhook hcallers hlib role ha hstep
  | waiting n deadline role hk => exact level_waiting hw hhook hcallers hk hstep
  | exit => cases hstep

theorem simulates_level (hlib : lib.IgnoresTicks) :
    Simulates lib c Returns Returns (Level (U := U) (N := N) c) where
  worlds h := h.worlds
  own h _ hstep := h.step hlib hstep
  others h hbeside := by
    obtain ⟨v',hbeside',hw'⟩ := h.worlds.keepsContext hbeside
    exact ⟨v',hbeside',hw',by rw [hbeside.context]; exact h.hook,h.phase,h.callers⟩
  arrives {x y result} h hend := by
    obtain ⟨w,⟨phase,callers⟩⟩ := x
    obtain ⟨v,⟨phase',callers'⟩⟩ := y
    obtain ⟨hw,_,hphase,_⟩ := h
    refine ⟨_,.refl,?_,hw⟩
    cases hend <;> cases hphase <;> constructor

/-- Without a hook, what such code comes to does not depend on how much its context has counted. -/
theorem Level.comesTo_iff (hlib : lib.IgnoresTicks) (h : Level c x y) (result : RunnableOutcome)
    (met : List (World × World)) (w' : World) :
    ComesTo lib c x Returns result met w' ↔ ComesTo lib c y Returns result met w' :=
  ⟨(simulates_level hlib).comesTo h,(simulates_level hlib).comesTo h.symm⟩

theorem comesTo_counted (hlib : lib.IgnoresTicks) (hhook : (w.context c).hook = none) (f : Routine)
    (arguments : List Value) (result : RunnableOutcome) (met : List (World × World)) (w' : World) :
    ComesTo lib c (w.counted c,ofCall f arguments) Returns result met w' ↔
      ComesTo lib c (w,ofCall f arguments) Returns result met w' := by
  have hlevel : Level c (w,ofCall f arguments) (w.counted c,(ofCall f arguments : Strand (Frame U N))) :=
    ⟨World.recounts_counted w c,hhook,.acting .outside (.call fun outcome => .done outcome),.nil⟩
  exact hlevel.symm.comesTo_iff hlib result met w'

end Strand

end Workers
