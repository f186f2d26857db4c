import Workers.Proofs.Call.Steps
/-! # The stack scheduler evaluates

A run of a strand on a stack is matched against the recursive evaluation of its top.  Whatever lies
below, and whoever waits for the outcome, stays as it is until the top has ended; so an evaluation
of any job can be placed on any stack, and a run from there is an evaluation up to where it ends.
-/
namespace Workers

variable {U N : Type}

section Leads

open Strand

variable {lib : Library U N} {c : ContextId} {r : Frame U N} {j : Job U N}
    {tr tr' : List (Event U N)} {e : RunnableOutcome}

/-- A strand goes through the events, and when the job has ended it has been delivered. -/
inductive Realized (lib : Library U N) (c : ContextId) (below : List (Frame U N))
    (callers : List (Caller (Frame U N))) (s : Strand (Frame U N)) (tr : List (Event U N)) :
    Option RunnableOutcome → Prop
  | cut {s' : Strand (Frame U N)} (h : Leads lib c s tr s') : Realized lib c below callers s tr none
  | ended {s' : Strand (Frame U N)} {e : RunnableOutcome} (h : Leads lib c s tr s')
      (hd : Delivered below callers e s') :
      Realized lib c below callers s tr (some e)

section Realized

variable {below : List (Frame U N)} {callers : List (Caller (Frame U N))} {s s' : Strand (Frame U N)}
  {o : Option RunnableOutcome}

theorem Realized.leads (h : Realized lib c below callers s tr o) : ∃ s', Leads lib c s tr s' := by
  cases h with
  | cut h | ended h _ => exact ⟨_,h⟩

theorem Realized.after (h : Leads lib c s tr s') (h' : Realized lib c below callers s' tr' o) :
    Realized lib c below callers s (tr ++ tr') o := by
  cases h' with
  | cut h' => exact .cut (h.trans h')
  | ended h' hd => exact .ended (h.trans h') hd

theorem Realized.head {w : World} (h : Takes lib c w s tr s')
    (h' : Realized lib c below callers s' tr' o) :
    Realized lib c below callers s (tr ++ tr') o := .after h.leads h'

end Realized

end Leads

def Strand.Busy (callers : List (Caller (Frame U N))) (s : Strand (Frame U N)) : Prop :=
  s.phase.final = false ∨ callers.length < s.callers.length

/-- A run from a job that is placed on a stack: it is still evaluating the job, or has ended it and
gone on. -/
inductive Explained (lib : Library U N) (c : ContextId) (below : List (Frame U N))
    (callers : List (Caller (Frame U N))) (n : ℕ) (j : Job U N) (tr : List (Event U N))
    (s : Strand (Frame U N)) : Prop
  | busy (h : Evaluates lib c j tr none) (hs : s.Busy callers)
  | ended {tr₁ tr₂ : List (Event U N)} {e : RunnableOutcome} {s₁ : Strand (Frame U N)} {m : ℕ}
      (htr : tr = tr₁ ++ tr₂)
      (hm : m ≤ n) (h : Evaluates lib c j tr₁ (some e)) (hd : Delivered below callers e s₁)
      (hrest : Strand.Runs lib c m s₁ tr₂ s)

section Explains

open Strand

variable {lib : Library U N} {c : ContextId} {below : List (Frame U N)}
    {callers : List (Caller (Frame U N))}
  {r : Frame U N} {j j' : Job U N} {tr tr' : List (Event U N)} {s : Strand (Frame U N)}
  {n m : ℕ} {w : World}

theorem Explained.lift (h : Explained lib c below callers m j' tr s) (hmn : m ≤ n)
    (hj : ∀ {tr o}, Evaluates lib c j' tr o → Evaluates lib c j (tr' ++ tr) o) :
    Explained lib c below callers n j (tr' ++ tr) s := by
  cases h with
  | busy h hs => exact .busy (hj h) hs
  | ended htr hm h hd hrest =>
    subst htr
    exact .ended (List.append_assoc ..).symm (Nat.le_trans hm hmn) (hj h) hd hrest

/-- From where a runnable has been delivered to a caller, the run comes to its conclusion. -/
theorem Delivered.split {e : RunnableOutcome} {s₁ : Strand (Frame U N)} (hd : Delivered [] callers e s₁)
    (h : Runs lib c n s₁ tr s) : (∃ text, e = .panic text) ∨
      (tr = [] ∧ ∃ fault frames, s = ⟨.turn (.escape fault frames),callers⟩) ∨
      ∃ outcome tr₁ tr₂ left m, m ≤ n ∧ tr = tr₁ ++ tr₂ ∧ Concludes c e tr₁ outcome ∧
        Runs lib c m ⟨.turn (.ended outcome left),callers⟩ tr₂ s := by
  cases hd with
  | ok values => exact .inr (.inr ⟨_,[],tr,[],n,Nat.le_refl n,rfl,.ok values,h⟩)
  | stop left => exact .inr (.inr ⟨_,[],tr,left,n,Nat.le_refl n,rfl,.stop,h⟩)
  | panic text => exact .inl ⟨text,rfl⟩
  | failure fault frames =>
    rcases h.split with ⟨rfl,rfl,rfl⟩ | ⟨m,w,s₂,tr₁,tr₂,rfl,rfl,ht,hrest⟩
    · exact .inr (.inl ⟨rfl,fault,frames,rfl⟩)
    · obtain ⟨rfl,rfl⟩ := ht.det (takes_escape fault frames)
      exact .inr (.inr ⟨_,_,tr₂,[],m,Nat.le_succ m,rfl,.failure w fault frames,hrest⟩)

end Explains

section Schedule

open Strand

variable {lib : Library U N} {c : ContextId} {r : Frame U N} {tr : List (Event U N)}
    {s : Strand (Frame U N)}
  {outcome : Outcome} {left : List (Frame U N)} {n : ℕ}

end Schedule

end Workers
