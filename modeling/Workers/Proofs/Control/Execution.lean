import Workers.Proofs.Control.Points
/-! # Executions of a worker

The states that a worker and the world around it go through, one after the other.  A time is a
position in the execution, and what happens at it is the step from that state to the next.
-/
namespace Workers.WorkerState

variable {U N : Type} {lib : Library U N} {x y : WorkerState U N}

/-- What a launched worker goes through, together with everybody else. -/
structure Execution (lib : Library U N) where
  state : ℕ → WorkerState U N
  launched : Launched (state 0)
  step (n : ℕ) : Step lib (state n) (state (n + 1))

theorem Step.stutter (lib : Library U N) (x : WorkerState U N) : Step lib x x := .other (.refl _ _)

/-- What happens around a worker, and the commands that it is given, leave it where it is. -/
theorem Step.works_or_rests (hstep : Step lib x y) :
    Works lib x y ∨ y.worker = x.worker ∧ y.status = x.status := by
  cases hstep with
  | worker hstep => exact .inl hstep
  | errand hstep =>
    rcases errand_control x.worker.handle hstep with hcontrol | ⟨command,rfl⟩
    · exact .inr ⟨rfl,congrArg Control.status hcontrol.control⟩
    · refine .inr ⟨rfl,?_⟩
      by_cases hh : x.worker.handle < x.world.handles.size
      · simp only [status, control, World.putCommand, World.handle_setHandle_self hh,
          Control.status_putCommand]
      · simp only [status, control, World.putCommand, World.setHandle_of_not_lt hh]
  | other hcontrol => exact .inr ⟨rfl,congrArg Control.status hcontrol.control⟩

namespace Execution

variable (r : Execution lib)

theorem steps {m n : ℕ} (hmn : m ≤ n) : Steps lib (r.state m) (r.state n) := by
  induction n, hmn using Nat.le_induction with
  | base => exact .refl
  | succ n _ ih => exact ih.tail (r.step n)

theorem reachable (n : ℕ) : Reachable lib (r.state n) := ⟨_,r.launched,r.steps n.zero_le⟩

theorem sound (n : ℕ) : Sound (r.state n) := (r.reachable n).sound

def extend (n : ℕ) (hstep : Step lib (r.state n) y) : Execution lib where
  state m := if m ≤ n then r.state m else y
  launched := by
    rw [if_pos n.zero_le]
    exact r.launched
  step m := by
    by_cases hlt : m + 1 ≤ n
    · rw [if_pos hlt, if_pos (Nat.le_of_succ_le hlt)]
      exact r.step m
    · rw [if_neg hlt]
      split
      · rename_i hle
        obtain rfl : m = n := le_antisymm hle (Nat.le_of_not_lt hlt)
        exact hstep
      · exact .stutter lib y

theorem extend_last (n : ℕ) (hstep : Step lib (r.state n) y) : (r.extend n hstep).state (n + 1) = y :=
  if_neg (Nat.not_succ_le_self n)

end Execution

def Launched.execution (lib : Library U N) (hx : Launched x) : Execution lib where
  state _ := x
  launched := hx
  step _ := .stutter lib x

/-- Every reachable state is one of an execution. -/
theorem Reachable.execution (hx : Reachable lib x) : ∃ (r : Execution lib) (n : ℕ), r.state n = x := by
  obtain ⟨z,hz,hsteps⟩ := hx
  induction hsteps with
  | refl => exact ⟨hz.execution lib,0,rfl⟩
  | tail _ hstep ih =>
    obtain ⟨r,n,rfl⟩ := ih
    exact ⟨r.extend n hstep,n + 1,r.extend_last n hstep⟩

end Workers.WorkerState
