import Mathlib.Algebra.Order.Group.Multiset
import Mathlib.Data.List.Forall2
import Mathlib.Logic.Relation
import Mathlib.Tactic.Abel

/-! # Lists, multisets and runs

Facts that speak of no definition of the library.
-/
namespace Workers
variable {α β : Type}

theorem forall₂_exists_of_mem {R : α → β → Prop} {l : List α} {l' : List β}
    (h : List.Forall₂ R l l') {a : α} (ha : a ∈ l) : ∃ b ∈ l', R a b := by
  induction h with
  | nil => cases ha
  | @cons x y l l' hxy _ ih =>
    rcases List.mem_cons.mp ha with rfl | ha
    · exact ⟨y,List.mem_cons_self,hxy⟩
    · obtain ⟨b,hb,hab⟩ := ih ha
      exact ⟨b,List.mem_cons_of_mem y hb,hab⟩

theorem map_snd_zip_take (keys : List α) (l : List β) :
    (keys.zip l).map Prod.snd = l.take keys.length := by
  induction keys generalizing l with
  | nil => simp
  | cons k rest ih =>
    cases l with
    | nil => simp
    | cons a l => simp [ih]

theorem countP_eq_of_getElem? {p : α → Bool} {l l' : List α}
    (h : ∀ i : ℕ, (l[i]?).any p = (l'[i]?).any p) : l.countP p = l'.countP p := by
  induction l generalizing l' with
  | nil =>
    refine (List.countP_eq_zero.mpr fun x hx => ?_).symm
    obtain ⟨i,hi⟩ := List.mem_iff_getElem?.mp hx
    have hnone := h i
    rw [hi] at hnone
    simpa using hnone.symm
  | cons x l ih =>
    cases l' with
    | nil =>
      refine List.countP_eq_zero.mpr fun y hy => ?_
      obtain ⟨i,hi⟩ := List.mem_iff_getElem?.mp hy
      have hnone := h i
      rw [hi] at hnone
      simpa using hnone
    | cons y l' =>
      have hhead : p x = p y := by simpa using h 0
      have htail : l.countP p = l'.countP p := ih fun i => by simpa using h (i + 1)
      rw [List.countP_cons, List.countP_cons, hhead, htail]

theorem mem_sum_map {g : α → Multiset β} {l : List α} {x : β} :
    x ∈ (l.map g).sum ↔ ∃ a ∈ l, x ∈ g a := by
  induction l with
  | nil => simp
  | cons a rest ih => simp [ih]

/-- The sum over all but one of a list, with what becomes of the whole when that one changes. -/
theorem exists_others (g : α → Multiset β) {l : List α} {i : Nat} {x : α} (hx : l[i]? = some x) :
    ∃ others, (l.map g).sum = g x + others ∧ (∀ y, ((l.modify i fun _ => y).map g).sum = g y + others) ∧
      ∀ z ∈ others, ∃ (j : Nat) (y : α), j ≠ i ∧ l[j]? = some y ∧ z ∈ g y := by
  induction l generalizing i with
  | nil => simp at hx
  | cons a rest ih =>
    cases i with
    | zero =>
      obtain rfl : a = x := by simpa using hx
      refine ⟨(rest.map g).sum,by simp,by simp,fun z hz => ?_⟩
      obtain ⟨y,hy,hz⟩ := mem_sum_map.mp hz
      obtain ⟨j,hj⟩ := List.getElem?_of_mem hy
      exact ⟨j + 1,y,by omega,by simpa using hj,hz⟩
    | succ i =>
      obtain ⟨others,hsum,hmodify,hothers⟩ := ih (i := i) (by simpa using hx)
      refine ⟨g a + others,?_,?_,?_⟩
      · simp only [List.map_cons, List.sum_cons, hsum]
        abel
      · intro y
        simp only [List.modify_succ_cons, List.map_cons, List.sum_cons, hmodify]
        abel
      · intro z hz
        rcases Multiset.mem_add.mp hz with hz | hz
        · exact ⟨0,a,by simp,by simp,hz⟩
        · obtain ⟨j,y,hne,hy,hz⟩ := hothers z hz
          exact ⟨j + 1,y,by omega,by simpa using hy,hz⟩

theorem steps_foldl {r : α → α → Prop} {move : α → β → α}
    (hmove : ∀ a b, Relation.ReflTransGen r a (move a b)) (a : α) (schedule : List β) :
    Relation.ReflTransGen r a (schedule.foldl move a) := by
  induction schedule generalizing a with
  | nil => exact .refl
  | cons b rest ih => exact (hmove a b).trans (ih _)

/-- If there is a run to fewer steps left until the goal, there is a run to the goal. -/
theorem exists_run {step : α → α → Prop} {goal : α → Prop} (left : ℕ → α → Prop)
    (hgoes : ∀ n x, left n x → goal x ∨ ∃ m < n, ∃ y, Relation.ReflTransGen step x y ∧ left m y)
    {n : ℕ} {x : α} (hx : left n x) : ∃ y, Relation.ReflTransGen step x y ∧ goal y := by
  induction n using Nat.strong_induction_on generalizing x with
  | _ n ih =>
    rcases hgoes n x hx with hgoal | ⟨m,hlt,y,hrun,hy⟩
    · exact ⟨x,.refl,hgoal⟩
    · obtain ⟨z,hrest,hgoal⟩ := ih m hlt hy
      exact ⟨z,hrun.trans hrest,hgoal⟩

end Workers
