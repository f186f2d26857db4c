/-! # Folds over a list in which one element is exchanged

What `List.modify` does to a fold of a commutative operation, such as a sum.  A count is a sum of
ones.
-/
namespace Workers
variable {α M : Type}

theorem foldr_map_modify (op : M → M → M) [Std.Associative op] [Std.Commutative op] (e : M) (g : α → M)
    (f : α → α) (l : List α) (i : Nat) {x : α} (hx : l[i]? = some x) :
    op (((l.modify i f).map g).foldr op e) (g x) = op ((l.map g).foldr op e) (g (f x)) := by
  induction l generalizing i with
  | nil => simp at hx
  | cons y rest ih =>
    cases i with
    | zero =>
      obtain rfl : y = x := by simpa using hx
      simp only [List.modify_zero_cons, List.map_cons, List.foldr_cons]
      ac_rfl
    | succ i =>
      simp only [List.modify_succ_cons, List.map_cons, List.foldr_cons]
      calc op (op (g y) (((rest.modify i f).map g).foldr op e)) (g x)
          = op (g y) (op (((rest.modify i f).map g).foldr op e) (g x)) := by ac_rfl
        _ = op (g y) (op ((rest.map g).foldr op e) (g (f x))) := by rw [ih i (by simpa using hx)]
        _ = op (op (g y) ((rest.map g).foldr op e)) (g (f x)) := by ac_rfl

theorem countP_eq_foldr (p : α → Bool) (l : List α) :
    l.countP p = (l.map fun x => if p x then 1 else 0).foldr (· + ·) 0 := by
  induction l with
  | nil => rfl
  | cons x rest ih => rw [List.countP_cons, List.map_cons, List.foldr_cons, ih, Nat.add_comm]

end Workers
