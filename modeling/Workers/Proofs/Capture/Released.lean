import Workers.Proofs.Capture.Undone
/-! # Giving back what a capture has made

Handles that are dropped in several batches are dropped in one.  So everything that a pass has
handed out can be given back in portions, whenever its holders come to let go of it, and the store
is as it was before the pass.
-/
namespace Workers

namespace Store

variable {s t u : Store}

/-- The second batch waits for the end of the cascade that the first one starts. -/
theorem settle_append (s : Store) (hs gs : List TableHandle) :
    s.settle (hs ++ gs) = (s.settle hs).settle gs := by
  induction s, hs using Store.settle.induct with
  | case1 s => rw [List.nil_append, settle_nil]
  | case2 s handle rest hstrong table t heq ih =>
    rw [List.cons_append, settle_cons_strong s hstrong, settle_cons_strong s hstrong, heq,
      Option.elim_some,
      ← List.append_assoc]
    exact ih
  | case3 s handle rest hstrong t heq ih =>
    rw [List.cons_append, settle_cons_strong s hstrong, settle_cons_strong s hstrong, heq,
      Option.elim_none,
      List.nil_append, List.nil_append]
    exact ih
  | case4 s handle rest hweak ih =>
    rw [List.cons_append, settle_cons_weak s hweak, settle_cons_weak s hweak]
    exact ih

theorem drop_append (s : Store) (xs ys : List Stored) : s.drop (xs ++ ys) = (s.drop xs).drop ys := by
  unfold drop
  rw [List.flatMap_append, settle_append]

@[simp] theorem drop_nil (s : Store) : s.drop [] = s := settle_nil s

theorem Restored.refl (s : Store) : s.Restored s :=
  ⟨fun _ _ => rfl,fun _ _ => rfl,fun _ => .rfl,fun _ => rfl⟩

theorem Restored.trans (h : s.Restored t) (h' : t.Restored u) : s.Restored u where
  alive q id := (h'.alive q id).trans (h.alive q id)
  table q id := (h'.table q id).trans (h.table q id)
  holds x := (h'.holds x).trans (h.holds x)
  live q := (h'.live q).trans (h.live q)

end Store

namespace Capture

variable {s t : Store} {r : RegistryId} {out : Multiset Share} {objects : List Stored} {c : Capture}

/-- Whatever objects a pass has handed out: when they and its capture have been dropped in any
order, the store is what it was before. -/
theorem restored_pass (hs : s.Balanced out) (hr : r < s.registries.size) {h : Heap} {vs : List Value}
    (hpass : ({ registry := r } : Capture).storeUpTo s h vs = (objects,c,t)) {order : List TableHandle}
    (horder : order.Perm (objects.flatMap Stored.handles ++ c.captured.map Prod.snd)) :
    s.Restored (t.settle order) := by
  have hfresh := balanced_fresh hs r
  rw [← add_zero out] at hfresh
  obtain ⟨⟨new,hp⟩,hb⟩ := pass_storeUpTo hs hr rfl (Pass.start hs.sound r) hfresh h vs
  rw [hpass] at hp hb
  have hshares : TableHandle.shares order = (objects.map Stored.shares).sum + c.shares := by
    rw [← TableHandle.shares_flatMap, Capture.shares, ← TableHandle.shares_append]
    exact (horder.map TableHandle.share).sum_eq
  refine hp.restored hs ?_
  rwa [hshares, add_assoc, ← add_zero out]

theorem storeUpTo_one {s t : Store} {c d : Capture} {h : Heap} {v : Value}
    {outcome : Except Fault Stored} (hstore : c.store s h v = (outcome,d,t)) :
    c.storeUpTo s h [v] = (outcome.toOption.toList,d,t) := by
  unfold storeUpTo
  rw [hstore]
  cases outcome <;> rfl

end Capture

/-- A value that is stored and given back leaves nothing, and neither does one that cannot be stored. -/
theorem Value.restored {s : Store} {r : RegistryId} {out : Multiset Share} (hs : s.Balanced out)
    (hr : r < s.registries.size) (v : Value) (h : Heap) :
    s.Restored ((v.store s h r).2.drop (v.store s h r).1.toOption.toList) := by
  unfold Value.store
  rcases hstore : ({ registry := r } : Capture).store s h v with ⟨outcome,c,t⟩
  simp only [Capture.finish, Store.drop]
  rw [← Store.settle_append]
  exact Capture.restored_pass hs hr (Capture.storeUpTo_one hstore) List.perm_append_comm

end Workers
