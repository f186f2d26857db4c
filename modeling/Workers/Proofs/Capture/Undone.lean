import Workers.Proofs.Capture.Pass
import Workers.Proofs.Capture.Verdicts
import Workers.Proofs.Registry.Confluence
/-! # A pass leaves nothing behind

When the objects that a pass has handed out and its capture are gone, so is every entry that it has
made: the newest is referred to by nothing else, and each falls once all that is newer has fallen.
What was there before keeps a reference from before throughout.
-/
namespace Workers

namespace Store

/-- The same live entries, with the same tables and holders. -/
structure Restored (s t : Store) : Prop where
  alive : ∀ q id, t.isAlive q id = s.isAlive q id
  table : ∀ q id, t.table q id = s.table q id
  holds : ∀ x, t.Holds x ↔ s.Holds x
  live : ∀ q, t.liveEntries q = s.liveEntries q

variable {s t : Store}

theorem table_of_dead {q : RegistryId} {id : EntryId} (h : s.isAlive q id = false) :
    s.table q id = .error .brokenReference := by
  have hnone : (s.arena q).find? id = none := by simpa [isAlive, Arena.isAlive] using h
  simp [table, hnone]

theorem isAlive_iff_holds (hs : ∀ q, (s.arena q).Sound) {q : RegistryId} {id : EntryId} :
    s.isAlive q id = true ↔ ∃ k, s.Holds ⟨q,id,k⟩ := by
  unfold isAlive Arena.isAlive Holds Arena.Holds
  constructor
  · intro halive
    obtain ⟨e,he⟩ := Option.isSome_iff_exists.mp halive
    obtain ⟨k,hk⟩ := List.exists_mem_of_ne_nil _ ((hs q).holders_ne_nil id e he)
    exact ⟨k,e,he,hk⟩
  · rintro ⟨k,e,he,_⟩
    exact Option.isSome_iff_exists.mpr ⟨e,he⟩

end Store

/-- The number of live entries is that of the live ids. -/
theorem Arena.Sound.live_of_alive {τ : Type} {a b : Arena τ} (ha : a.Sound) (hb : b.Sound)
    (h : ∀ id, b.isAlive id = a.isAlive id) : b.live = a.live := by
  have hany : ∀ (c : Arena τ) (i : ℕ), ((c.slots[i]?).any fun slot => slot.entry.isSome) = true ↔
      ∃ g, c.isAlive ⟨i,g⟩ = true := by
    intro c i
    cases hi : c.slots[i]? with
    | none => simp [Arena.isAlive, Arena.find?, hi]
    | some slot =>
      constructor
      · intro hslot
        exact ⟨slot.generation,by simpa [Arena.isAlive, Arena.find?, hi] using hslot⟩
      · rintro ⟨g,hg⟩
        by_cases hgeneration : slot.generation = g
        · simpa [Arena.isAlive, Arena.find?, hi, hgeneration] using hg
        · simp [Arena.isAlive, Arena.find?, hi, hgeneration] at hg
  rw [ha.live_eq, hb.live_eq]
  refine countP_eq_of_getElem? fun i => ?_
  rw [Array.getElem?_toList, Array.getElem?_toList, Bool.eq_iff_iff, hany, hany]
  exact exists_congr fun g => by rw [h]

/-- Two stores whose entries have the same holders differ in nothing, if no entry has one table here
and another there. -/
theorem Store.restored_of_holds {s t : Store} (hs : ∀ q, (s.arena q).Sound) (ht : ∀ q, (t.arena q).Sound)
    (hholds : ∀ x, t.Holds x ↔ s.Holds x)
    (htable : ∀ q id g g', s.table q id = .ok g → t.table q id = .ok g' → g' = g) : s.Restored t := by
  have halive : ∀ q id, t.isAlive q id = s.isAlive q id := by
    intro q id
    rw [Bool.eq_iff_iff, isAlive_iff_holds ht, isAlive_iff_holds hs]
    exact exists_congr fun k => hholds _
  refine ⟨halive,fun q id => ?_,hholds,fun q => (hs q).live_of_alive (ht q) (halive q)⟩
  cases hid : s.isAlive q id with
  | false => rw [table_of_dead hid, table_of_dead ((halive q id).trans hid)]
  | true =>
    obtain ⟨g,hg⟩ := isAlive_iff_table.mp hid
    obtain ⟨g',hg'⟩ := isAlive_iff_table.mp ((halive q id).trans hid)
    rw [hg, hg', htable q id g g' hg hg']

namespace Capture

variable {s t : Store} {r : RegistryId} {p : Progress} {made : List Made} {out asked : Multiset Share}

def madeShares (made : List Made) : Multiset Share :=
  (made.map fun m => TableHandle.shares m.table.handles).sum

theorem mem_madeShares {x : Share} :
    x ∈ madeShares made ↔ ∃ m ∈ made, x ∈ TableHandle.shares m.table.handles :=
  mem_sum_map

theorem Pass.shares_eq (hp : Pass s r p made) (asked out : Multiset Share) :
    p.store.filed + (asked + out) = s.filed + out + (asked + madeShares made) := by
  rw [hp.filed]
  unfold madeShares
  abel

/-- An entry that was made is referred to in newer tables only. -/
theorem Pass.refers_newer (hp : Pass s r p made) {newer older : List Made} {m m' : Made}
    (hmade : made = newer ++ m :: older) (hm' : m' ∈ made) {x : Share}
    (hx : x ∈ TableHandle.shares m'.table.handles) (hregistry : x.registry = r)
    (hentry : x.entry = m.kept.entry) :
    m' ∈ newer := by
  have hm : m ∈ made := hmade ▸ List.mem_append_right _ List.mem_cons_self
  have hdistinct := hp.entries_nodup
  rw [hmade, List.map_append, List.map_cons] at hdistinct
  have hold : ∀ m₂ ∈ older, m₂.kept.entry ≠ m.kept.entry := fun m₂ hm₂ heq =>
    (List.nodup_cons.mp (List.nodup_append.mp hdistinct).2.1).1 (heq ▸ List.mem_map.mpr ⟨m₂,hm₂,rfl⟩)
  rcases List.mem_append.mp (hmade ▸ hm') with hnewer | hrest
  · exact hnewer
  obtain ⟨front,back,hsplit⟩ := List.append_of_mem hrest
  have hback : ∀ m₂ ∈ back, m₂ ∈ older := by
    intro m₂ hm₂
    cases front with
    | nil =>
      cases hsplit
      exact hm₂
    | cons _ front =>
      cases hsplit
      exact List.mem_append_right _ (List.mem_cons_of_mem _ hm₂)
  have hlayered := hp.layered (newer ++ front) m' back (by rw [hmade, hsplit, List.append_assoc]) x hx
  rw [hregistry, hentry] at hlayered
  rcases hlayered with halive | ⟨_,m₂,hm₂,hid⟩
  · exact absurd halive (hp.not_alive hm)
  · exact absurd hid (hold m₂ (hback m₂ hm₂))

/-- Once the shares in hand are given up, what is filed in the tables made goes with them, from the
newest on. -/
theorem Pass.falls_made (hp : Pass s r p made) (hs : s.Balanced out)
    (hb : p.store.Balanced (asked + out)) :
    ∀ newer older, made = newer ++ older → ∀ m ∈ newer, ∀ x ∈ TableHandle.shares m.table.handles,
      p.store.Falls asked x := by
  intro newer
  induction newer using List.reverseRecOn with
  | nil => exact fun _ _ _ hm => nomatch hm
  | append_singleton newer m ih =>
    intro older hmade m' hm'
    rw [List.append_assoc, List.singleton_append] at hmade
    have hnewer := ih (m :: older) hmade
    rcases List.mem_append.mp hm' with hm' | hm'
    · exact hnewer m' hm'
    obtain rfl := List.mem_singleton.mp hm'
    intro x hx
    have hm : m' ∈ made := hmade ▸ List.mem_append_right _ List.mem_cons_self
    have htable : p.store.table r m'.kept.entry = .ok { content := m'.table } :=
      (hp.table _ _ _).mpr (.inr ⟨rfl,m',hm,rfl,rfl⟩)
    obtain ⟨e,he,hcontent⟩ := Store.exists_entry htable
    refine .nested he (fun k hk => ?_) (by rw [hcontent]; exact hx)
    have hheld := (hb.exact ⟨r,m'.kept.entry,k⟩).mp ⟨e,he,hk⟩
    rw [hp.shares_eq] at hheld
    rcases Multiset.mem_add.mp hheld with hold | hnew
    · have halive := (Store.isAlive_iff_holds hs.sound).mpr ⟨k,(hs.exact _).mpr hold⟩
      exact absurd halive (hp.not_alive hm)
    · rcases Multiset.mem_add.mp hnew with hasked | hfiled
      · exact .asked hasked
      · obtain ⟨m₂,hm₂,hk₂⟩ := mem_madeShares.mp hfiled
        exact hnewer m₂ (hp.refers_newer hmade hm₂ hk₂ rfl rfl) _ hk₂

/-- Nothing else goes: an entry from before has a holder that stays. -/
theorem Pass.mem_of_falls (hp : Pass s r p made) (hs : s.Balanced out)
    (hb : p.store.Balanced (asked + out)) {x : Share} (hx : p.store.Falls asked x) :
    x ∈ asked + madeShares made := by
  induction hx with
  | asked hx => exact Multiset.mem_add.mpr (.inl hx)
  | @nested q id e x he _ hx ih =>
    have htable : p.store.table q id = .ok e.content := by simp [Store.table, he]
    rcases (hp.table _ _ _).mp htable with hold | ⟨_,m,hm,_,hcontent⟩
    · obtain ⟨k,hk⟩ := (Store.isAlive_iff_holds hs.sound).mp (Store.isAlive_iff_table.mpr ⟨_,hold⟩)
      have hbefore := (hs.exact _).mp hk
      have hheld : p.store.Holds ⟨q,id,k⟩ := by
        rw [hb.exact, hp.shares_eq]
        exact Multiset.mem_add.mpr (.inl hbefore)
      obtain ⟨e',he',hk'⟩ := hheld
      rw [he] at he'
      cases he'
      have hdistinct := hb.nodup
      rw [hp.shares_eq] at hdistinct
      exact absurd (ih k hk') (Multiset.disjoint_left.mp (Multiset.nodup_add.mp hdistinct).2.2 hbefore)
    · rw [hcontent] at hx
      exact Multiset.mem_add.mpr (.inr (mem_madeShares.mpr ⟨m,hm,hx⟩))

/-- Once everything in hand has been dropped, in whatever order, all is as it was before. -/
theorem Pass.restored (hp : Pass s r p made) (hs : s.Balanced out) {order : List TableHandle}
    (hb : p.store.Balanced (TableHandle.shares order + out)) : s.Restored (p.store.settle order) := by
  obtain ⟨gone,hgone,hunderway⟩ := Store.settled_settle hp.sound order
  have hmem : ∀ x, x ∈ gone ↔ x ∈ TableHandle.shares order + madeShares made := by
    intro x
    rw [hunderway.mem_iff]
    constructor
    · exact hp.mem_of_falls hs hb
    · intro hx
      rcases Multiset.mem_add.mp hx with hasked | hfiled
      · exact .asked hasked
      · obtain ⟨m,hm,hx⟩ := mem_madeShares.mp hfiled
        exact hp.falls_made hs hb made [] (List.append_nil made).symm m hm x hx
  have hdistinct := hb.nodup
  rw [hp.shares_eq] at hdistinct
  have hsound := Store.sound_giveUps hp.sound gone
  rw [hgone]
  have hholds : ∀ x, (gone.foldl Store.giveUp p.store).Holds x ↔ s.Holds x := by
    intro x
    rw [Store.holds_giveUps hp.sound, hmem, hb.exact, hp.shares_eq, hs.exact]
    constructor
    · rintro ⟨hx,hstays⟩
      exact (Multiset.mem_add.mp hx).resolve_right hstays
    · intro hx
      exact ⟨Multiset.mem_add.mpr (.inl hx),Multiset.disjoint_left.mp
        (Multiset.nodup_add.mp hdistinct).2.2 hx⟩
  refine Store.restored_of_holds hs.sound hsound hholds fun q id g g' hg hg' => ?_
  rcases (hp.table q id g').mp (Store.table_giveUps hp.sound gone hg') with hold | ⟨rfl,m,hm,rfl,_⟩
  · exact Except.ok.inj (hold.symm.trans hg)
  · exact absurd (Store.isAlive_iff_table.mpr ⟨g,hg⟩) (hp.not_alive hm)

end Capture

namespace GlobalState

variable {U N : Type} {lib : Library U N} {e : GlobalState}

/-- Whatever has come out of operations and calls, and whatever graph a pass is given: when the
objects that it has handed out up to its end or its first failure, and its capture, have been
dropped in any order, the registries are what they were before it. -/
theorem pass_leaves_nothing (he : Arises lib e) (h : Heap) (vs : List Value) (r : RegistryId)
    (hr : r < e.world.store.registries.size) :
    let (objects,c,t) := ({ registry := r } : Capture).storeUpTo e.world.store h vs
    ∀ order : List TableHandle, order.Perm (objects.flatMap Stored.handles ++ c.captured.map Prod.snd) →
      e.world.store.Restored (t.settle order) := by
  have hs := he.accounted.world.balanced
  have hfresh : e.world.store.Balanced (({ registry := r } : Capture).shares +
      (e.world.shares + e.shares + 0)) := by
    have hnone : ({ registry := r } : Capture).shares = 0 := rfl
    rwa [hnone, zero_add, add_zero]
  obtain ⟨⟨new,hp⟩,hb⟩ := Capture.pass_storeUpTo hs hr rfl (Capture.Pass.start hs.sound r) hfresh h vs
  rcases hpass : ({ registry := r } : Capture).storeUpTo e.world.store h vs with ⟨objects,c,t⟩
  rw [hpass] at hp hb
  intro order horder
  have hshares : TableHandle.shares order = (objects.map Stored.shares).sum + c.shares := by
    rw [← TableHandle.shares_flatMap, Capture.shares, ← TableHandle.shares_append]
    exact (horder.map TableHandle.share).sum_eq
  refine hp.restored hs ?_
  rwa [hshares, add_assoc, ← add_zero (e.world.shares + e.shares)]

/-- A pass that fails at its third value, and whose objects are dropped before its capture. -/
theorem pass_leaves_nothing_sharedAndCyclic : let e := run [.newPool,.create 0 []]
    let pass := ({ registry := 0 } : Capture).storeUpTo e.world.store Heap.sharedAndCyclic
      [.table 1,.table 0,.table 2]
    (Arises unloadable e ∧ 0 < e.world.store.registries.size ∧
      (pass.1.flatMap Stored.handles ++ pass.2.1.captured.map Prod.snd).Perm
        (pass.1.flatMap Stored.handles ++ pass.2.1.captured.map Prod.snd)) ∧
    e.world.store.Restored
      (pass.2.2.settle (pass.1.flatMap Stored.handles ++ pass.2.1.captured.map Prod.snd)) := by
  intro e pass
  have harises : Arises unloadable e := arises_run unloadable _
  have hr : 0 < e.world.store.registries.size := by decide
  exact ⟨⟨harises,hr,.refl _⟩,pass_leaves_nothing harises Heap.sharedAndCyclic _ 0 hr _ (.refl _)⟩

end GlobalState

end Workers
