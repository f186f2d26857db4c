import Workers.Proofs.Registry.Lent
import Workers.Proofs.Roundtrip.Tokens
/-! # Arguments that move under a handle

A handle takes arguments over in order, up to the first that it refuses: a table of another
registry, or one whose entry is dead.  No entry is freed when an argument is taken over, so that
what is refused does not depend on what has been taken over before.
-/
namespace Workers

namespace Stored

def refusal? (s : Store) (r : RegistryId) : Stored → Option Fault
  | .shared handle =>
    if handle.registry ≠ r then some .foreignTable
    else if s.isAlive r handle.entry then none
    else some .brokenReference
  | _ => none

variable {s : Store} {r : RegistryId} {handle : TableHandle} {fault : Fault}

theorem refusal?_eq_none : (Stored.shared handle).refusal? s r = none ↔
    handle.registry = r ∧ s.isAlive r handle.entry = true := by
  by_cases hregistry : handle.registry = r <;> simp [refusal?, hregistry]

theorem refusal?_eq_some : (Stored.shared handle).refusal? s r = some fault ↔
    handle.registry ≠ r ∧ .foreignTable = fault ∨
      handle.registry = r ∧ s.isAlive r handle.entry = false ∧ .brokenReference = fault := by
  by_cases hregistry : handle.registry = r
  · cases halive : s.isAlive r handle.entry <;> simp [refusal?, hregistry, halive]
  · simp [refusal?, hregistry]

end Stored

theorem Store.Lent.isAlive {s s' : Store} {r : RegistryId} {holder : Holder} {ids : List EntryId}
    {taken : Multiset Share} (hl : s.Lent r holder ids taken s') {id : EntryId} (hid : id ∈ ids) :
    s'.isAlive r id = true := by
  rw [isAlive_iff_holds hl.sound']
  exact ⟨holder,(hl.holds _).mpr (.inr (mem_sharesOf.mpr ⟨id,hid,rfl⟩))⟩

namespace World

variable {w w' : World} {h : WorkerId} {s : Store} {taken : Multiset Share} {object : Stored}
    {fault : Fault}

def TakesOver (w : World) (h : WorkerId) (s : Store) (taken : Multiset Share) : Prop :=
  s.Lent (w.handle h).registry (w.handle h).holder (w.handle h).references taken w.store

theorem TakesOver.addReference (hb : w.TakesOver h s taken) (hh : h < w.handles.size) {id : EntryId}
    (ha : w.addReference h id = .ok w') : w'.TakesOver h s taken := by
  unfold World.addReference at ha
  simp only at ha
  split at ha
  · cases ha
    exact hb
  · cases hs : w.store.addReference (w.handle h).registry id (w.handle h).holder with
    | error fault =>
      rw [hs] at ha
      cases ha
    | ok t =>
      rw [hs] at ha
      cases ha
      have hhandle := handle_setHandle_self (w := w.setStore t) hh
        { w.handle h with references := (w.handle h).references ++ [id] }
      unfold TakesOver
      rw [hhandle]
      exact Store.Lent.addReference hb hs

theorem TakesOver.addReference_dead (hb : w.TakesOver h s taken) {id : EntryId}
    (hdead : s.isAlive (w.handle h).registry id = false) :
    w.addReference h id = .error .brokenReference := by
  rw [← hb.keeps.isAlive] at hdead
  have hid : id ∉ (w.handle h).references := fun hid => by simp [hb.isAlive hid] at hdead
  have hnone : (w.store.arena (w.handle h).registry).find? id = none := by
    simpa [Store.isAlive, Arena.isAlive] using hdead
  simp [World.addReference, hid, Store.addReference, Arena.addReference, hnone, Except.map]

/-- An object that is not refused is taken over. -/
theorem TakesOver.adopt (hb : w.TakesOver h s taken) (hh : h < w.handles.size)
    (hnone : object.refusal? s (w.handle h).registry = none) :
    ∃ w', w.adopt h object = (.ok object.weakened,w') ∧ w.AdoptsEntries h w' ∧
    w'.TakesOver h s (taken + object.shares) := by
  cases object with
  | shared handle =>
    obtain ⟨hregistry,halive⟩ := Stored.refusal?_eq_none.mp hnone
    rw [← hb.keeps.isAlive] at halive
    obtain ⟨u,hu,htakes,hid⟩ := addReference_eq hh halive
    obtain ⟨references,hhandle⟩ := htakes.handle hh
    have hsize : h < u.handles.size := by rwa [htakes.size_eq]
    have hhome : handle.registry = (u.handle h).registry := by rw [hhandle, hregistry]
    have hgiven := (hb.addReference hh hu).giveUp hhome hid nofun
    rw [← Stored.shares_shared] at hgiven
    have hsecure : w.secure h (.shared handle) = .ok u := by rw [secure_of_shared, if_pos hregistry, hu]
    exact ⟨_,Code.adopt_of_secure hsecure,htakes.trans
      (.of_store (Store.onlyRemoves_settle _ _)) hh,hgiven⟩
  | nil | boolean | integer | float | string | function =>
    exact ⟨w,rfl,.refl w h,by simpa [Stored.shares, Stored.handles] using hb⟩

/-- One that is refused is dropped. -/
theorem TakesOver.adopt_refused (hb : w.TakesOver h s taken)
    (hfault : object.refusal? s (w.handle h).registry = some fault) :
    w.adopt h object = (.error fault,w.setStore (w.store.drop [object])) := by
  cases object with
  | shared handle =>
    refine Code.adopt_of_refused ?_
    rw [secure_of_shared]
    rcases Stored.refusal?_eq_some.mp hfault with ⟨hforeign,rfl⟩ | ⟨hregistry,hdead,rfl⟩
    · rw [if_neg hforeign]
    · rw [if_pos hregistry, hb.addReference_dead hdead]
  | nil | boolean | integer | float | string | function => cases hfault

theorem AdoptsEntries.registry (ht : w.AdoptsEntries h w') (hh : h < w.handles.size) :
    (w'.handle h).registry = (w.handle h).registry := by
  obtain ⟨references,hhandle⟩ := ht.handle hh
  rw [hhandle]

/-- Arguments none of which is refused. -/
theorem TakesOver.adoptAll (hb : w.TakesOver h s taken) (hh : h < w.handles.size) (n : ℕ)
    {arguments : List Stored}
    (hall : ∀ object ∈ arguments, object.refusal? s (w.handle h).registry = none) :
    ∃ w', w.adoptAll h n arguments = (.ok (arguments.map Stored.weakened),w') ∧
    w.AdoptsEntries h w' ∧
      w'.TakesOver h s (taken + (arguments.map Stored.shares).sum) := by
  induction arguments generalizing w n taken with
  | nil => exact ⟨w,rfl,.refl w h,by simpa using hb⟩
  | cons object rest ih =>
    obtain ⟨u,hu,htakes,hone⟩ := hb.adopt hh (hall object List.mem_cons_self)
    have hrest : ∀ other ∈ rest, other.refusal? s (u.handle h).registry = none := fun other hmem => by
      rw [htakes.registry hh]
      exact hall other (List.mem_cons_of_mem object hmem)
    obtain ⟨w',hall',htakes',hmore⟩ := ih hone (by rwa [htakes.size_eq]) (n + 1) hrest
    refine ⟨w',?_,htakes.trans htakes' hh,?_⟩
    · rw [World.adoptAll, hu]
      simp only [hall']
      rfl
    · rw [List.map_cons, List.sum_cons, ← add_assoc]
      exact hmore

/-- Arguments one of which is the first to be refused: those from it on are dropped. -/
theorem TakesOver.adoptAll_refused (hb : w.TakesOver h s taken) (hh : h < w.handles.size) (n : ℕ)
    {front : List Stored}
    (hfront : ∀ other ∈ front, other.refusal? s (w.handle h).registry = none)
    (hfault : object.refusal? s (w.handle h).registry = some fault) (back : List Stored) :
    ∃ w', w.adoptAll h n (front ++ object :: back) =
        (.error (.badArgument (n + front.length) fault),
          w'.setStore (w'.store.drop (object :: back))) ∧
      w.AdoptsEntries h w' ∧ w'.TakesOver h s (taken + (front.map Stored.shares).sum) := by
  induction front generalizing w n taken with
  | nil =>
    refine ⟨w,?_,.refl w h,by simpa using hb⟩
    rw [List.nil_append, World.adoptAll, hb.adopt_refused hfault]
    simp only [List.length_nil, add_zero]
    rw [show object :: back = [object] ++ back from rfl, Store.drop_append]
    rfl
  | cons first rest ih =>
    obtain ⟨u,hu,htakes,hone⟩ := hb.adopt hh (hfront first List.mem_cons_self)
    have hregistry := htakes.registry hh
    have hrest : ∀ other ∈ rest, other.refusal? s (u.handle h).registry = none := fun other hmem => by
      rw [hregistry]
      exact hfront other (List.mem_cons_of_mem first hmem)
    obtain ⟨w',hrefused,htakes',hmore⟩ :=
      ih hone (by rwa [htakes.size_eq]) (n + 1) hrest (by rwa [hregistry])
    refine ⟨w',?_,htakes.trans htakes' hh,?_⟩
    · rw [List.cons_append, World.adoptAll, hu]
      simp only [hrefused]
      rw [List.length_cons, add_right_comm, add_assoc]
      rfl
    · rw [List.map_cons, List.sum_cons, ← add_assoc]
      exact hmore

end World

end Workers
