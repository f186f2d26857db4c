import Workers.Proofs.Capture.Copies
import Workers.Proofs.Ledger.Tables
/-! # A pass of captures

Whatever graph it is given, and wherever it fails, a capture pass only adds: the tables that were
there stay as they are, and each that it files refers to entries that were there before it.  What a
failure on the way gives up never held the last reference of anything.
-/
namespace Workers

namespace Capture

structure Pass (s : Store) (r : RegistryId) (p : Progress) (made : List Made) : Prop extends
    MadeSince s r p.store made where
  captured : p.captured = made.map fun m => (m.cell,m.kept)
  kept : ∀ m ∈ made, m.kept.registry = r ∧ m.kept.strong = true
  /-- A table refers to entries that were there before, and to those that were made before it. -/
  layered : ∀ newer m older, made = newer ++ m :: older → ∀ x ∈ TableHandle.shares m.table.handles,
    s.isAlive x.registry x.entry = true ∨ x.registry = r ∧ ∃ m' ∈ older, m'.kept.entry = x.entry

variable {h : Heap} {s t : Store} {r : RegistryId} {p p' p'' : Progress} {made : List Made}
    {out extra : Multiset Share}

theorem Pass.start (hs : ∀ q, (s.arena q).Sound) (r : RegistryId) : Pass s r ⟨s,[]⟩ [] where
  toMadeSince := .start hs r
  captured := rfl
  kept := nofun
  layered newer m older hmade := by simp at hmade

theorem Pass.keeps (hp : Pass s r p made) (hk : p.store.Keeps t) : Pass s r { p with store := t } made :=
  { hp with toMadeSince := hp.toMadeSince.keeps hk }

theorem Pass.alive_of_holds (hp : Pass s r p made) {x : Share} (hx : p.store.Holds x) :
    s.isAlive x.registry x.entry = true ∨ x.registry = r ∧ ∃ m ∈ made, m.kept.entry = x.entry := by
  obtain ⟨e,he,_⟩ := hx
  have htable : p.store.table x.registry x.entry = .ok e.content := by simp [Store.table, he]
  rcases (hp.table _ _ _).mp htable with hold | ⟨hq,m,hm,hid,_⟩
  · exact .inl (Store.isAlive_iff_table.mpr ⟨_,hold⟩)
  · exact .inr ⟨hq,m,hm,hid⟩

/-- Every entry that there is has a holder besides the objects in hand. -/
theorem Pass.exists_other (hp : Pass s r p made) (hs : s.Balanced out) {x : Share}
    (hx : p.store.Holds x) :
    ∃ y ∈ p.store.filed + (p.shares + (out + extra)), y.registry = x.registry ∧
    y.entry = x.entry := by
  rcases hp.alive_of_holds hx with hold | ⟨hq,m,hm,hid⟩
  · obtain ⟨g,hg⟩ := Store.isAlive_iff_table.mp hold
    obtain ⟨e,he,_⟩ := Store.exists_entry hg
    obtain ⟨k,hk⟩ := List.exists_mem_of_ne_nil _ ((hs.sound x.registry).holders_ne_nil _ e he)
    have hy := (hs.exact ⟨x.registry,x.entry,k⟩).mp ⟨e,he,hk⟩
    refine ⟨⟨x.registry,x.entry,k⟩,?_,rfl,rfl⟩
    rw [hp.filed]
    rcases Multiset.mem_add.mp hy with hy | hy
    · exact Multiset.mem_add.mpr (.inl (Multiset.mem_add.mpr (.inl hy)))
    · exact Multiset.mem_add.mpr (.inr (Multiset.mem_add.mpr (.inr (Multiset.mem_add.mpr (.inl hy)))))
  · obtain ⟨hregistry,hstrong⟩ := hp.kept m hm
    refine ⟨⟨m.kept.registry,m.kept.entry,m.kept.holder⟩,?_,hregistry.trans hq.symm,hid⟩
    refine Multiset.mem_add.mpr (.inr (Multiset.mem_add.mpr (.inl ?_)))
    refine TableHandle.mem_shares.mpr ⟨m.kept,?_,hstrong,rfl⟩
    rw [hp.captured, List.map_map]
    exact List.mem_map.mpr ⟨m,hm,rfl⟩

theorem Pass.keeps_abandon (hp : Pass s r p made) (hs : s.Balanced out) {done : SharedTable}
    (hb : p.store.Balanced (tableShares done + (p.shares + (out + extra)))) :
    p.store.Keeps (p.store.settle done.handles) := by
  refine Store.keeps_settle hb fun handle hhandle hstrong => ?_
  have hx : p.store.Holds ⟨handle.registry,handle.entry,handle.holder⟩ := by
    refine (hb.exact _).mpr (Multiset.mem_add.mpr (.inr (Multiset.mem_add.mpr (.inl ?_))))
    exact TableHandle.mem_shares.mpr ⟨handle,hhandle,hstrong,rfl⟩
  exact hp.exists_other hs hx

/-- A finished table is filed; all that it refers to is there. -/
theorem Pass.file (hp : Pass s r p made) (hr : r < s.registries.size) {c : CellId}
    {shared : SharedTable} {handle kept : TableHandle} {store store' : Store}
    (hb : p.store.Balanced (tableShares shared + out))
    (hcreate : TableHandle.create p.store r shared = (handle,store))
    (hcopy : handle.copy store = (kept,store')) :
    Pass s r ⟨store',(c,kept) :: p.captured⟩ (⟨c,kept,shared⟩ :: made) := by
  have hr' : r < p.store.registries.size := by rwa [hp.later.size_eq]
  obtain ⟨number,number',id,rfl,rfl,hfiles⟩ := TableHandle.filed_of_create hr' hp.sound hcreate hcopy
  refine ⟨hp.toMadeSince.file hfiles,?_,?_,fun newer m older hmade => ?_⟩
  · rw [hp.captured, List.map_cons]
  · exact List.forall_mem_cons.mpr ⟨⟨rfl,rfl⟩,hp.kept⟩
  · cases newer with
    | nil =>
      cases hmade
      exact fun x hx => hp.alive_of_holds ((hb.exact x).mpr
        (Multiset.mem_add.mpr (.inr (Multiset.mem_add.mpr (.inl hx)))))
    | cons _ newer =>
      cases hmade
      exact hp.layered newer m older rfl

def Passes (s : Store) (r : RegistryId) (out hand : Multiset Share) (p p' : Progress) : Prop :=
  ∀ made extra, Pass s r p made → p.store.Balanced (hand + (p.shares + (out + extra))) →
    ∃ new, Pass s r p' (new ++ made)

theorem Passes.refl (s : Store) (r : RegistryId) (out hand : Multiset Share) (p : Progress) :
    Passes s r out hand p p := fun _ _ hp _ => ⟨[],hp⟩

theorem Passes.of_keeps {hand : Multiset Share} (hk : p.store.Keeps t) :
    Passes s r out hand p { p with store := t } := fun _ _ hp _ => ⟨[],hp.keeps hk⟩

/-- The next value of a table is stored with the table begun in hand. -/
theorem passes_next (hr : r < s.registries.size) {path : List CellId} {v : Value}
    {done : SharedTable} {o : Except Refusal Stored} (hstore : storeValue h r path p v = (o,p'))
    (hv : Passes s r out 0 p p') (hp : Pass s r p made)
    (hb : p.store.Balanced (tableShares done + (p.shares + (out + extra)))) :
    ∃ new, Pass s r p' (new ++ made) ∧
      p'.store.Balanced (granted Stored.shares o +
        (tableShares done + (p'.shares + (out + extra)))) := by
  have hagrees := (balances_store h r).1 path p v
  rw [hstore] at hagrees
  have hr' : r < p.store.registries.size := by rwa [hp.later.size_eq]
  have hhand : p.store.Balanced (0 + (p.shares + (out + (tableShares done + extra)))) := by
    convert hb using 1
    abel
  obtain ⟨new,hp'⟩ := hv made _ hp hhand
  refine ⟨new,hp',?_⟩
  convert hagrees.balanced _ hr' hhand using 1
  abel

theorem passes_store (hs : s.Balanced out) (hr : r < s.registries.size) (h : Heap) :
    (∀ path p v, Passes s r out 0 p (storeValue h r path p v).2) ∧
      ∀ path p (done : SharedTable) es, (done.keys ++ es.map Prod.fst).Nodup →
        Passes s r out (tableShares done) p (storeEntries h r path p done es).2 := by
  apply @capture_induction h r (fun _ p _ _ p' => Passes s r out 0 p p')
    (fun _ p done es _ p' => (done.keys ++ es.map Prod.fst).Nodup →
      Passes s r out (tableShares done) p p')
  case scalar => exact fun _ p _ _ _ => .refl s r out 0 p
  case attached =>
    intro _ p id handle store ha
    have hkeeps := Store.keeps_attach p.store r id
    rw [ha] at hkeeps
    exact .of_keeps hkeeps
  case broken =>
    intro _ p id fault store ha
    have hkeeps := Store.keeps_attach p.store r id
    rw [ha] at hkeeps
    exact .of_keeps hkeeps
  case cyclic => exact fun _ p _ _ => .refl s r out 0 p
  case again => exact fun _ p _ handle _ _ => .of_keeps (Store.keeps_copy p.store handle)
  case unreadable => exact fun _ p _ _ _ _ _ => .refl s r out 0 p
  case refused => exact fun _ _ _ table _ _ _ _ _ _ he => he table.nodup
  case copied =>
    intro path p c table shared p' handle store kept store' _ _ _ hentries he hcreate hcopy
      made extra hp hb
    obtain ⟨new,hp'⟩ := he table.nodup made extra hp hb
    have hagrees := (balances_store h r).2 (c :: path) p .empty table.entries table.nodup
    rw [hentries] at hagrees
    have hr' : r < p.store.registries.size := by rwa [hp.later.size_eq]
    exact ⟨⟨c,kept,shared⟩ :: new,hp'.file hr (hagrees.balanced _ hr' hb) hcreate hcopy⟩
  case complete => exact fun _ p done _ => .refl s r out (tableShares done) p
  case next =>
    intro path p done key v rest object p' outcome p'' hstore hv he hn made extra hp hb
    have hfresh : key ∉ done.keys := by
      intro hk
      exact (List.nodup_append.mp hn).2.2 key hk key (by simp) rfl
    have hrest : ((done.insert key object).keys ++ rest.map Prod.fst).Nodup := by
      rw [OrderedMap.keys_insert_of_not_mem object hfresh, List.append_assoc]
      exact hn
    obtain ⟨new,hp',hb'⟩ := passes_next hr hstore hv hp hb
    rw [granted_ok, ← add_assoc, add_comm object.shares, ← tableShares_insert hfresh] at hb'
    obtain ⟨new',hp''⟩ := he hrest (new ++ made) extra hp' hb'
    exact ⟨new' ++ new,by rwa [List.append_assoc]⟩
  case stuck =>
    intro path p done key v rest refusal p' hstore hv _ made extra hp hb
    obtain ⟨new,hp',hb'⟩ := passes_next hr hstore hv hp hb
    rw [granted_error, zero_add] at hb'
    exact ⟨new,hp'.keeps (hp'.keeps_abandon hs hb')⟩

/-- Stores values in order, up to the first that fails, and hands out those before it. -/
def storeUpTo (c : Capture) (s : Store) (h : Heap) : List Value → List Stored × Capture × Store
  | [] => ([],c,s)
  | v :: rest =>
    match c.store s h v with
    | (.error _,c,s) => ([],c,s)
    | (.ok object,c,s) =>
      let (objects,c,s) := c.storeUpTo s h rest
      (object :: objects,c,s)

theorem pass_storeOne (hs : s.Balanced out) (hr : r < s.registries.size) {c : Capture}
    (hcr : c.registry = r) (hp : Pass s r ⟨t,c.captured⟩ made)
    (hb : t.Balanced (c.shares + (out + extra))) (h : Heap) (v : Value) :
    ∃ new, Pass s r ⟨(c.store t h v).2.2,(c.store t h v).2.1.captured⟩ (new ++ made) := by
  have hpasses := (passes_store hs hr h).1 c.path ⟨t,c.captured⟩ v made extra hp (by rwa [zero_add])
  unfold store
  rw [hcr]
  rcases hstore : storeValue h r c.path ⟨t,c.captured⟩ v with ⟨o,p⟩
  rw [hstore] at hpasses
  cases o with
  | ok object => exact hpasses
  | error refusal => exact hpasses

/-- A whole pass, with the objects that it hands out. -/
theorem pass_storeUpTo (hs : s.Balanced out) (hr : r < s.registries.size) {c : Capture}
    (hcr : c.registry = r) (hp : Pass s r ⟨t,c.captured⟩ made)
    (hb : t.Balanced (c.shares + (out + extra))) (h : Heap) (vs : List Value) :
    (∃ new, Pass s r ⟨(c.storeUpTo t h vs).2.2,(c.storeUpTo t h vs).2.1.captured⟩ (new ++ made)) ∧
      (c.storeUpTo t h vs).2.2.Balanced (((c.storeUpTo t h vs).1.map Stored.shares).sum +
        ((c.storeUpTo t h vs).2.1.shares + (out + extra))) := by
  induction vs generalizing c t made extra with
  | nil => exact ⟨⟨[],hp⟩,by simpa [storeUpTo] using hb⟩
  | cons v rest ih =>
    have hrt : c.registry < t.registries.size := by rwa [hcr, hp.later.size_eq]
    obtain ⟨new,hp'⟩ := pass_storeOne hs hr hcr hp hb h v
    have hb' := balanced_store hrt hb h v
    have hcr' := registry_store c t h v
    unfold storeUpTo
    rcases hstore : c.store t h v with ⟨o,c',t'⟩
    rw [hstore] at hp' hb' hcr'
    cases o with
    | error fault =>
      rw [granted_error, zero_add] at hb'
      exact ⟨⟨new,hp'⟩,by simpa using hb'⟩
    | ok object =>
      rw [granted_ok] at hb'
      have hb'' : t'.Balanced (c'.shares + (out + (object.shares + extra))) := by
        convert hb' using 1
        abel
      obtain ⟨⟨new',hp''⟩,hlast⟩ := ih (hcr'.trans hcr) hp' hb''
      refine ⟨⟨new' ++ new,by rwa [List.append_assoc]⟩,?_⟩
      simp only [List.map_cons, List.sum_cons]
      convert hlast using 1
      abel

end Capture

end Workers
