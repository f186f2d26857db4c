import Workers.Proofs.Ledger.Store
import Workers.Proofs.Registry.Roll
/-! # Registries answer as if names were never used again

A run of calls on the registries of a store is cut down to what happens to the arena of one of them:
the calls on it, and one release for every handle that a freed table drops, in the order of the
cascade.  Call by call the registry answers what a roll answers that is asked by names instead of
ids, as long as its creates are fewer than the generations of a slot.
-/
namespace Workers

/-- What is asked of a registry whose entries go by names in `ι`. -/
inductive Request (ι : Type) where
  | create (table : SharedTable) (holder : Holder)
  | addReference (name : ι) (holder : Holder)
  | release (name : ι) (holder : Holder)
  | releaseAll (holder : Holder) (names : List ι)
  | referenceCount (name : ι)
  | isAlive (name : ι)
  | liveEntries
  | table (name : ι)
  | setTable (name : ι) (content : Guarded SharedTable)

inductive Reply (ι : Type) where
  | created (name : ι)
  | added (outcome : Except Fault Unit)
  | released (freed : Bool)
  | done
  | count (n : Nat)
  | alive (b : Bool)
  | content (outcome : Except Fault (Guarded SharedTable))

section Naming

variable {ι κ : Type}

def Request.map (f : ι → κ) : Request ι → Request κ
  | .create content holder => .create content holder
  | .addReference name holder => .addReference (f name) holder
  | .release name holder => .release (f name) holder
  | .releaseAll holder names => .releaseAll holder (names.map f)
  | .referenceCount name => .referenceCount (f name)
  | .isAlive name => .isAlive (f name)
  | .liveEntries => .liveEntries
  | .table name => .table (f name)
  | .setTable name content => .setTable (f name) content

def Request.creates : Request ι → Bool
  | .create .. => true
  | _ => false

def Reply.map (f : ι → κ) : Reply ι → Reply κ
  | .created name => .created (f name)
  | .added outcome => .added outcome
  | .released freed => .released freed
  | .done => .done
  | .count n => .count n
  | .alive b => .alive b
  | .content outcome => .content outcome

def Reply.issued : Reply ι → List ι
  | .created name => [name]
  | _ => []

abbrev Transcript (ι : Type) := List (Request ι × Reply ι)

def Transcript.issued (log : Transcript ι) : List ι := log.flatMap fun line => line.2.issued

end Naming

/-- A transcript with the name of its create in place of every id.  Only the ids issued so far have
one: a request is made before its own answer, so what it creates has no name yet. -/
def Transcript.named (ids : List EntryId) : Transcript EntryId → Transcript Nat
  | [] => []
  | (request,reply) :: rest =>
    (request.map ids.idxOf,reply.map (ids ++ reply.issued).idxOf) :: named (ids ++ reply.issued) rest

def Store.serve (s : Store) (r : RegistryId) : Request EntryId → Reply EntryId × Store
  | .create table holder => let (id,t) := s.create r table holder; (.created id,t)
  | .addReference id holder =>
    match s.addReference r id holder with
    | .ok t => (.added (.ok ()),t)
    | .error fault => (.added (.error fault),s)
  | .release id holder => let (freed,t) := s.release r id holder; (.released freed,t)
  | .releaseAll holder ids => (.done,s.releaseAll r holder ids)
  | .referenceCount id => (.count (s.referenceCount r id),s)
  | .isAlive id => (.alive (s.isAlive r id),s)
  | .liveEntries => (.count (s.liveEntries r),s)
  | .table id => (.content (s.table r id),s)
  | .setTable id content => (.done,s.setTable r id content)

def Arena.answer (a : Arena (Guarded SharedTable)) :
    Request EntryId → Reply EntryId × Arena (Guarded SharedTable)
  | .create table holder => let (id,b) := a.create ⟨table,false⟩ holder; (.created id,b)
  | .addReference id holder =>
    match a.addReference id holder with
    | .ok b => (.added (.ok ()),b)
    | .error fault => (.added (.error fault),a)
  | .release id holder => let (freed,b) := a.detach id holder; (.released freed.isSome,b)
  | .releaseAll holder ids => (.done,ids.foldl (fun a id => (a.detach id holder).2) a)
  | .referenceCount id => (.count (a.referenceCount id),a)
  | .isAlive id => (.alive (a.isAlive id),a)
  | .liveEntries => (.count a.live,a)
  | .table id =>
    (.content (match a.find? id with | some e => .ok e.content | none => .error .brokenReference),a)
  | .setTable id content => (.done,a.setContent id content)

namespace Roll

variable {τ : Type}

def answer (roll : Roll (Guarded SharedTable)) : Request Nat → Reply Nat × Roll (Guarded SharedTable)
  | .create table holder => let (name,next) := roll.create ⟨table,false⟩ holder; (.created name,next)
  | .addReference name holder =>
    match roll.addReference name holder with
    | .ok next => (.added (.ok ()),next)
    | .error fault => (.added (.error fault),roll)
  | .release name holder => let (freed,next) := roll.release name holder; (.released freed,next)
  | .releaseAll holder names => (.done,roll.releaseAll holder names)
  | .referenceCount name => (.count (roll.referenceCount name),roll)
  | .isAlive name => (.alive (roll.find? name).isSome,roll)
  | .liveEntries => (.count roll.live,roll)
  | .table name => (.content (roll.content name),roll)
  | .setTable name content => (.done,roll.setContent name content)

def answers (roll : Roll (Guarded SharedTable)) : List (Request Nat) → List (Reply Nat)
  | [] => []
  | request :: rest => (roll.answer request).1 :: (roll.answer request).2.answers rest

def after (roll : Roll (Guarded SharedTable)) (requests : List (Request Nat)) :
    Roll (Guarded SharedTable) :=
  requests.foldl (fun roll request => (roll.answer request).2) roll

def Forgotten (roll : Roll τ) (name : Nat) : Prop := name < roll.lines.length ∧ roll.find? name = none

variable {roll : Roll τ} {name : Nat}

theorem Forgotten.setLine (h : roll.Forgotten name) {other : Nat} {k : Line τ}
    (hk : roll.find? other = some k) (line : Option (Line τ)) :
    (roll.setLine other line).Forgotten name := by
  refine ⟨by simpa [Roll.setLine] using h.1,?_⟩
  have hne : name ≠ other := fun hn => by simp [← hn, h.2] at hk
  rw [find?_setLine (lt_of_find? hk), if_neg hne, h.2]

theorem Forgotten.create (h : roll.Forgotten name) (content : τ) (holder : Holder) :
    (roll.create content holder).2.Forgotten name := by
  refine ⟨by simp [Roll.create]; have := h.1; omega,?_⟩
  rw [find?_create, if_neg (Nat.ne_of_lt h.1), h.2]

theorem Forgotten.addReference (h : roll.Forgotten name) {other : Nat} {holder : Holder} {next : Roll τ}
    (hnext : roll.addReference other holder = .ok next) : next.Forgotten name := by
  unfold Roll.addReference at hnext
  split at hnext
  · cases hnext
    exact h.setLine ‹_› _
  · cases hnext

theorem Forgotten.release (h : roll.Forgotten name) (other : Nat) (holder : Holder) :
    (roll.release other holder).2.Forgotten name := by
  unfold Roll.release
  split
  · split
    · exact h.setLine ‹_› _
    · exact h.setLine ‹_› _
  · exact h

theorem Forgotten.releaseAll (h : roll.Forgotten name) (holder : Holder) (names : List Nat) :
    (roll.releaseAll holder names).Forgotten name := by
  induction names generalizing roll with
  | nil => exact h
  | cons other rest ih => exact ih (h.release other holder)

theorem Forgotten.setContent (h : roll.Forgotten name) (other : Nat) (content : τ) :
    (roll.setContent other content).Forgotten name := by
  unfold Roll.setContent
  split
  · exact h.setLine ‹_› _
  · exact h

/-- No request brings a forgotten name back. -/
theorem Forgotten.answer {roll : Roll (Guarded SharedTable)} (h : roll.Forgotten name)
    (request : Request Nat) :
    (roll.answer request).2.Forgotten name := by
  cases request with
  | create table holder => exact h.create _ holder
  | addReference other holder =>
    simp only [Roll.answer]
    cases hadd : roll.addReference other holder with
    | ok next => exact h.addReference hadd
    | error fault => exact h
  | release other holder => exact h.release other holder
  | releaseAll holder names => exact h.releaseAll holder names
  | setTable other content => exact h.setContent other content
  | referenceCount | isAlive | liveEntries | table => exact h

theorem Forgotten.after {roll : Roll (Guarded SharedTable)} (h : roll.Forgotten name)
    (requests : List (Request Nat)) :
    (roll.after requests).Forgotten name := by
  induction requests generalizing roll with
  | nil => exact h
  | cons request rest ih => exact ih (h.answer request)

end Roll

namespace Arena

def Gives (a : Arena (Guarded SharedTable)) : Transcript EntryId → Arena (Guarded SharedTable) → Prop
  | [], b => a = b
  | (request,reply) :: rest, b => (a.answer request).1 = reply ∧ (a.answer request).2.Gives rest b

theorem Gives.append {a b c : Arena (Guarded SharedTable)} {log log' : Transcript EntryId}
    (h : a.Gives log b) (h' : b.Gives log' c) : a.Gives (log ++ log') c := by
  induction log generalizing a with
  | nil =>
    obtain rfl : a = b := h
    exact h'
  | cons line rest ih => exact ⟨h.1,ih h.2⟩

/-- Every empty slot waits once on the stack of free slots, and no other does. -/
theorem Sound.count_free {τ : Type} {a : Arena τ} (ha : a.Sound) (i : Nat) :
    a.free.count i = if a.slots[i]?.any (fun slot => slot.entry.isNone) then 1 else 0 := by
  rw [ha.free_nodup.count]
  congr 1
  rw [eq_iff_iff]
  constructor
  · intro hi
    obtain ⟨slot,hs,hempty⟩ := ha.free_empty i hi
    simp [hs, hempty]
  · intro hi
    cases hs : a.slots[i]? with
    | none => simp [hs] at hi
    | some slot => exact ha.empty_free i slot hs (by simpa [hs] using hi)

namespace Mirrors

variable {a b : Arena (Guarded SharedTable)} {roll : Roll (Guarded SharedTable)} {ids : List EntryId}

theorem releaseAll (h : a.Mirrors roll ids) (hfew : ids.length < 2 ^ 32) (holder : Holder)
    (names : List EntryId) :
    Mirrors (names.foldl (fun a id => (a.detach id holder).2) a)
      (roll.releaseAll holder (names.map ids.idxOf))
      ids := by
  induction names generalizing a roll with
  | nil => exact h
  | cons id rest ih => exact ih (h.detach hfew id holder).2

theorem append_nil (h : a.Mirrors roll ids) : a.Mirrors roll (ids ++ []) := by rwa [List.append_nil]

/-- The arena answers by ids what the roll answers by names, and mirrors it again afterwards. -/
theorem answer (h : a.Mirrors roll ids) (hfew : ids.length < 2 ^ 32) (request : Request EntryId) :
    (roll.answer (request.map ids.idxOf)).1 = (a.answer request).1.map
      (ids ++ (a.answer request).1.issued).idxOf ∧
      (a.answer request).2.Mirrors (roll.answer (request.map ids.idxOf)).2
        (ids ++ (a.answer request).1.issued) := by
  cases request with
  | create table holder =>
    have hnext := h.create ⟨table,false⟩ holder
    have hname : (ids ++ [(a.create ⟨table,false⟩ holder).1]).idxOf
        (a.create ⟨table,false⟩ holder).1 = ids.length :=
      hnext.name_eq (by simp)
    exact ⟨congrArg Reply.created (h.length_eq.trans hname.symm),hnext⟩
  | addReference id holder =>
    have hadd := h.addReference id holder
    simp only [Arena.answer, Roll.answer, Request.map]
    cases ha : a.addReference id holder with
    | ok b =>
      rw [ha] at hadd
      obtain ⟨next,hnext,hb⟩ := hadd
      rw [hnext]
      exact ⟨rfl,hb.append_nil⟩
    | error fault =>
      rw [ha] at hadd
      rw [show roll.addReference (ids.idxOf id) holder = .error fault from hadd]
      exact ⟨rfl,h.append_nil⟩
  | release id holder =>
    obtain ⟨hfreed,hb⟩ := h.detach hfew id holder
    exact ⟨congrArg Reply.released hfreed,hb.append_nil⟩
  | releaseAll holder names => exact ⟨rfl,(h.releaseAll hfew holder names).append_nil⟩
  | referenceCount id => exact ⟨congrArg Reply.count (h.referenceCount id),h.append_nil⟩
  | isAlive id =>
    refine ⟨congrArg Reply.alive ?_,h.append_nil⟩
    rw [h.find? id, Option.isSome_map]
    rfl
  | liveEntries => exact ⟨congrArg Reply.count h.live_eq,h.append_nil⟩
  | table id =>
    refine ⟨congrArg Reply.content ?_,h.append_nil⟩
    unfold Roll.content
    rw [h.find? id]
    cases a.find? id <;> rfl
  | setTable id content => exact ⟨rfl,(h.setContent id content).append_nil⟩

/-- So it does along every transcript whose creates stay below the number of generations. -/
theorem gives {log : Transcript EntryId} (h : a.Mirrors roll ids)
    (hfew : (ids ++ log.issued).length < 2 ^ 32) (hlog : a.Gives log b) :
    roll.answers ((log.named ids).map Prod.fst) = (log.named ids).map Prod.snd ∧
      b.Mirrors (roll.after ((log.named ids).map Prod.fst)) (ids ++ log.issued) := by
  induction log generalizing a roll ids with
  | nil =>
    obtain rfl : a = b := hlog
    exact ⟨rfl,h.append_nil⟩
  | cons line rest ih =>
    obtain ⟨request,reply⟩ := line
    obtain ⟨rfl,hrest⟩ := hlog
    have hissued : ids ++ Transcript.issued ((request,(a.answer request).1) :: rest) =
        ids ++ (a.answer request).1.issued ++ Transcript.issued rest := by simp [Transcript.issued]
    rw [hissued] at hfew ⊢
    obtain ⟨hreply,hnext⟩ := h.answer (by simp at hfew; omega) request
    obtain ⟨hreplies,hend⟩ := ih hnext hfew hrest
    refine ⟨?_,hend⟩
    simp only [Transcript.named, List.map_cons, Roll.answers, hreply, hreplies]

end Mirrors

end Arena

namespace Store

def frees (s : Store) (r : RegistryId) : Request EntryId → List TableHandle × Store
  | .release id holder => let (freed,t) := s.detach r id holder; (freed.elim [] SharedTable.handles,t)
  | .releaseAll holder ids =>
    let (freed,t) := s.detachAll r holder ids; (freed.flatMap SharedTable.handles,t)
  | request => ([],(s.serve r request).2)

def giveUp (s : Store) (x : Share) : Store := (s.detach x.registry x.entry x.holder).2

def cascade (s : Store) (handles : List TableHandle) : List Share :=
  match handles with
  | [] => []
  | h :: rest =>
    if h.strong then
      ⟨h.registry,h.entry,h.holder⟩ ::
        match _eq : s.detach h.registry h.entry h.holder with
        | (some table,t) => t.cascade (table.handles ++ rest)
        | (none,t) => t.cascade rest
    else s.cascade rest
termination_by (s.occupied,handles.length)
decreasing_by
  · exact Prod.Lex.left _ _ (detach_occupied_lt _eq)
  · rcases Nat.lt_or_eq_of_le (detach_occupied_le _eq) with lt | eq
    · exact Prod.Lex.left _ _ lt
    · rw [eq]; exact Prod.Lex.right _ (by simp)
  · exact Prod.Lex.right _ (by simp)

def releases (q : RegistryId) (s : Store) : List Share → Transcript EntryId
  | [] => []
  | x :: rest =>
    (if x.registry = q then
      [(.release x.entry x.holder,.released (s.detach x.registry x.entry x.holder).1.isSome)] else []) ++
      releases q (s.giveUp x) rest

/-- The transcript of one registry during calls on the registries of a store: every call on it with
the answer, followed by the releases in it that the call entails. -/
def transcript (q : RegistryId) (s : Store) : List (RegistryId × Request EntryId) → Transcript EntryId
  | [] => []
  | (r,request) :: rest =>
    (if r = q then [(request,(s.serve r request).1)] else []) ++
      releases q (s.frees r request).2 ((s.frees r request).2.cascade (s.frees r request).1) ++
      transcript q (s.serve r request).2 rest

def after (s : Store) (calls : List (RegistryId × Request EntryId)) : Store :=
  calls.foldl (fun s call => (s.serve call.1 call.2).2) s

variable {s : Store} {q r : RegistryId}

/-- Dropping handles is the releases of its cascade, one after another. -/
theorem settle_eq_cascade (s : Store) (hs : List TableHandle) :
    s.settle hs = (s.cascade hs).foldl giveUp s := by
  induction s, hs using Store.settle.induct with
  | case1 s => rw [Store.settle, cascade, List.foldl_nil]
  | case2 s handle rest hstrong table t heq ih =>
    rw [settle_cons_strong s hstrong, cascade, if_pos hstrong, List.foldl_cons, heq]
    simp only [Option.elim_some, giveUp, heq]
    exact ih
  | case3 s handle rest hstrong t heq ih =>
    rw [settle_cons_strong s hstrong, cascade, if_pos hstrong, List.foldl_cons, heq]
    simp only [Option.elim_none, List.nil_append, giveUp, heq]
    exact ih
  | case4 s handle rest hnot ih =>
    rw [settle_cons_weak s hnot, cascade, if_neg hnot]
    exact ih

/-- A call is its own effect and then the cascade. -/
theorem serve_eq_settle (s : Store) (r : RegistryId) (request : Request EntryId) :
    (s.serve r request).2 = (s.frees r request).2.settle (s.frees r request).1 := by
  cases request with
  | release id holder =>
    simp only [serve, frees, release]
    split
    · rename_i table t heq; simp [heq]
    · rename_i t heq; simp [heq]
  | releaseAll holder ids => rfl
  | create | addReference | referenceCount | isAlive | liveEntries | table | setTable => simp [frees]

theorem arena_detach (hq : q < s.registries.size) (id : EntryId) (holder : Holder) :
    (s.detach r id holder).2.arena q = if r = q then ((s.arena q).detach id holder).2
      else s.arena q := by
  unfold detach
  by_cases hr : r = q
  · subst hr
    simp [hq, arena_setArena]
  · split
    · simp [arena_setArena, Ne.symm hr]
    · simp

theorem detach_fst (r : RegistryId) (id : EntryId) (holder : Holder) :
    (s.detach r id holder).1.isSome = ((s.arena r).detach id holder).1.isSome := by
  unfold detach
  split
  · simp
  · simp [arena_of_not_lt ‹_›, Arena.detach]

theorem registries_detach (r : RegistryId) (id : EntryId) (holder : Holder) :
    (s.detach r id holder).2.registries.size = s.registries.size := later_detach.size_eq

theorem arena_detachAll (hq : q < s.registries.size) (holder : Holder) (ids : List EntryId) :
    (s.detachAll r holder ids).2.arena q =
      if r = q then ids.foldl (fun a id => (a.detach id holder).2) (s.arena q) else s.arena q := by
  induction ids generalizing s with
  | nil => simp [detachAll]
  | cons id rest ih =>
    simp only [detachAll, List.foldl_cons]
    rw [ih (by rwa [registries_detach]), arena_detach hq]
    split <;> rfl

/-- A call answers what the arena of its registry answers. -/
theorem serve_fst (s : Store) (r : RegistryId) (request : Request EntryId) :
    (s.serve r request).1 = ((s.arena r).answer request).1 := by
  cases request with
  | addReference id holder =>
    simp only [serve, Arena.answer, Store.addReference]
    cases (s.arena r).addReference id holder <;> rfl
  | release id holder =>
    simp only [serve, Arena.answer, ← detach_fst, release]
    split <;> simp_all
  | create | releaseAll | referenceCount | isAlive | liveEntries | table | setTable => rfl

/-- By itself a request changes the arena of its registry alone. -/
theorem arena_frees (hq : q < s.registries.size) (r : RegistryId) (request : Request EntryId) :
    (s.frees r request).2.arena q = if r = q then ((s.arena q).answer request).2 else s.arena q := by
  have hset (a : Arena (Guarded SharedTable)) : (s.setArena r a).arena q = if r = q then a
      else s.arena q := by
    rw [arena_setArena]
    by_cases hr : r = q
    · simp [hr, hq]
    · simp [hr, Ne.symm hr]
  cases request with
  | create table holder =>
    simp only [frees, serve, create, hset, Arena.answer]
    split <;> simp_all
  | addReference id holder =>
    simp only [frees, serve, Store.addReference, Arena.answer]
    cases hadd : (s.arena r).addReference id holder with
    | ok b =>
      simp only [Except.map, hset]
      split
      · rename_i hr; subst hr; simp [hadd]
      · rfl
    | error fault =>
      simp only [Except.map]
      split
      · rename_i hr; subst hr; simp [hadd]
      · rfl
  | release id holder => exact arena_detach hq id holder
  | releaseAll holder ids => exact arena_detachAll hq holder ids
  | setTable id content =>
    simp only [frees, serve, setTable, hset, Arena.answer]
    split <;> simp_all
  | referenceCount | isAlive | liveEntries | table => simp [frees, serve, Arena.answer]

theorem registries_frees (s : Store) (r : RegistryId) (request : Request EntryId) :
    (s.frees r request).2.registries.size = s.registries.size := by
  cases request with
  | addReference id holder =>
    simp only [frees, serve]
    split
    · exact (later_addReference ‹_›).size_eq
    · rfl
  | release id holder => exact registries_detach r id holder
  | releaseAll holder ids => exact (later_detachAll ids).size_eq
  | create table holder => exact registries_setRegistry s r _
  | setTable id content => exact registries_setRegistry s r _
  | referenceCount | isAlive | liveEntries | table => rfl

theorem registries_serve (s : Store) (r : RegistryId) (request : Request EntryId) :
    (s.serve r request).2.registries.size = s.registries.size := by
  rw [serve_eq_settle, (later_settle _ _).size_eq, registries_frees]

theorem gives_releases (hq : q < s.registries.size) (xs : List Share) :
    (s.arena q).Gives (s.releases q xs) ((xs.foldl giveUp s).arena q) := by
  induction xs generalizing s with
  | nil => exact rfl
  | cons x rest ih =>
    have hnext := ih (s := s.giveUp x) (by rwa [giveUp, registries_detach])
    refine Arena.Gives.append (b := (s.giveUp x).arena q) ?_ hnext
    have harena := arena_detach hq (r := x.registry) x.entry x.holder
    split
    · rename_i hx
      rw [if_pos hx] at harena
      exact ⟨by rw [detach_fst, hx]; rfl,harena.symm⟩
    · rename_i hx
      rw [if_neg hx] at harena
      exact harena.symm

/-- The transcript of a registry is what its arena answers. -/
theorem gives_transcript (hq : q < s.registries.size) (calls : List (RegistryId × Request EntryId)) :
    (s.arena q).Gives (s.transcript q calls) ((s.after calls).arena q) := by
  induction calls generalizing s with
  | nil => exact rfl
  | cons call rest ih =>
    obtain ⟨r,request⟩ := call
    have hnext := ih (s := (s.serve r request).2) (by rwa [registries_serve])
    refine Arena.Gives.append (Arena.Gives.append (b := (s.frees r request).2.arena q) ?_ ?_) hnext
    · have harena := arena_frees hq r request
      split
      · rename_i hr
        rw [if_pos hr] at harena
        exact ⟨by rw [serve_fst, hr],harena.symm⟩
      · rename_i hr
        rw [if_neg hr] at harena
        exact harena.symm
    · rw [serve_eq_settle, settle_eq_cascade]
      exact gives_releases (by rwa [registries_frees]) _

theorem issued_releases (s : Store) (xs : List Share) : (s.releases q xs).issued = [] := by
  induction xs generalizing s with
  | nil => rfl
  | cons x rest ih =>
    have hrest := ih (s.giveUp x)
    simp only [Transcript.issued, releases, List.flatMap_append] at hrest ⊢
    rw [hrest]
    split <;> simp [Reply.issued]

theorem registries_after (s : Store) (calls : List (RegistryId × Request EntryId)) :
    (s.after calls).registries.size = s.registries.size := by
  induction calls generalizing s with
  | nil => rfl
  | cons call rest ih => exact (ih _).trans (registries_serve s call.1 call.2)

theorem length_issued (s : Store) (r : RegistryId) (request : Request EntryId) :
    (s.serve r request).1.issued.length = request.creates.toNat := by
  cases request with
  | addReference id holder =>
    simp only [serve]
    split <;> rfl
  | create | release | releaseAll | referenceCount | isAlive | liveEntries | table | setTable => rfl

/-- The ids issued by a registry are as many as the creates on it. -/
theorem length_issued_transcript (s : Store) (q : RegistryId)
    (calls : List (RegistryId × Request EntryId)) :
    (s.transcript q calls).issued.length = calls.countP fun call => call.1 = q ∧
    call.2.creates := by
  induction calls generalizing s with
  | nil => rfl
  | cons call rest ih =>
    obtain ⟨r,request⟩ := call
    have hrest := ih (s.serve r request).2
    have hnone := issued_releases (q := q) (s.frees r request).2
      ((s.frees r request).2.cascade (s.frees r request).1)
    simp only [Transcript.issued] at hrest hnone ⊢
    simp only [transcript, List.flatMap_append, List.length_append, hrest, hnone, List.length_nil,
      List.countP_cons]
    have hone := length_issued s r request
    by_cases hr : r = q
    · subst hr
      cases hc : request.creates <;> simp [hc, hone, Nat.add_comm]
    · simp [hr]

theorem after_append (s : Store) (calls calls' : List (RegistryId × Request EntryId)) :
    s.after (calls ++ calls') = (s.after calls).after calls' := List.foldl_append

theorem transcript_append (s : Store) (q : RegistryId)
    (calls calls' : List (RegistryId × Request EntryId)) :
    s.transcript q (calls ++ calls') = s.transcript q calls ++ (s.after calls).transcript q
      calls' := by
  induction calls generalizing s with
  | nil => rfl
  | cons call rest ih =>
    simp only [List.cons_append, transcript, ih, List.append_assoc]
    rfl

theorem setArena_self (s : Store) (r : RegistryId) : s.setArena r (s.arena r) = s := by
  have hmodify : (s.registries.modify r fun _ => { s.registry r with arena := s.arena r }) =
      s.registries := by
    apply Array.ext_getElem?
    intro i
    rw [Array.getElem?_modify]
    split
    · rename_i hi
      subst hi
      cases hr : s.registries[r]? <;> simp [registry, arena, hr]
    · rfl
  simp only [setArena, setRegistry, hmodify]

theorem detach_of_find?_none {id : EntryId} (hid : (s.arena r).find? id = none) (holder : Holder) :
    s.detach r id holder = (none,s) := by
  unfold detach
  rw [Arena.detach_of_not_holds (Arena.not_holds hid holder)]
  split
  · simp [setArena_self]
  · rfl

/-- A release brings no id back. -/
theorem find?_detach_none {id : EntryId} (hid : (s.arena r).find? id = none) (other : EntryId)
    (holder : Holder) :
    ((s.detach r other holder).2.arena r).find? id = none := by
  by_cases hh : (s.arena r).Holds other holder
  · obtain ⟨e,he,hm⟩ := hh
    have hne : id ≠ other := fun h => by simp [← h, hid] at he
    rw [arena_detach (lt_of_find? he), if_pos rfl]
    rcases Arena.detach_of_holds he hm with ⟨_,hd⟩ | ⟨_,hd⟩
    · rw [hd, Arena.find?_vacate_live he, if_neg hne, hid]
    · rw [hd, Arena.find?_setEntry_live he, if_neg hne, hid]
  · unfold detach
    rw [Arena.detach_of_not_holds hh]
    split
    · simpa [setArena_self] using hid
    · exact hid

theorem detachAll_filter {id : EntryId} (hid : (s.arena r).find? id = none) (holder : Holder)
    (ids : List EntryId) :
    s.detachAll r holder (ids.filter (· ≠ id)) = s.detachAll r holder ids := by
  induction ids generalizing s with
  | nil => rfl
  | cons other rest ih =>
    by_cases ho : other = id
    · subst ho
      simp only [ne_eq, not_true_eq_false, decide_false, Bool.false_eq_true, not_false_eq_true,
        List.filter_cons_of_neg, detachAll, detach_of_find?_none hid, Option.toList_none,
        List.nil_append]
      exact ih hid
    · rw [List.filter_cons_of_pos (by simpa using ho)]
      simp only [detachAll]
      rw [ih (find?_detach_none hid other holder)]

/-- Nothing is left of the entry of an id, and no call by this id changes the registry. -/
structure Dead (s : Store) (q : RegistryId) (id : EntryId) : Prop where
  isAlive : s.isAlive q id = false
  referenceCount : s.referenceCount q id = 0
  table : s.table q id = .error .brokenReference
  setTable : ∀ content, s.setTable q id content = s
  addReference : ∀ holder, s.addReference q id holder = .error .brokenReference
  release : ∀ holder, s.release q id holder = (false,s)
  releaseAll : ∀ holder ids, s.releaseAll q holder ids = s.releaseAll q holder (ids.filter (· ≠ id))

theorem dead_of_find?_none {id : EntryId} (hid : (s.arena q).find? id = none) : s.Dead q id where
  isAlive := by simp [Store.isAlive, Arena.isAlive, hid]
  referenceCount := by simp [Store.referenceCount, Arena.referenceCount, hid]
  table := by simp [Store.table, hid]
  setTable content := by simp [Store.setTable, Arena.setContent, hid, setArena_self]
  addReference holder := by simp [Store.addReference, Arena.addReference, hid, Except.map]
  release holder := by simp [Store.release, detach_of_find?_none hid]
  releaseAll holder ids := by simp only [Store.releaseAll, detachAll_filter hid]

/-- In a registry that started empty, an id issued and not alive any more is dead ever after. -/
theorem dead_after {roll : Roll (Guarded SharedTable)} {ids : List EntryId}
    (h : (s.arena q).Mirrors roll ids) (hq : q < s.registries.size)
    {calls : List (RegistryId × Request EntryId)}
    (hfew : (ids ++ (s.transcript q calls).issued).length < 2 ^ 32) {id : EntryId}
    (hid : id ∈ ids) (hgone : s.isAlive q id = false) : (s.after calls).Dead q id := by
  obtain ⟨k,hk⟩ := List.getElem?_of_mem hid
  have hnone : (s.arena q).find? id = none := by simpa [Store.isAlive, Arena.isAlive] using hgone
  have hforgotten : roll.Forgotten k := by
    refine ⟨h.length_eq ▸ (List.getElem?_eq_some_iff.mp hk).1,?_⟩
    rw [h.same k id hk, hnone]
    rfl
  obtain ⟨_,hend⟩ := h.gives hfew (gives_transcript hq calls)
  have hstruck := hforgotten.after (((s.transcript q calls).named ids).map Prod.fst)
  have hsame :=
    hend.same k id (by rw [List.getElem?_append_left (List.getElem?_eq_some_iff.mp hk).1, hk])
  rw [hstruck.2] at hsame
  exact dead_of_find?_none (by simpa using hsame.symm)

/-- A registry that starts empty and sees fewer than `2 ^ 32` creates answers like the store whose
names are never used again: the n-th create gives out the name n, and an entry is forgotten when
its last holder leaves.  No id is issued twice, an id that is not alive any more is dead for ever,
every empty slot waits once on the stack of free slots, the live counter counts the occupied slots,
and every live entry has a holder. -/
theorem never_reuses (hq : q < s.registries.size) (hnew : s.arena q = {})
    {before later : List (RegistryId × Request EntryId)}
    (hfew : (before ++ later).countP (fun call => call.1 = q ∧ call.2.creates) < 2 ^ 32) :
    let log := s.transcript q (before ++ later)
    let t := s.after (before ++ later)
    Roll.answers {} ((log.named []).map Prod.fst) = (log.named []).map Prod.snd ∧
      log.issued.Nodup ∧
      (∀ id ∈ (s.transcript q before).issued, (s.after before).isAlive q id = false → t.Dead q id) ∧
      (∀ i, (t.arena q).free.count i =
        if (t.arena q).slots[i]?.any (fun slot => slot.entry.isNone) then 1 else 0) ∧
      t.liveEntries q = (t.arena q).occupied ∧
      ∀ id e, (t.arena q).find? id = some e → e.holders ≠ [] := by
  intro log t
  have hstart : (s.arena q).Mirrors {} [] := hnew ▸ Arena.mirrors_empty
  have hcount := length_issued_transcript s q (before ++ later)
  have hall : ([] ++ log.issued).length < 2 ^ 32 := by
    rw [List.nil_append, hcount]
    exact hfew
  obtain ⟨hanswers,hend⟩ := hstart.gives hall (gives_transcript hq _)
  refine ⟨hanswers,by simpa using hend.issued.nodup,?_,?_,hend.sound.live_eq,hend.sound.holders_ne_nil⟩
  · intro id hid hgone
    have hsplit : log.issued = (s.transcript q before).issued ++
        ((s.after before).transcript q later).issued := by
      simp only [log, transcript_append, Transcript.issued, List.flatMap_append]
    have hfirst : ([] ++ (s.transcript q before).issued).length < 2 ^ 32 := by
      rw [hsplit] at hall
      simp at hall ⊢
      omega
    obtain ⟨_,hmid⟩ := hstart.gives hfirst (gives_transcript hq before)
    have hsize : q < (s.after before).registries.size := by rwa [registries_after]
    rw [List.nil_append] at hmid hall
    rw [hsplit] at hall
    simp only [t, after_append]
    exact dead_after hmid hsize hall hid hgone
  · exact fun i => hend.sound.count_free i

/-- An entry is filed and freed, and the next one takes over its slot: the old id is dead. -/
theorem never_reuses_slot_taken_over :
    let s : Store := ⟨#[{}]⟩
    let before : List (RegistryId × Request EntryId) :=
      [(0,.create .empty (.context 1)),(0,.release ⟨0,0⟩ (.context 1))]
    let later : List (RegistryId × Request EntryId) :=
      [(0,.create .empty (.store 2)),(0,.release ⟨0,0⟩ (.store 2))]
    0 < s.registries.size ∧ s.arena 0 = {} ∧
      (before ++ later).countP (fun call => call.1 = 0 ∧ call.2.creates) < 2 ^ 32 ∧
      (s.transcript 0 (before ++ later)).issued.Nodup ∧
      (s.after (before ++ later)).Dead 0 ⟨0,0⟩ := by
  intro s before later
  have hfew : (before ++ later).countP (fun call => call.1 = 0 ∧ call.2.creates) < 2 ^ 32 := by decide
  have hissued : ⟨0,0⟩ ∈ (s.transcript 0 before).issued := by
    have hfirst : (s.serve 0 (.create .empty (.context 1))).1 = .created ⟨0,0⟩ := rfl
    simp [Transcript.issued, before, transcript, hfirst, Reply.issued]
  have hgone : (s.after before).isAlive 0 ⟨0,0⟩ = false := by
    have hafter : s.after before = ⟨#[⟨⟨#[⟨1,none⟩],[0],0⟩,1⟩]⟩ :=
      (serve_eq_settle _ _ _).trans (settle_nil _)
    rw [hafter]
    rfl
  obtain ⟨_,hnodup,hdead,_⟩ := never_reuses (s := s) (q := 0) (by decide) rfl hfew
  exact ⟨by decide,rfl,hfew,hnodup,hdead _ hissued hgone⟩

end Store

end Workers
