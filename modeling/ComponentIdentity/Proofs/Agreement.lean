import ComponentIdentity.Proofs.Acceptance
import ComponentIdentity.Proofs.Database
import ComponentIdentity.Proofs.Override

/-! # Two indexes that agree

The index in memory repairs its set of identifiers after each insertion, the
index that is stored replaces all identifiers of a run at once. While keys swap
theirs, two keys share one in memory only. Once a run is through, both give the
same answers, and the runs that the stored index refuses are those that would
leave a shared identifier in memory.
-/

namespace ComponentIdentity

namespace MemoryIndex

variable {memory : MemoryIndex} {tables : IdentityTables}

/-- The index in memory gives the answers of the tables, also to a resolution, and is the one that
their entries make. -/
structure Mirrors (memory : MemoryIndex) (tables : IdentityTables) : Prop where
  uuidForKey_eq : ∀ key, memory.uuidForKey key = tables.uuidForKey key
  containsUuid_eq : ∀ uuid, memory.containsUuid uuid = tables.containsUuid uuid
  size_eq : memory.size = tables.size
  eq_ofList_entries : memory = .ofList tables.entries
  resolve_eq : ∀ (report : Report) (m : Minter),
    (report.resolve memory.toIndex).run m = (report.resolve tables.toIndex).run m

theorem uuidForKey_ofList_entries : (ofList tables.entries).uuidForKey = tables.uuidForKey := by
  have hn : (tables.entries.map (·.1)).Nodup := by
    rw [IdentityTables.entries, Std.ExtTreeMap.map_fst_toList_eq_keys]
    exact Std.ExtTreeMap.nodup_keys
  funext key
  ext uuid
  have h : (ofList tables.entries).uuidForKey key = some uuid ↔ (key, uuid) ∈ tables.entries := by
    rw [ofList_eq_insertAll, uuidForKey_insertAll_iff hn, uuidForKey_empty]
    simp
  exact h.trans Std.ExtTreeMap.mem_toList_iff_getElem?_eq_some

theorem Faithful.mirrors (h : memory.Faithful) (hi : tables.Inverse)
    (he : memory.uuidForKey = tables.uuidForKey) : memory.Mirrors tables := by
  have hk : ∀ key, memory.uuidForKey key = tables.uuidForKey key := fun key => congrFun he key
  have hu : ∀ uuid, memory.containsUuid uuid = tables.containsUuid uuid := by
    intro uuid
    rw [Bool.eq_iff_iff, h, hi.containsUuid_iff]
    simp only [hk]
  refine ⟨hk, hu, ?_, ?_, fun report m => ?_⟩
  · have ht : memory.uuidsByKey = tables.uuidsByKey := Std.ExtTreeMap.ext_getElem? fun {key} => hk key
    rw [size, IdentityTables.size, ht]
  · exact h.eq_of_uuidForKey_eq (faithful_ofList _) (he.trans uuidForKey_ofList_entries.symm)
  · have ht : memory.toIndex = tables.toIndex := by
      simp only [toIndex, IdentityTables.toIndex, hk, hu]
    rw [ht]

end MemoryIndex

/-- A run for both indexes: one records its cache, the other inserts its identities in some
order. -/
structure Delivery where
  puts : List (Ref × ResolvedComponent)
  order : List (String × String)
  perm : order.Perm (RefCache.ofPuts puts).identities

def Delivery.cache (d : Delivery) : RefCache := RefCache.ofPuts d.puts

theorem Delivery.consistent_cache (d : Delivery) : d.cache.Consistent :=
  RefCache.consistent_ofPuts d.puts

def MemoryIndex.deliverAll (memory : MemoryIndex) (ds : List Delivery) : MemoryIndex :=
  ds.foldl (fun memory d => memory.insertAll d.order) memory

theorem Delivery.uuidForKey_insertAll {memory : MemoryIndex} (d : Delivery) :
    (memory.insertAll d.order).uuidForKey = d.cache.override memory.uuidForKey :=
  MemoryIndex.uuidForKey_insertAll d.consistent_cache d.perm

namespace Workspace

variable {w w' : Workspace} {path : Path} {index : OpenIndex} {memory : MemoryIndex}

def deliver? (w : Workspace) (d : Delivery) : Option Workspace :=
  w.index.bind fun index =>
    match w.record index d.cache with
    | (.ok _, w') => some w'
    | (.error _, _) => none

def deliverAll? (w : Workspace) (ds : List Delivery) : Option Workspace := ds.foldlM deliver? w

/-- What a further run does to both indexes: if it is accepted they agree afterwards, and it is
refused exactly if two keys in memory would share an identifier. -/
structure Alongside (w : Workspace) (index : OpenIndex) (memory : MemoryIndex) (d : Delivery) :
    Prop where
  mirrors_of_ok : ∀ n w', w.record index d.cache = (.ok n, w') →
    ∃ index', w'.index = some index' ∧ (memory.insertAll d.order).Mirrors index'.tables
  error_iff : (∃ e, (w.record index d.cache).1 = .error e) ↔
    ¬ (memory.insertAll d.order).Unique

structure Paired (path : Path) (w : Workspace) (index : OpenIndex) (memory : MemoryIndex) :
    Prop where
  serves : Serves path w index
  isOpen : w.Open index
  faithful : memory.Faithful
  uuidForKey_eq : memory.uuidForKey = index.tables.uuidForKey

namespace Paired

variable (h : Paired path w index memory) (d : Delivery)
include h

theorem record_of_ok {n : Nat} (hr : w.record index d.cache = (.ok n, w')) :
    ∃ index', Paired path w' index' (memory.insertAll d.order) := by
  rcases hc : index.tables.changes d.cache with e | changes
  · rw [record_of_error hc] at hr
    cases hr
  · obtain ⟨w₁, hw, ho, hs⟩ := h.serves.record h.isOpen d.consistent_cache hc
    cases hw.symm.trans hr
    refine ⟨_, hs, ho, h.faithful.insertAll, ?_⟩
    rw [d.uuidForKey_insertAll, h.uuidForKey_eq]
    exact (IdentityTables.uuidForKey_apply_changes d.consistent_cache hc).symm

theorem error_iff : (∃ e, (w.record index d.cache).1 = .error e) ↔
    ¬ (memory.insertAll d.order).Unique := by
  have hu : (memory.insertAll d.order).Unique ↔ Unshared (d.cache.override index.tables.uuidForKey) := by
    rw [← h.uuidForKey_eq, ← d.uuidForKey_insertAll]
    rfl
  rw [hu, ← IdentityTables.exists_changes_iff h.serves.inverse d.consistent_cache]
  rcases hc : index.tables.changes d.cache with e | changes
  · rw [record_of_error hc]
    simp
  · obtain ⟨w₁, hw, -⟩ := h.serves.record h.isOpen d.consistent_cache hc
    rw [hw]
    simp

theorem mirrors : memory.Mirrors index.tables :=
  h.faithful.mirrors h.serves.inverse h.uuidForKey_eq

theorem alongside : w.Alongside index memory d where
  mirrors_of_ok n w' hr := by
    obtain ⟨index', h'⟩ := h.record_of_ok d hr
    exact ⟨index', h'.isOpen.index_eq, h'.mirrors⟩
  error_iff := h.error_iff d

theorem deliver (hd : w.deliver? d = some w') :
    ∃ index', Paired path w' index' (memory.insertAll d.order) := by
  rw [deliver?, h.isOpen.index_eq, Option.bind_some] at hd
  split at hd
  next n w₁ hr =>
    cases hd
    exact h.record_of_ok d hr
  · cases hd

theorem deliverAll {ds : List Delivery} (hd : w.deliverAll? ds = some w') :
    ∃ index', Paired path w' index' (memory.deliverAll ds) := by
  induction ds generalizing w index memory with
  | nil => cases hd; exact ⟨index, h⟩
  | cons d ds ih =>
    rw [deliverAll?, List.foldlM_cons, Option.bind_eq_bind, Option.bind_eq_some_iff] at hd
    obtain ⟨w₁, hw, hd⟩ := hd
    obtain ⟨index₁, h₁⟩ := h.deliver d hw
    exact ih h₁ hd

end Paired

/-- Whatever was called on a database that starts empty, an index in memory with the same entries
agrees with the open one after any runs that are accepted, and on each further run. -/
theorem exists_mirrors (h : StartsEmpty path w) (calls : List Call)
    (hi : (w.run path calls).index = some index) (entries : List (String × String))
    (he : ∀ key, (MemoryIndex.ofList entries).uuidForKey key = index.tables.uuidForKey key)
    (ds : List Delivery) (hd : (w.run path calls).deliverAll? ds = some w') :
    ∃ index', w'.index = some index' ∧
      ((MemoryIndex.ofList entries).deliverAll ds).Mirrors index'.tables ∧
      ∀ d, w'.Alongside index' ((MemoryIndex.ofList entries).deliverAll ds) d := by
  obtain ⟨index₀, hs⟩ := h.serves
  obtain ⟨index₀, hs⟩ := hs.run calls
  rcases hs.open_or_closed with ho | hc
  · cases ho.index_eq.symm.trans hi
    have hp : Paired path (w.run path calls) index (.ofList entries) :=
      ⟨hs, ho, MemoryIndex.faithful_ofList entries, funext he⟩
    obtain ⟨index', hp⟩ := hp.deliverAll hd
    exact ⟨index', hp.isOpen.index_eq, hp.mirrors, fun d => hp.alongside d⟩
  · rw [hc.index_eq] at hi
    cases hi

/-- Two keys swap their identifiers; in memory the second one is inserted first. -/
def swapBack : Delivery where
  puts := [(1, ⟨1, "P", "u"⟩), (2, ⟨2, "P:a", "v"⟩)]
  order := [("P:a", "v"), ("P", "u")]
  perm := by decide +kernel

theorem exists_mirrors_swapBack : StartsEmpty "index" bare ∧
    ∃ index w', (bare.run "index" swap).index = some index ∧
      (∀ key, (MemoryIndex.ofList [("P", "v"), ("P:a", "u")]).uuidForKey key =
        index.tables.uuidForKey key) ∧
      (bare.run "index" swap).deliverAll? [swapBack] = some w' ∧
      ∃ index', w'.index = some index' ∧
        ((MemoryIndex.ofList [("P", "v"), ("P:a", "u")]).deliverAll [swapBack]).Mirrors
          index'.tables ∧
        ∀ d, w'.Alongside index'
          ((MemoryIndex.ofList [("P", "v"), ("P:a", "u")]).deliverAll [swapBack]) d := by
  have hentries : (bare.run "index" swap).index.map (·.tables.entries) =
      some [("P", "v"), ("P:a", "u")] := by decide +kernel
  have hsome : ((bare.run "index" swap).deliverAll? [swapBack]).isSome := by decide +kernel
  obtain ⟨index, hi, hentries⟩ := Option.map_eq_some_iff.mp hentries
  obtain ⟨w', hd⟩ := Option.isSome_iff_exists.mp hsome
  have he : ∀ key, (MemoryIndex.ofList [("P", "v"), ("P:a", "u")]).uuidForKey key =
      index.tables.uuidForKey key := by
    rw [← hentries]
    exact congrFun MemoryIndex.uuidForKey_ofList_entries
  exact ⟨startsEmpty_bare, index, w', hi, he, hd,
    exists_mirrors startsEmpty_bare swap hi _ he [swapBack] hd⟩

end Workspace

end ComponentIdentity
