import ComponentIdentity.Proofs.Database
import ComponentIdentity.Proofs.Identifiers
import ComponentIdentity.Proofs.Override

/-! # Rounds of resolving and recording

What a resolution against an open index gives out fits that index: a recorded
key keeps its identifier and a new one takes an identifier that no key has. So
the record of a resolution is never refused, and it only adds.
-/

namespace ComponentIdentity

namespace IdentityTables

variable {tables tables' : IdentityTables} {cache : RefCache} {c : ResolvedComponent}
  {m : Minter} {n : Nat} {key uuid : String}

theorem sourced_toIndex_iff :
    Resolution.Sourced tables.toIndex m n key uuid ↔
      tables.uuidForKey key = some uuid ∨
        tables.uuidForKey key = none ∧ tables.containsUuid uuid = false ∧
          uuid ∈ m.upcoming n := by
  simp only [Resolution.Sourced, toIndex, Except.ok.injEq]

theorem Inverse.sound (h : tables.Inverse) : tables.toIndex.Sound where
  uuidForKey_ok _ := ⟨_, rfl⟩
  containsUuid_ok _ := ⟨_, rfl⟩
  contains key _ hk := congrArg Except.ok (h.containsUuid_iff.mpr ⟨key, Except.ok.inj hk⟩)
  eq_of_uuid_eq _ _ _ hk hk' := h.eq_of_uuid_eq (Except.ok.inj hk) (Except.ok.inj hk')

theorem knows_toIndex : tables.toIndex.knows key = (tables.uuidForKey key).isSome := by
  rw [IdentityIndex.knows, toIndex]
  cases h : tables.uuidForKey key <;> simp only [h] <;> rfl

/-- Every component has the identifier of its key, or a key and an identifier that are new. -/
def Suits (tables : IdentityTables) (cache : RefCache) : Prop :=
  ∀ r c, cache.get? r = some c → tables.uuidForKey c.key = some c.uuid ∨
    tables.uuidForKey c.key = none ∧ tables.containsUuid c.uuid = false

/-- The tables have what they had, the components of the cache, and `n` entries more. -/
structure Gains (tables : IdentityTables) (cache : RefCache) (n : Nat)
    (tables' : IdentityTables) : Prop where
  kept : ∀ key uuid, tables.uuidForKey key = some uuid → tables'.uuidForKey key = some uuid
  stored : ∀ r c, cache.get? r = some c → tables'.uuidForKey c.key = some c.uuid
  size_eq : tables'.size = tables.size + n

namespace Suits

variable (hs : tables.Suits cache)
include hs

theorem known (hi : tables.Inverse) : cache.Suits tables.uuidForKey := by
  intro r c hr
  rcases hs r c hr with hk | ⟨hk, hu⟩
  · exact .inl hk
  · refine .inr ⟨hk, fun key hkey => ?_⟩
    rw [hi.containsUuid_iff.mpr ⟨key, hkey⟩] at hu
    cases hu

theorem changes_eq (hi : tables.Inverse) (hc : cache.Consistent) :
    tables.changes cache = .ok ((components cache).filterMap tables.change?) := by
  obtain ⟨changes, h⟩ :=
    (exists_changes_iff hi hc).mpr ((hs.known hi).unshared_override hc hi.unshared)
  rw [h, eq_filterMap_of_changes hc h]

theorem previous_eq_none {change : IdentityChange}
    (hm : change ∈ (components cache).filterMap tables.change?) : change.previous = none := by
  obtain ⟨r, c, hr, hn, rfl⟩ := mem_changes_iff.mp hm
  rcases hs r c hr with hk | ⟨hk, -⟩
  · exact absurd hk hn
  · exact hk

theorem length_changes :
    ((components cache).filterMap tables.change?).length =
      Resolution.countUnknown tables.toIndex cache := by
  rw [filterMap_change?, List.length_map, ← List.countP_eq_length_filter, components,
    List.countP_map]
  refine List.countP_congr ?_
  rintro ⟨r, c⟩ hm
  have hr := RefCache.mem_toList_iff.mp hm
  simp only [Function.comp_apply, knows_toIndex, decide_eq_true_eq, Bool.not_eq_true',
    Option.isSome_eq_false_iff, Option.isNone_iff_eq_none]
  rcases hs r c hr with hk | ⟨hk, -⟩ <;> simp [hk]

theorem gains (hi : tables.Inverse) (hc : cache.Consistent) :
    tables.Gains cache (Resolution.countUnknown tables.toIndex cache)
      (tables.apply ((components cache).filterMap tables.change?)) := by
  have hf := fits_of_changes hi hc (hs.changes_eq hi hc)
  have ho := uuidForKey_apply_changes hc (hs.changes_eq hi hc)
  refine ⟨fun key uuid hk => ?_, fun r c hr => ?_, ?_⟩
  · rw [ho]
    exact (hs.known hi).override_of_known hc hk
  · rw [ho]
    exact RefCache.override_of_get? hc hr
  · rw [hf.size_apply fun change hm => hs.previous_eq_none hm, hs.length_changes]

theorem uuidForKey_apply (hi : tables.Inverse) (hc : cache.Consistent)
    (hk : (tables.apply ((components cache).filterMap tables.change?)).uuidForKey key =
      some uuid) :
    tables.uuidForKey key = some uuid ∨
      ∃ r c, cache.get? r = some c ∧ c.key = key ∧ c.uuid = uuid := by
  rw [uuidForKey_apply_changes hc (hs.changes_eq hi hc), RefCache.override_eq_some_iff hc,
    RefCache.mem_identities_iff] at hk
  exact hk.symm.imp_left And.right

end Suits

theorem changes_of_stored (hi : tables.Inverse) (hc : cache.Consistent)
    (hs : ∀ r c, cache.get? r = some c → tables.uuidForKey c.key = some c.uuid) :
    tables.changes cache = .ok [] := by
  have hsuits : tables.Suits cache := fun r c hr => .inl (hs r c hr)
  rw [hsuits.changes_eq hi hc, Except.ok.injEq, List.filterMap_eq_nil_iff]
  intro c hm
  obtain ⟨r, hr⟩ := mem_components_iff.mp hm
  exact if_pos (hs r c hr)

end IdentityTables

namespace Resolution

variable {report : Report} {tables : IdentityTables} {m m' : Minter} {n : Nat} {res : Resolution}

theorem Run.Identified.suits {r : Run} (h : Run.Identified tables.toIndex m r n) :
    tables.Suits r.state.cache := by
  intro x c hx
  rcases IdentityTables.sourced_toIndex_iff.mp (h.sourced x c hx) with hk | ⟨hk, hu, -⟩
  · exact .inl hk
  · exact .inr ⟨hk, hu⟩

/-- A resolution fits the tables that it asked. -/
theorem suits_of_resolve (h : (report.resolve tables.toIndex).run m = (.ok res, m')) :
    res.cache.Consistent ∧ tables.Suits res.cache ∧
      res.stats.minted = countUnknown tables.toIndex res.cache := by
  obtain ⟨r, n, hi, rfl, -⟩ := exists_identified_of_resolve h
  exact ⟨hi.consistent, hi.suits, hi.minted_eq⟩

end Resolution

/-- A report that is resolved against an open index, and recorded if that succeeds. -/
structure Round where
  report : Report
  minter : Minter

def Round.resolve (q : Round) (index : OpenIndex) : Except Error Resolution :=
  ((q.report.resolve index.tables.toIndex).run q.minter).1

theorem Round.run_eq {q : Round} {index : OpenIndex} {x : Except Error Resolution}
    (h : q.resolve index = x) :
    (q.report.resolve index.tables.toIndex).run q.minter =
      (x, ((q.report.resolve index.tables.toIndex).run q.minter).2) := by
  rw [← h]
  rfl

namespace Workspace

variable {w : Workspace} {path : Path} {index : OpenIndex} {q : Round} {qs : List Round}
  {res : Resolution}

def round (w : Workspace) (q : Round) : Workspace :=
  match w.index with
  | none => w
  | some index =>
    match q.resolve index with
    | .error _ => w
    | .ok res => (w.record index res.cache).2

def rounds (w : Workspace) (qs : List Round) : Workspace := qs.foldl round w

def resolution? (w : Workspace) (q : Round) : Option Resolution :=
  w.index.bind fun index => (q.resolve index).toOption

def resolutions : Workspace → List Round → List Resolution
  | _, [] => []
  | w, q :: qs => (w.resolution? q).toList ++ (w.round q).resolutions qs

/-- Recording what was resolved against an open index adds what was minted, and nothing else. -/
theorem Serves.record_resolution (hs : Serves path w index) (ho : w.Open index)
    (h : q.resolve index = .ok res) :
    ∃ w' index', w.record index res.cache = (.ok res.stats.minted, w') ∧ w'.Open index' ∧
      Serves path w' index' ∧
      index.tables.Gains res.cache res.stats.minted index'.tables ∧
      ∀ key uuid, index'.tables.uuidForKey key = some uuid →
        index.tables.uuidForKey key = some uuid ∨
          ∃ r c, res.cache.get? r = some c ∧ c.key = key ∧ c.uuid = uuid := by
  obtain ⟨hc, hsuits, hm⟩ := Resolution.suits_of_resolve (Round.run_eq h)
  obtain ⟨w', hw, ho', hs'⟩ := hs.record ho hc (hsuits.changes_eq hs.inverse hc)
  rw [hsuits.length_changes, ← hm] at hw
  refine ⟨w', _, hw, ho', hs', ?_, fun key uuid => hsuits.uuidForKey_apply hs.inverse hc⟩
  rw [hm]
  exact hsuits.gains hs.inverse hc

/-- The entries of the first index are entries of the second, and so are the resolved components. -/
structure Keeps (index : OpenIndex) (resolutions : List Resolution) (index' : OpenIndex) :
    Prop where
  kept : ∀ key uuid, index.tables.uuidForKey key = some uuid →
    index'.tables.uuidForKey key = some uuid
  stored : ∀ res ∈ resolutions, ∀ r c, res.cache.get? r = some c →
    index'.tables.uuidForKey c.key = some c.uuid

theorem Serves.round (hs : Serves path w index) (ho : w.Open index) (q : Round) :
    ∃ index', (w.round q).Open index' ∧ Serves path (w.round q) index' ∧
      Keeps index (w.resolution? q).toList index' := by
  have he : w.resolution? q = (q.resolve index).toOption := by
    rw [resolution?, ho.index_eq]
    rfl
  rw [he, Workspace.round, ho.index_eq]
  rcases h : q.resolve index with e | res
  · refine ⟨index, ?_, ?_, fun _ _ hk => hk, by simp [Except.toOption]⟩
    · simp only [h]; exact ho
    · simp only [h]; exact hs
  · obtain ⟨w', index', hw, ho', hs', hg, -⟩ := hs.record_resolution ho h
    simp only [h, hw]
    refine ⟨index', ho', hs', hg.kept, ?_⟩
    simpa [Except.toOption] using hg.stored

theorem Serves.rounds (hs : Serves path w index) (ho : w.Open index) (qs : List Round) :
    ∃ index', (w.rounds qs).Open index' ∧ Serves path (w.rounds qs) index' ∧
      Keeps index (w.resolutions qs) index' := by
  induction qs generalizing w index with
  | nil => exact ⟨index, ho, hs, fun _ _ hk => hk, by simp [resolutions]⟩
  | cons q qs ih =>
    obtain ⟨index₁, ho₁, hs₁, hk₁⟩ := hs.round ho q
    obtain ⟨index₂, ho₂, hs₂, hk₂⟩ := ih hs₁ ho₁
    refine ⟨index₂, ho₂, hs₂, ?_, ?_⟩
    · intro key uuid hk
      exact hk₂.kept key uuid (hk₁.kept key uuid hk)
    · intro res hm r c hr
      rcases List.mem_append.mp hm with hm | hm
      · exact hk₂.kept c.key c.uuid (hk₁.stored res hm r c hr)
      · exact hk₂.stored res hm r c hr

/-- The next round never finds the index corrupt, and its record adds exactly what was minted. -/
structure Accepts (w : Workspace) (index : OpenIndex) (q : Round) : Prop where
  ne_corruptIndex : ∀ key uuid, q.resolve index ≠ .error (.corruptIndex key uuid)
  record : ∀ res, q.resolve index = .ok res → ∃ w' index',
    w.record index res.cache = (.ok res.stats.minted, w') ∧ w'.index = some index' ∧
      index.tables.Gains res.cache res.stats.minted index'.tables

theorem Serves.accepts (hs : Serves path w index) (ho : w.Open index) (q : Round) :
    w.Accepts index q where
  ne_corruptIndex key uuid he :=
    Resolution.ne_corruptIndex hs.inverse.sound (Round.run_eq he) key uuid rfl
  record res h := by
    obtain ⟨w', index', hw, ho', -, hg, -⟩ := hs.record_resolution ho h
    exact ⟨w', index', hw, ho'.index_eq, hg⟩

/-- Rounds leave every entry as it was, give a key the same identifier whenever they meet it, and
never give an identifier to two keys. -/
structure Steady (w : Workspace) (index : OpenIndex) (qs : List Round) (index' : OpenIndex) :
    Prop where
  index_eq : (w.rounds qs).index = some index'
  keeps : Keeps index (w.resolutions qs) index'
  accepts : ∀ q, (w.rounds qs).Accepts index' q
  eq_of_uuid_eq : ∀ key key' uuid : String, index'.tables.uuidForKey key = some uuid →
    index'.tables.uuidForKey key' = some uuid → key = key'
  key_eq_iff : ∀ res ∈ w.resolutions qs, ∀ res' ∈ w.resolutions qs, ∀ r r' c c',
    res.cache.get? r = some c → res'.cache.get? r' = some c' →
    (c.key = c'.key ↔ c.uuid = c'.uuid)

theorem Serves.steady (hs : Serves path w index) (ho : w.Open index) (qs : List Round) :
    ∃ index', Steady w index qs index' := by
  obtain ⟨index', ho', hs', hk⟩ := hs.rounds ho qs
  refine ⟨index', ho'.index_eq, hk, fun q => hs'.accepts ho' q, ?_, ?_⟩
  · intro key key' uuid
    exact hs'.inverse.eq_of_uuid_eq
  · intro res hm res' hm' r r' c c' hr hr'
    have hc := hk.stored res hm r c hr
    have hc' := hk.stored res' hm' r' c' hr'
    constructor
    · intro he
      rw [he] at hc
      exact Option.some.inj (hc.symm.trans hc')
    · intro he
      rw [he] at hc
      exact hs'.inverse.eq_of_uuid_eq hc hc'

/-- After any calls that leave the index open and any rounds, further rounds only add. -/
theorem exists_steady (h : StartsEmpty path w) {calls : List Call}
    (hi : (w.run path calls).index.isSome) (qs qs' : List Round) :
    ∃ index index', ((w.run path calls).rounds qs).index = some index ∧
      Steady ((w.run path calls).rounds qs) index qs' index' := by
  obtain ⟨index, hs⟩ := h.serves
  obtain ⟨index, hs⟩ := hs.run calls
  rcases hs.open_or_closed with ho | hc
  · obtain ⟨index₁, ho₁, hs₁, -⟩ := hs.rounds ho qs
    obtain ⟨index₂, hst⟩ := hs₁.steady ho₁ qs'
    exact ⟨index₁, index₂, ho₁.index_eq, hst⟩
  · rw [hc.index_eq] at hi
    cases hi

/-- The same report twice: the second round mints nothing. -/
def repeated : List Round :=
  [⟨mixedReport, .ofList ["u", "v", "w", "x", "y", "z", "t"]⟩, ⟨mixedReport, .ofList ["s"]⟩]

theorem exists_steady_repeated :
    StartsEmpty "index" bare ∧ (bare.run "index" swap).index.isSome ∧
      ((bare.run "index" swap).resolutions repeated).map (·.stats.minted) = [5, 0] ∧
      ∃ index index', ((bare.run "index" swap).rounds []).index = some index ∧
        Steady ((bare.run "index" swap).rounds []) index repeated index' :=
  have hi : (bare.run "index" swap).index.isSome := by decide +kernel
  ⟨startsEmpty_bare, hi, by decide +kernel, exists_steady startsEmpty_bare hi [] repeated⟩

end Workspace

end ComponentIdentity
