import ComponentIdentity.Files.Index
import ComponentIdentity.Proofs.History

/-! # Resolutions that are repeated

Whoever resolves a report again, against an index that knows every key of the
first resolution with its identifier, goes the same way with the same cache. All
identifiers are reused, and the minter is left alone. An index in memory or in a
database that took the first resolution in is such an index.
-/

namespace ComponentIdentity

/-- The index answers the key of each component with its identifier. -/
def RefCache.KnownTo (cache : RefCache) (index : IdentityIndex) : Prop :=
  ∀ x c, cache.get? x = some c → index.uuidForKey c.key = .ok (some c.uuid)

def Stats.recalled (stats : Stats) : Stats :=
  { stats with reused := stats.reused + stats.minted, minted := 0 }

theorem Stats.recalled_count (stats : Stats) (origin : Origin) :
    (stats.count origin).recalled = stats.recalled.count .reused := by
  cases origin <;> simp [count, recalled] <;> omega

namespace Resolution

variable {report : Report} {index index' : IdentityIndex} {res : Resolution}
  {m m' m₂ : Minter} {r r' : Run}

namespace Run

/-- The run as it goes with another minter if all its keys are known. -/
def recalled (r : Run) (m : Minter) : Run :=
  ⟨r.walk, { r.state with stats := r.state.stats.recalled }, m⟩

theorem Step.knownTo (h : Step report index r r') (hk : r'.state.cache.KnownTo index') :
    r.state.cache.KnownTo index' := by
  cases h with
  | visit _ hv =>
    obtain ⟨_, _, _, _, _, _, _, hp, rfl⟩ := visit_eq_ok hv
    obtain ⟨hr, _, _, rfl⟩ := RefCache.put_eq_ok_iff.mp hp
    exact fun x c hx => hk x c ((RefCache.get?_insertFresh_eq_some_iff hr).mpr (.inl hx))

theorem Step.recalled (h : Step report index r r') (hk : r'.state.cache.KnownTo index') :
    Step report index' (r.recalled m) (r'.recalled m) := by
  cases h with
  | @visit v w _ _ hw hv =>
    obtain ⟨key, scopes, uuid, origin, cache, hkey, -, hput, rfl⟩ := visit_eq_ok hv
    obtain ⟨-, -, hu, rfl⟩ := RefCache.put_eq_ok_iff.mp hput
    have hknown : index'.uuidForKey key = .ok (some uuid) :=
      hk v.component.ref ⟨v.component.ref, key, uuid⟩ (by simp)
    have hid : (identify index' r.state.cache key).run m = (.ok (uuid, .reused), m) := by
      rw [identify_run, hknown]
      exact if_neg (Bool.eq_false_iff.mp hu)
    rw [Run.recalled, Run.recalled]
    simp only [Stats.recalled_count]
    exact .visit hw (visit_of_ok hkey hid hput)

theorem Reaches.recalled (h : Reaches report index r r') (hk : r'.state.cache.KnownTo index') :
    Reaches report index' (r.recalled m) (r'.recalled m) := by
  induction h with
  | refl => exact .refl
  | tail _ hs ih => exact .tail (ih (hs.knownTo hk)) (hs.recalled hk)

end Run

/-- A second resolution finds every identifier of the first. -/
theorem resolve_recalled (h : (report.resolve index).run m = (.ok res, m'))
    (hk : res.cache.KnownTo index') :
    (report.resolve index').run m₂ = (.ok ⟨res.cache, res.stats.recalled⟩, m₂) := by
  obtain ⟨r, hr, he⟩ := Run.exists_run report index m
  rw [h] at he
  cases he with
  | done hs =>
    have hr' : Run.Reaches report index' (.start report m₂) (r.recalled m₂) := hr.recalled hk
    rw [Run.resolve_run, Run.rest_of_reaches hr']
    exact Run.rest_of_stack_eq_nil hs

end Resolution

namespace RefCache

variable {cache : RefCache} {index : IdentityIndex}

/-- An index that took in the identities of a cache: one made from it, one that they were inserted
into in some order, or one that recorded it. -/
inductive TakenInBy (cache : RefCache) : IdentityIndex → Prop where
  | made : TakenInBy cache (MemoryIndex.ofCache cache).toIndex
  | inserted {index : MemoryIndex} {order : List (String × String)} :
      order.Perm cache.identities → TakenInBy cache (index.insertAll order).toIndex
  | recorded {files files' : Files} {opened recorded : OpenIndex} {n : Nat} :
      files.record opened cache = .ok (recorded, n, files') →
      TakenInBy cache recorded.tables.toIndex

theorem knownTo_of_override {known overridden : String → Option String} (hc : cache.Consistent)
    (ho : overridden = cache.override known)
    (hi : ∀ key, index.uuidForKey key = .ok (overridden key)) : cache.KnownTo index := by
  intro x c hx
  rw [hi, ho, override_of_get? hc hx]

theorem TakenInBy.knownTo (h : cache.TakenInBy index) (hc : cache.Consistent) :
    cache.KnownTo index := by
  cases h with
  | made => exact knownTo_of_override hc (MemoryIndex.uuidForKey_ofCache hc) fun _ => rfl
  | inserted ho =>
    exact knownTo_of_override hc (MemoryIndex.uuidForKey_insertAll hc ho) fun _ => rfl
  | recorded hr =>
    obtain ⟨changes, hchanges, he⟩ := Except.bind_eq_ok_iff.mp hr
    cases he
    exact knownTo_of_override hc (IdentityTables.uuidForKey_apply_changes hc hchanges)
      fun _ => rfl

end RefCache

namespace Resolution

variable {report : Report} {index index' : IdentityIndex} {res : Resolution} {m m' : Minter}

/-- The same refs, keys and identifiers once more, all of them reused. -/
structure Repeats (res again : Resolution) : Prop where
  cache_eq : again.cache = res.cache
  resolved_eq : again.stats.resolved = res.stats.resolved
  reused_eq : again.stats.reused = again.stats.resolved
  minted_eq : again.stats.minted = 0
  unreachable_eq : again.stats.unreachable = res.stats.unreachable

/-- Against an index that has every identifier of a resolution, the report resolves to it again,
and no minter is called. -/
theorem repeats_of_resolve (h : (report.resolve index).run m = (.ok res, m'))
    (hk : res.cache.KnownTo index' ∨ res.cache.TakenInBy index') (m₂ : Minter) :
    ∃ again, (report.resolve index').run m₂ = (.ok again, m₂) ∧ res.Repeats again := by
  obtain ⟨r, n, hid, hr, -⟩ := exists_identified_of_resolve h
  have hc : res.cache.Consistent := hr ▸ hid.consistent
  have hknown : res.cache.KnownTo index' := hk.elim id fun ht => ht.knownTo hc
  obtain ⟨r', done, -, ht, rfl, -⟩ := exists_traced_of_resolve h
  exact ⟨_, resolve_recalled h hknown, rfl, rfl, ht.isComplete.reused_add_minted, rfl, rfl⟩

def spent : Minter := .ofList ["u"]

theorem repeats_mixedReport : ∃ res m',
    (mixedReport.resolve rootIndex.toIndex).run repeating = (.ok res, m') ∧
      res.cache.toList.map (·.2.uuid) = ["u", "w", "x", "y", "z"] ∧
      ∃ again, (mixedReport.resolve (rootIndex.insertAll res.cache.identities.reverse).toIndex).run
          spent = (.ok again, spent) ∧ res.Repeats again := by
  have huuids : ((mixedReport.resolve rootIndex.toIndex).run repeating).1.toOption.map
      (fun res => res.cache.toList.map (·.2.uuid)) = some ["u", "w", "x", "y", "z"] := by
    decide +kernel
  obtain ⟨res, m', h, huuids⟩ := Except.exists_of_toOption_map huuids
  exact ⟨res, m', h, huuids,
    repeats_of_resolve h (.inr (.inserted (List.reverse_perm _))) spent⟩

end Resolution

end ComponentIdentity
