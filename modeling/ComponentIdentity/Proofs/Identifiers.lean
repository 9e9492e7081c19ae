import ComponentIdentity.Index.Memory
import ComponentIdentity.Proofs.Cache
import ComponentIdentity.Proofs.Lineage
import ComponentIdentity.Proofs.Run

/-! # The identifiers of a resolution

A component whose key the index knows keeps the identifier stored there. Any
other component takes a minted one that neither the run nor the index has. In
whatever order the two kinds come, and whatever index and minter do, the
identifiers of a run are distinct. An index whose answers fit together is never
found corrupt.
-/

namespace ComponentIdentity

def IdentityIndex.knows (index : IdentityIndex) (key : String) : Bool :=
  match index.uuidForKey key with
  | .ok (some _) => true
  | _ => false

theorem IdentityIndex.knows_iff {index : IdentityIndex} {key : String} :
    index.knows key = true ↔ ∃ uuid, index.uuidForKey key = .ok (some uuid) := by
  unfold knows
  split
  next uuid h => simp [h]
  next h => simpa using h

namespace Minter

variable {m : Minter} {i n : Nat}

@[simp]
theorem advance_advance : (m.advance i).advance n = m.advance (i + n) := by
  simp [advance, Nat.add_assoc]

@[simp]
theorem ids_advance : (m.advance n).ids = m.ids := rfl

@[simp]
theorem minted_advance : (m.advance n).minted = m.minted + n := rfl

theorem mem_upcoming_iff {uuid : String} :
    uuid ∈ m.upcoming n ↔ ∃ i < n, m.ids (m.minted + i) = uuid := by
  simp [upcoming]

theorem upcoming_advance_subset : (m.advance i).upcoming n ⊆ m.upcoming (i + n) := by
  intro uuid hu
  obtain ⟨j, hj, he⟩ := mem_upcoming_iff.mp hu
  exact mem_upcoming_iff.mpr ⟨i + j, by omega, by simpa [Nat.add_assoc] using he⟩

theorem upcoming_subset (h : i ≤ n) : m.upcoming i ⊆ m.upcoming n := by
  intro uuid hu
  obtain ⟨j, hj, he⟩ := mem_upcoming_iff.mp hu
  exact mem_upcoming_iff.mpr ⟨j, by omega, he⟩

end Minter

namespace Resolution

variable {report : Report} {index : IdentityIndex} {cache : RefCache} {res : Resolution}
  {m m' : Minter} {n : Nat} {key uuid : String} {origin : Origin} {attempts : Nat}

theorem inUse_eq_false_iff :
    inUse index cache uuid = .ok false ↔
      cache.containsUuid uuid = false ∧ index.containsUuid uuid = .ok false := by
  unfold inUse
  cases cache.containsUuid uuid <;> simp

theorem mintUnused_succ :
    (mintUnused index cache key (attempts + 1)).run m =
      match inUse index cache (m.ids m.minted) with
      | .error e => (.error e, m.advance 1)
      | .ok true => (mintUnused index cache key attempts).run (m.advance 1)
      | .ok false => (.ok (m.ids m.minted), m.advance 1) := by
  rw [mintUnused, Stateful.run_bind, Minting.run_mint]
  simp only [Stateful.run_bind, Stateful.run_lift, Minter.mint_fst, Minter.mint_snd]
  rcases inUse index cache (m.ids m.minted) with e | _ | _ <;> rfl

/-- The identifier that is taken is the first of the attempts that is not in use. -/
theorem mintUnused_eq_ok (h : (mintUnused index cache key attempts).run m = (.ok uuid, m')) :
    ∃ i < attempts, m' = m.advance (i + 1) ∧ m.ids (m.minted + i) = uuid ∧
      inUse index cache uuid = .ok false ∧
      ∀ j < i, inUse index cache (m.ids (m.minted + j)) = .ok true := by
  induction attempts generalizing m with
  | zero => cases h
  | succ attempts ih =>
    rw [mintUnused_succ] at h
    split at h
    · cases h
    next hu =>
      obtain ⟨i, hi, rfl, hid, hf, hj⟩ := ih h
      rw [Minter.ids_advance, Minter.minted_advance] at hid
      refine ⟨i + 1, by omega, ?_, ?_, hf, ?_⟩
      · rw [Minter.advance_advance, Nat.add_comm 1]
      · rw [← hid, Nat.add_assoc, Nat.add_comm 1]
      · intro j hlt
        cases j with
        | zero => exact hu
        | succ j =>
          have := hj j (by omega)
          rwa [Minter.ids_advance, Minter.minted_advance, Nat.add_assoc, Nat.add_comm 1] at this
    next hu =>
      cases h
      exact ⟨0, by omega, rfl, rfl, hu, by simp⟩

theorem mintUnused_eq_error {e : Error}
    (h : (mintUnused index cache key attempts).run m = (.error e, m')) :
    e = .identifierCollision key ∨ ∃ uuid, index.containsUuid uuid = .error e := by
  induction attempts generalizing m with
  | zero => cases h; exact .inl rfl
  | succ attempts ih =>
    rw [mintUnused_succ] at h
    split at h
    next hu =>
      cases h
      unfold inUse at hu
      split at hu
      · cases hu
      · exact .inr ⟨_, hu⟩
    · exact ih h
    · cases h

theorem identify_run :
    (identify index cache key).run m =
      match index.uuidForKey key with
      | .error e => (.error e, m)
      | .ok (some uuid) =>
        if cache.containsUuid uuid then (.error (.corruptIndex key uuid), m)
        else (.ok (uuid, .reused), m)
      | .ok none =>
        match (mintUnused index cache key mintAttempts).run m with
        | (.error e, m) => (.error e, m)
        | (.ok uuid, m) => (.ok (uuid, .minted), m) := by
  unfold identify
  rw [Stateful.run_bind, Stateful.run_lift]
  rcases index.uuidForKey key with e | _ | uuid
  · rfl
  · simp only [Stateful.run_bind]
    rcases (mintUnused index cache key mintAttempts).run m with ⟨e | uuid, m⟩ <;> rfl
  · simp only
    split <;> rfl

/-- Either the index knows the key, or the identifier is minted and not in use. -/
theorem identify_eq_ok (h : (identify index cache key).run m = (.ok (uuid, origin), m')) :
    cache.containsUuid uuid = false ∧
      ((origin = .reused ∧ index.uuidForKey key = .ok (some uuid) ∧ m' = m) ∨
        (origin = .minted ∧ index.uuidForKey key = .ok none ∧
          index.containsUuid uuid = .ok false ∧
          ∃ n, m' = m.advance n ∧ uuid ∈ m.upcoming n)) := by
  rw [identify_run] at h
  split at h
  · cases h
  next known hk =>
    split at h
    · cases h
    next hc => cases h; exact ⟨Bool.eq_false_iff.mpr hc, .inl ⟨rfl, hk, rfl⟩⟩
  next hk =>
    split at h
    · cases h
    next hm =>
      cases h
      obtain ⟨i, -, rfl, hid, hu, -⟩ := mintUnused_eq_ok hm
      obtain ⟨hc, hi⟩ := inUse_eq_false_iff.mp hu
      refine ⟨hc, .inr ⟨rfl, hk, hi, i + 1, rfl, ?_⟩⟩
      exact Minter.mem_upcoming_iff.mpr ⟨i, by omega, hid⟩

theorem identify_eq_error {e : Error} (h : (identify index cache key).run m = (.error e, m')) :
    index.uuidForKey key = .error e ∨
      (∃ uuid, index.uuidForKey key = .ok (some uuid) ∧ cache.containsUuid uuid = true ∧
        e = .corruptIndex key uuid) ∨
      index.uuidForKey key = .ok none ∧
        (e = .identifierCollision key ∨ ∃ uuid, index.containsUuid uuid = .error e) := by
  rw [identify_run] at h
  split at h
  next hk => cases h; exact .inl hk
  next uuid hk =>
    split at h
    next hc => cases h; exact .inr (.inl ⟨uuid, hk, hc, rfl⟩)
    · cases h
  next hk =>
    split at h
    next hm => cases h; exact .inr (.inr ⟨hk, mintUnused_eq_error hm⟩)
    · cases h

/-- The identifier is the one that the index knows for the key, or for an unknown key one of the
first `n` minted ones, and the index does not have it. -/
def Sourced (index : IdentityIndex) (m : Minter) (n : Nat) (key uuid : String) : Prop :=
  index.uuidForKey key = .ok (some uuid) ∨
    index.uuidForKey key = .ok none ∧ index.containsUuid uuid = .ok false ∧ uuid ∈ m.upcoming n

theorem Sourced.mono {n' : Nat} (h : Sourced index m n key uuid) (hn : n ≤ n') :
    Sourced index m n' key uuid :=
  h.imp_right fun ⟨hk, hc, hm⟩ => ⟨hk, hc, Minter.upcoming_subset hn hm⟩

theorem identify_sourced
    (h : (identify index cache key).run (m.advance n) = (.ok (uuid, origin), m')) :
    ∃ n', n ≤ n' ∧ m' = m.advance n' ∧ Sourced index m n' key uuid ∧
      (origin = .reused ↔ index.knows key = true) := by
  obtain ⟨-, ⟨rfl, hk, rfl⟩ | ⟨rfl, hk, hc, k, rfl, hu⟩⟩ := identify_eq_ok h
  · refine ⟨n, Nat.le_refl n, rfl, .inl hk, ?_⟩
    simp [IdentityIndex.knows_iff, hk]
  · refine ⟨n + k, Nat.le_add_right n k, Minter.advance_advance,
      .inr ⟨hk, hc, Minter.upcoming_advance_subset hu⟩, ?_⟩
    simp [IdentityIndex.knows_iff, hk]

def countKnown (index : IdentityIndex) (cache : RefCache) : Nat :=
  cache.toList.countP fun e => index.knows e.2.key

def countUnknown (index : IdentityIndex) (cache : RefCache) : Nat :=
  cache.toList.countP fun e => !index.knows e.2.key

theorem countKnown_insertFresh {x : Ref} {c : ResolvedComponent} (hx : cache.get? x = none) :
    countKnown index (cache.insertFresh x c) =
      countKnown index cache + if index.knows c.key then 1 else 0 := by
  rw [countKnown, (RefCache.toList_insertFresh_perm hx).countP_eq, List.countP_cons]
  rfl

theorem countUnknown_insertFresh {x : Ref} {c : ResolvedComponent} (hx : cache.get? x = none) :
    countUnknown index (cache.insertFresh x c) =
      countUnknown index cache + if !index.knows c.key then 1 else 0 := by
  rw [countUnknown, (RefCache.toList_insertFresh_perm hx).countP_eq, List.countP_cons]
  rfl

namespace Run

variable {r r' : Run}

/-- What a run that has minted `n` identifiers keeps about those that it gave out. -/
structure Identified (index : IdentityIndex) (m : Minter) (r : Run) (n : Nat) : Prop where
  consistent : r.state.cache.Consistent
  minter_eq : r.minter = m.advance n
  sourced : ∀ x c, r.state.cache.get? x = some c → Sourced index m n c.key c.uuid
  reused_eq : r.state.stats.reused = countKnown index r.state.cache
  minted_eq : r.state.stats.minted = countUnknown index r.state.cache

theorem identified_start : Identified index m (start report m) 0 where
  consistent := RefCache.consistent_empty
  minter_eq := rfl
  sourced x c h := by simp [start] at h
  reused_eq := by simp [start, countKnown]
  minted_eq := by simp [start, countUnknown]

theorem Identified.step (h : Identified index m r n) (hs : Step report index r r') :
    ∃ n', Identified index m r' n' := by
  cases hs with
  | @visit v w s m₁ _ hv =>
    obtain ⟨key, scopes, uuid, origin, cache, hk, hi, hp, rfl⟩ := visit_eq_ok hv
    have hkey := (keyFor_eq_ok_iff.mp hk).2.2
    obtain ⟨hx, -, hu, rfl⟩ := RefCache.put_eq_ok_iff.mp hp
    rw [h.minter_eq] at hi
    obtain ⟨n', hle, hm, hsrc, ho⟩ := identify_sourced hi
    refine ⟨n', ?_, hm, ?_, ?_, ?_⟩
    · exact h.consistent.insertFresh hx hkey hu
    · intro y c hy
      rcases (RefCache.get?_insertFresh_eq_some_iff hx).mp hy with hy | ⟨-, rfl⟩
      · exact (h.sourced y c hy).mono hle
      · exact hsrc
    · rw [countKnown_insertFresh hx, ← h.reused_eq]
      cases origin <;> simp_all [Stats.count]
    · rw [countUnknown_insertFresh hx, ← h.minted_eq]
      cases origin <;> simp_all [Stats.count]

theorem exists_identified (h : Reaches report index (start report m) r) :
    ∃ n, Identified index m r n := by
  induction h with
  | refl => exact ⟨0, identified_start⟩
  | tail _ hs ih =>
    obtain ⟨n, h⟩ := ih
    exact h.step hs

end Run

theorem exists_identified_of_resolve (h : (report.resolve index).run m = (.ok res, m')) :
    ∃ r n, Run.Identified index m r n ∧ res = r.resolution report ∧ m' = r.minter := by
  obtain ⟨r, hr, he⟩ := Run.exists_run report index m
  rw [h] at he
  cases he with
  | done hs =>
    obtain ⟨n, hi⟩ := Run.exists_identified hr
    exact ⟨r, n, hi, rfl, rfl⟩

/-- The identifiers in the cache are distinct; those of known keys are the index's, the others are
minted ones that the index does not have, and the counters tell how many there are of each. -/
structure IsIdentified (index : IdentityIndex) (m : Minter) (n : Nat) (res : Resolution) :
    Prop where
  nodup : (res.cache.toList.map (·.2.uuid)).Nodup
  reused : ∀ x c uuid, res.cache.get? x = some c → index.uuidForKey c.key = .ok (some uuid) →
    c.uuid = uuid
  minted : ∀ x c, res.cache.get? x = some c → index.knows c.key = false →
    c.uuid ∈ m.upcoming n ∧ index.containsUuid c.uuid = .ok false
  reused_eq : res.stats.reused = countKnown index res.cache
  minted_eq : res.stats.minted = countUnknown index res.cache

theorem Run.Identified.isIdentified {r : Run} (h : Run.Identified index m r n) :
    (r.resolution report).IsIdentified index m n := by
  refine ⟨h.consistent.nodup_uuids, ?_, ?_, h.reused_eq, h.minted_eq⟩
  · intro x c uuid hx hk
    rcases h.sourced x c hx with hs | ⟨hs, -, -⟩
    · rw [hk] at hs
      cases hs
      rfl
    · rw [hk] at hs
      cases hs
  · intro x c hx hk
    rcases h.sourced x c hx with hs | ⟨-, hc, hu⟩
    · rw [IdentityIndex.knows_iff.mpr ⟨_, hs⟩] at hk
      cases hk
    · exact ⟨hu, hc⟩

theorem isIdentified_of_resolve (h : (report.resolve index).run m = (.ok res, m')) :
    ∃ n, m' = m.advance n ∧ res.IsIdentified index m n := by
  obtain ⟨r, n, hi, rfl, rfl⟩ := exists_identified_of_resolve h
  exact ⟨n, hi.minter_eq, hi.isIdentified⟩

/-- An index that knows the root only, and another identifier that the minter will give. -/
def rootIndex : MemoryIndex := .ofList [("P:dev", "u"), ("old", "v")]

def repeating : Minter := .ofList ["u", "v", "w", "w", "x", "y", "z"]

theorem isIdentified_mixedReport : ∃ res m',
    (mixedReport.resolve rootIndex.toIndex).run repeating = (.ok res, m') ∧
      res.cache.toList.map (·.2.uuid) = ["u", "w", "x", "y", "z"] ∧
      ∃ n, m' = repeating.advance n ∧ res.IsIdentified rootIndex.toIndex repeating n := by
  have huuids : ((mixedReport.resolve rootIndex.toIndex).run repeating).1.toOption.map
      (fun res => res.cache.toList.map (·.2.uuid)) = some ["u", "w", "x", "y", "z"] := by
    decide +kernel
  obtain ⟨res, m', h, huuids⟩ := Except.exists_of_toOption_map huuids
  exact ⟨res, m', h, huuids, isIdentified_of_resolve h⟩

end Resolution

/-- The index always answers, and the identifier that it knows for a key is one that it has and
knows for no other key. -/
structure IdentityIndex.Sound (index : IdentityIndex) : Prop where
  uuidForKey_ok : ∀ key, ∃ known, index.uuidForKey key = .ok known
  containsUuid_ok : ∀ uuid, ∃ contained, index.containsUuid uuid = .ok contained
  contains : ∀ key uuid, index.uuidForKey key = .ok (some uuid) →
    index.containsUuid uuid = .ok true
  eq_of_uuid_eq : ∀ key key' uuid, index.uuidForKey key = .ok (some uuid) →
    index.uuidForKey key' = .ok (some uuid) → key = key'

namespace Resolution

variable {report : Report} {index : IdentityIndex} {m m' : Minter} {n : Nat} {e : Error}
  {key uuid : String} {r : Run}

theorem Run.Identified.containsUuid_eq_false (h : Identified index m r n) (hs : index.Sound)
    (hk : r.state.cache.getByKey? key = none) (hu : index.uuidForKey key = .ok (some uuid)) :
    r.state.cache.containsUuid uuid = false := by
  rw [h.consistent.containsUuid_eq_false_iff]
  rintro x c hx rfl
  rcases h.sourced x c hx with hcu | ⟨-, hcu, -⟩
  · exact h.consistent.getByKey?_eq_none_iff.mp hk x c hx (hs.eq_of_uuid_eq _ _ _ hcu hu)
  · rw [hs.contains key c.uuid hu] at hcu
    cases hcu

theorem Run.Identified.identify_ne_corruptIndex (h : Identified index m r n) (hs : index.Sound)
    (hk : r.state.cache.getByKey? key = none)
    (he : (identify index r.state.cache key).run r.minter = (.error e, m')) (key' uuid' : String) :
    e ≠ .corruptIndex key' uuid' := by
  rintro rfl
  rcases identify_eq_error he with hu | ⟨uuid, hu, hcu, -⟩ | ⟨-, he | ⟨uuid, hu⟩⟩
  · obtain ⟨known, hok⟩ := hs.uuidForKey_ok key
    cases hok.symm.trans hu
  · rw [h.containsUuid_eq_false hs hk hu] at hcu
    cases hcu
  · cases he
  · obtain ⟨contained, hok⟩ := hs.containsUuid_ok uuid
    cases hok.symm.trans hu

theorem Run.Identified.visit_ne_corruptIndex {branch : Option String} {v : Visit}
    (h : Identified index m r n) (hs : index.Sound)
    (he : (visit index branch r.state v).run r.minter = (.error e, m')) (key uuid : String) :
    e ≠ .corruptIndex key uuid := by
  rcases visit_eq_error he with ⟨fault, -, rfl, -⟩ | ⟨k, scopes, hk, hf⟩ |
    ⟨k, scopes, u, o, -, hf, hp⟩
  · exact Error.noConfusion
  · exact h.identify_ne_corruptIndex hs (keyFor_eq_ok_iff.mp hk).2.2 hf key uuid
  · rintro rfl
    have hn := (identify_eq_ok hf).1
    rcases RefCache.put_eq_error hp with he | ⟨owner, -, he⟩ | ⟨hcu, -⟩
    · cases he
    · cases he
    · rw [hn] at hcu
      cases hcu

/-- A resolution never finds a sound index corrupt. -/
theorem ne_corruptIndex (hs : index.Sound)
    (h : (report.resolve index).run m = (.error e, m')) (key uuid : String) :
    e ≠ .corruptIndex key uuid := by
  obtain ⟨r, hr, he⟩ := Run.exists_run report index m
  obtain ⟨n, hid⟩ := Run.exists_identified hr
  rw [h] at he
  cases he with
  | failed => exact Error.noConfusion
  | refused _ hv => exact hid.visit_ne_corruptIndex hs hv key uuid

end Resolution

end ComponentIdentity
