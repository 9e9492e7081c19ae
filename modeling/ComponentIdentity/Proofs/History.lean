import ComponentIdentity.Proofs.Acceptance
import ComponentIdentity.Proofs.Identifiers
import ComponentIdentity.Proofs.Override

/-! # Histories of an index in memory

After a run that succeeds the index is either made anew from the run or takes
the run in. An index that forgets keys may meet them again with other
identifiers, but in every history no two of its keys share one: what a run takes
from the index stays with its key, and all else is new to the index.
-/

namespace ComponentIdentity

namespace MemoryIndex

variable {index : MemoryIndex} {cache : RefCache} {report : Report} {m m' : Minter}
  {res : Resolution}

theorem Faithful.suits_of_resolve (hf : index.Faithful)
    (h : (report.resolve index.toIndex).run m = (.ok res, m')) :
    res.cache.Consistent ∧ res.cache.Suits index.uuidForKey := by
  obtain ⟨r, n, hi, rfl, -⟩ := Resolution.exists_identified_of_resolve h
  refine ⟨hi.consistent, fun x c hx => ?_⟩
  rcases hi.sourced x c hx with hk | ⟨hk, hu, -⟩
  · exact .inl (Except.ok.inj hk)
  · refine .inr ⟨Except.ok.inj hk, fun key hkey => ?_⟩
    have hc := (hf c.uuid).mpr ⟨key, hkey⟩
    rw [Except.ok.inj hu] at hc
    cases hc

/-- What becomes of the index after a run that succeeds. -/
inductive Update where
  | replace
  | merge
  deriving DecidableEq, Repr

def update (index : MemoryIndex) (cache : RefCache) : Update → MemoryIndex
  | .replace => ofCache cache
  | .merge => index.merge cache

structure Analysis where
  report : Report
  minter : Minter
  update : Update

def analyse (index : MemoryIndex) (a : Analysis) : MemoryIndex :=
  match ((a.report.resolve index.toIndex).run a.minter).1 with
  | .error _ => index
  | .ok res => index.update res.cache a.update

def history (as : List Analysis) : MemoryIndex := as.foldl analyse empty

theorem uuidForKey_merge (hc : cache.Consistent) :
    (index.merge cache).uuidForKey = cache.override index.uuidForKey := by
  rw [merge_eq_insertAll]
  exact uuidForKey_insertAll hc (.refl _)

theorem uuidForKey_ofCache (hc : cache.Consistent) :
    (ofCache cache).uuidForKey = cache.override empty.uuidForKey :=
  uuidForKey_merge hc

theorem Faithful.update (hf : index.Faithful) (u : Update) : (index.update cache u).Faithful := by
  cases u with
  | replace =>
    change (empty.merge cache).Faithful
    rw [merge_eq_insertAll]
    exact faithful_empty.insertAll
  | merge =>
    change (index.merge cache).Faithful
    rw [merge_eq_insertAll]
    exact hf.insertAll

theorem Unique.update (hu : index.Unique) (hc : cache.Consistent)
    (hs : cache.Suits index.uuidForKey) (u : Update) : (index.update cache u).Unique := by
  cases u with
  | replace =>
    have hnone : ∀ key, empty.uuidForKey key = none := fun _ => uuidForKey_empty
    change Unshared (ofCache cache).uuidForKey
    rw [uuidForKey_ofCache hc]
    refine (RefCache.suits_of_forall_eq_none hnone).unshared_override hc fun key _ uuid hk => ?_
    rw [hnone] at hk
    cases hk
  | merge =>
    change Unshared (index.merge cache).uuidForKey
    rw [uuidForKey_merge hc]
    exact hs.unshared_override hc hu

theorem faithful_and_unique_analyse (hf : index.Faithful) (hu : index.Unique) (a : Analysis) :
    (index.analyse a).Faithful ∧ (index.analyse a).Unique := by
  unfold analyse
  split
  · exact ⟨hf, hu⟩
  next res hres =>
    obtain ⟨hc, hs⟩ := hf.suits_of_resolve (Prod.ext hres rfl)
    exact ⟨hf.update a.update, hu.update hc hs a.update⟩

theorem unique_empty : empty.Unique := by
  intro key key' uuid hk
  rw [uuidForKey_empty] at hk
  cases hk

theorem faithful_and_unique_history (as : List Analysis) :
    (history as).Faithful ∧ (history as).Unique := by
  induction as using List.reverseRecOn with
  | nil => exact ⟨faithful_empty, unique_empty⟩
  | append_singleton as a ih =>
    rw [history, List.foldl_append]
    exact faithful_and_unique_analyse ih.1 ih.2 a

/-- A run takes what the index has and adds what is new to it. Merged in any order, it leaves every
entry as it was; put in the place of the index, it leaves its own keys only. -/
structure Continues (index : MemoryIndex) (cache : RefCache) : Prop where
  kept : ∀ r c uuid, cache.get? r = some c → index.uuidForKey c.key = some uuid → c.uuid = uuid
  fresh : ∀ r c, cache.get? r = some c → index.uuidForKey c.key = none →
    ∀ key, index.uuidForKey key ≠ some c.uuid
  merge_eq : ∀ order : List (String × String), order.Perm cache.identities →
    index.insertAll order = index.update cache .merge
  merge_kept : ∀ key uuid, index.uuidForKey key = some uuid →
    (index.update cache .merge).uuidForKey key = some uuid
  merge_stored : ∀ r c, cache.get? r = some c →
    (index.update cache .merge).uuidForKey c.key = some c.uuid
  replace_iff : ∀ key uuid, (index.update cache .replace).uuidForKey key = some uuid ↔
    ∃ r c, cache.get? r = some c ∧ c.key = key ∧ c.uuid = uuid

theorem Faithful.continues (hf : index.Faithful) (hc : cache.Consistent)
    (hs : cache.Suits index.uuidForKey) : index.Continues cache where
  kept _ _ _ hr hk := hs.uuid_eq hr hk
  fresh _ _ hr hk := hs.ne_of_eq_none hr hk
  merge_eq order ho := by
    refine hf.insertAll.eq_of_uuidForKey_eq (hf.update .merge) ?_
    rw [uuidForKey_insertAll hc ho]
    exact (uuidForKey_merge hc).symm
  merge_kept key uuid hk := by
    change (index.merge cache).uuidForKey key = some uuid
    rw [uuidForKey_merge hc]
    exact hs.override_of_known hc hk
  merge_stored r c hr := by
    change (index.merge cache).uuidForKey c.key = some c.uuid
    rw [uuidForKey_merge hc]
    exact RefCache.override_of_get? hc hr
  replace_iff key uuid := by
    change (ofCache cache).uuidForKey key = some uuid ↔ _
    rw [uuidForKey_ofCache hc, RefCache.override_eq_some_iff hc, uuidForKey_empty,
      RefCache.mem_identities_iff]
    simp only [reduceCtorEq, and_false, or_false]

/-- In every history no two keys share an identifier, and the next run, whatever its report and its
minter, does not find the index corrupt and continues it if it succeeds. -/
theorem history_continues (as : List Analysis) :
    (history as).Unique ∧ ∀ (report : Report) (m : Minter),
      match ((report.resolve (history as).toIndex).run m).1 with
      | .error e => ∀ key uuid, e ≠ .corruptIndex key uuid
      | .ok res => (history as).Continues res.cache := by
  obtain ⟨hf, hu⟩ := faithful_and_unique_history as
  refine ⟨hu, fun report m => ?_⟩
  split
  next e he => exact Resolution.ne_corruptIndex (hf.sound hu) (Prod.ext he rfl)
  next res hres =>
    obtain ⟨hc, hs⟩ := hf.suits_of_resolve (Prod.ext hres rfl)
    exact hf.continues hc hs

end MemoryIndex

end ComponentIdentity
