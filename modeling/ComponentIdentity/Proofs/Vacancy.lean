import ComponentIdentity.Proofs.Fresh
import ComponentIdentity.Proofs.Progress

/-! # Places in the cache

A component is stored when its ref, its key and its identifier have been found
free: the ref by the walk, the key by the check that comes before it is looked
up, the identifier when it is chosen. So the cache refuses nothing, and whatever
a resolution fails with comes from the walk, from the key or from the choice of
the identifier.
-/

namespace ComponentIdentity

namespace Resolution

variable {report : Report} {index : IdentityIndex} {branch : Option String} {m m' : Minter}
  {s : State} {v : Visit} {e : Error} {key uuid : String} {owner : ResolvedComponent}

/-- A resolution comes in this state to this visit, which gets this key and this identifier. -/
def Identifies (report : Report) (index : IdentityIndex) (m : Minter) (s : State) (v : Visit)
    (key uuid : String) : Prop :=
  ∃ k m₁ m₂ scopes origin, Arrives report index m k s m₁ ∧ report.walk[k]? = some (.ok v) ∧
    keyFor report.branch s v = .ok (key, scopes) ∧
    (identify index s.cache key).run m₁ = (.ok (uuid, origin), m₂)

namespace Identifies

theorem free (h : Identifies report index m s v key uuid) :
    s.cache.Consistent ∧ s.cache.get? v.component.ref = none ∧
      s.cache.getByKey? key = none ∧ s.cache.containsUuid uuid = false := by
  obtain ⟨k, m₁, m₂, scopes, origin, ha, hv, hk, hi⟩ := h
  obtain ⟨w, w', hr, hn⟩ := ha.exists_next hv
  obtain ⟨n, hident⟩ := Run.exists_identified hr
  exact ⟨hident.consistent, (Run.free_of_reaches hr hn).1, (keyFor_eq_ok_iff.mp hk).2.2,
    (identify_eq_ok hi).1⟩

theorem put_eq (h : Identifies report index m s v key uuid) :
    s.cache.put v.component.ref ⟨v.component.ref, key, uuid⟩ =
      .ok (s.cache.insertFresh v.component.ref ⟨v.component.ref, key, uuid⟩) := by
  obtain ⟨hc, hr, hk, hu⟩ := h.free
  exact hc.put_eq_ok hr hk hu

theorem unused (h : Identifies report index m s v key uuid) {x : Ref} {c : ResolvedComponent}
    (hx : s.cache.get? x = some c) : x ≠ v.component.ref ∧ c.key ≠ key ∧ c.uuid ≠ uuid := by
  obtain ⟨hc, hr, hk, hu⟩ := h.free
  refine ⟨?_, hc.getByKey?_eq_none_iff.mp hk x c hx, hc.containsUuid_eq_false_iff.mp hu x c hx⟩
  rintro rfl
  cases hr.symm.trans hx

end Identifies

structure KeyTaken (branch : Option String) (s : State) (v : Visit) (key : String)
    (owner : ResolvedComponent) : Prop where
  root_kind : v.depth = 0 → v.component.kind = .project
  exists_keyOf : ∃ scopes, Scope.keyOf branch s.scopes v = .ok (key, scopes)
  getByKey?_eq : s.cache.getByKey? key = some owner

namespace KeyTaken

theorem keyFor_eq (h : KeyTaken branch s v key owner) :
    keyFor branch s v = .error (.sameKey owner.ref v.component.ref key) := by
  obtain ⟨hroot, ⟨scopes, hk⟩, ho⟩ := h
  have hroot : ¬ (v.depth = 0 ∧ v.component.kind ≠ .project) := fun ⟨hd, hne⟩ => hne (hroot hd)
  simp only [keyFor, checkRoot, checkKey, if_neg hroot, hk, ho, bind, Except.bind]

theorem visit_eq (h : KeyTaken branch s v key owner) (index : IdentityIndex) (m : Minter) :
    (visit index branch s v).run m =
      (.error (.malformedReport (.sameKey owner.ref v.component.ref key)), m) := by
  rw [visit_run, h.keyFor_eq]

end KeyTaken

/-- Why a visit gets no key. -/
inductive KeyFault (branch : Option String) (s : State) (v : Visit) : ReportFault → Prop where
  | rootKind : v.depth = 0 → v.component.kind ≠ .project →
      KeyFault branch s v (.rootKind v.component.ref v.component.kind)
  | noKey : KeyFault branch s v (.noKey v.component.kind v.component.ref)
  | noPath : KeyFault branch s v (.noPath v.component.kind v.component.ref)
  | keyTooLong : KeyFault branch s v (.keyTooLong v.component.ref)
  | noModule : (v.depth = 0 → v.component.kind = .project) → v.component.kind.isModule = false →
      Scope.enclosing v.depth s.scopes = [] → KeyFault branch s v (.noModule v.component.ref)
  | sameKey {key : String} {owner : ResolvedComponent} : KeyTaken branch s v key owner →
      KeyFault branch s v (.sameKey owner.ref v.component.ref key)

theorem keyFault_of_keyFor {fault : ReportFault} (h : keyFor branch s v = .error fault) :
    KeyFault branch s v fault := by
  rcases keyFor_eq_error h with ⟨hd, hne, rfl⟩ | ⟨hroot, hk | ⟨_, scopes, owner, hk, ho, rfl⟩⟩
  · exact .rootKind hd hne
  · rcases Scope.keyOf_eq_error hk with rfl | rfl | rfl | ⟨rfl, hm, hnil⟩
    · exact .noKey
    · exact .noPath
    · exact .keyTooLong
    · exact .noModule hroot hm hnil
  · exact .sameKey ⟨hroot, ⟨scopes, hk⟩, ho⟩

/-- How a resolution can fail at an item of the walk. -/
inductive FailsAt (branch : Option String) (index : IdentityIndex) (s : State) (m : Minter) :
    Walk.Item → Error → Minter → Prop where
  | walk {fault : ReportFault} : Walk.Fault fault →
      FailsAt branch index s m (.error fault) (.malformedReport fault) m
  | key {v : Visit} {fault : ReportFault} : keyFor branch s v = .error fault →
      FailsAt branch index s m (.ok v) (.malformedReport fault) m
  | identify {v : Visit} {key : String} {scopes : List Scope} {e : Error} {m' : Minter} :
      keyFor branch s v = .ok (key, scopes) →
      (identify index s.cache key).run m = (.error e, m') →
      FailsAt branch index s m (.ok v) e m'

/-- Whatever a resolution fails with, it is not refused by the cache. -/
theorem exists_failsAt (h : (report.resolve index).run m = (.error e, m')) :
    ∃ k s m₁ x, Arrives report index m k s m₁ ∧ report.walk[k]? = some x ∧
      FailsAt report.branch index s m₁ x e m' := by
  obtain ⟨k, s, m₁, x, ha, hx, hs⟩ := exists_refused_item h
  refine ⟨k, s, m₁, x, ha, hx, ?_⟩
  cases x with
  | error fault =>
    cases hs
    exact .walk (Walk.fault_of_mem_items (List.mem_of_getElem? hx))
  | ok v =>
    rcases visit_eq_error hs with ⟨fault, hk, rfl, rfl⟩ | ⟨key, scopes, hk, hi⟩ |
      ⟨key, scopes, uuid, origin, hk, hi, hp⟩
    · exact .key hk
    · exact .identify hk hi
    · have hput := Identifies.put_eq ⟨k, m₁, m', scopes, origin, ha, hx, hk, hi⟩
      cases hput.symm.trans hp

theorem fault_or_exists_keyFault {fault : ReportFault} (hi : index.Avoids (.malformedReport fault))
    (h : (report.resolve index).run m = (.error (.malformedReport fault), m')) :
    Walk.Fault fault ∨ ∃ k s v, Arrives report index m k s m' ∧
      report.walk[k]? = some (.ok v) ∧ KeyFault report.branch s v fault := by
  obtain ⟨k, s, m₁, x, ha, hx, hf⟩ := exists_failsAt h
  cases hf with
  | walk hw => exact .inl hw
  | key hk => exact .inr ⟨k, s, _, ha, hx, keyFault_of_keyFor hk⟩
  | identify _ hid => nomatch unidentified_of_avoids hi hid

/-- A key that is taken is found so before an identifier is chosen. -/
theorem exists_keyTaken {x y : Ref} (hi : index.Avoids (.malformedReport (.sameKey x y key)))
    (h : (report.resolve index).run m = (.error (.malformedReport (.sameKey x y key)), m')) :
    ∃ k s v owner, Arrives report index m k s m' ∧ report.walk[k]? = some (.ok v) ∧
      KeyTaken report.branch s v key owner ∧ owner.ref = x ∧ v.component.ref = y := by
  rcases fault_or_exists_keyFault hi h with hw | ⟨k, s, v, ha, hv, hk⟩
  · nomatch hw
  · cases hk with
    | sameKey ht => exact ⟨k, s, v, _, ha, hv, ht, rfl, rfl⟩

theorem resolve_ne_duplicateRef {x : Ref} (hi : index.Avoids (.duplicateRef x)) :
    (report.resolve index).run m ≠ (.error (.duplicateRef x), m') := by
  intro h
  obtain ⟨_, _, _, _, -, -, hf⟩ := exists_failsAt h
  cases hf with
  | identify _ hid => nomatch unidentified_of_avoids hi hid

theorem exists_identify_of_corruptIndex
    (h : (report.resolve index).run m = (.error (.corruptIndex key uuid), m')) :
    ∃ k s m₁ v key' scopes, Arrives report index m k s m₁ ∧ report.walk[k]? = some (.ok v) ∧
      keyFor report.branch s v = .ok (key', scopes) ∧
      (identify index s.cache key').run m₁ = (.error (.corruptIndex key uuid), m') ∧
      (index.Avoids (.corruptIndex key uuid) → key' = key ∧
        index.uuidForKey key = .ok (some uuid) ∧ s.cache.containsUuid uuid = true) := by
  obtain ⟨k, s, m₁, x, ha, hx, hf⟩ := exists_failsAt h
  cases hf with
  | identify hk hid =>
    refine ⟨k, s, m₁, _, _, _, ha, hx, hk, hid, fun hi => ?_⟩
    cases unidentified_of_avoids hi hid with
    | corruptIndex hu hc => exact ⟨rfl, hu, hc⟩

/-- What a resolution stores is new to the cache, which never refuses it. So unless the index itself
fails so, no ref is found taken, a taken key is found before the index is asked, and a taken
identifier when it is looked up. -/
structure PutsFresh (report : Report) (index : IdentityIndex) (m : Minter) : Prop where
  unused : ∀ s v key uuid, Identifies report index m s v key uuid →
    ∀ x c, s.cache.get? x = some c → x ≠ v.component.ref ∧ c.key ≠ key ∧ c.uuid ≠ uuid
  put_eq : ∀ s v key uuid, Identifies report index m s v key uuid →
    s.cache.put v.component.ref ⟨v.component.ref, key, uuid⟩ =
      .ok (s.cache.insertFresh v.component.ref ⟨v.component.ref, key, uuid⟩)
  failsAt : ∀ e m', (report.resolve index).run m = (.error e, m') →
    ∃ k s m₁ x, Arrives report index m k s m₁ ∧ report.walk[k]? = some x ∧
      FailsAt report.branch index s m₁ x e m'
  duplicateRef_ne : ∀ x m', index.Avoids (.duplicateRef x) →
    (report.resolve index).run m ≠ (.error (.duplicateRef x), m')
  keyTaken : ∀ x y key m', index.Avoids (.malformedReport (.sameKey x y key)) →
    (report.resolve index).run m = (.error (.malformedReport (.sameKey x y key)), m') →
    ∃ k s v owner, Arrives report index m k s m' ∧ report.walk[k]? = some (.ok v) ∧
      KeyTaken report.branch s v key owner ∧ owner.ref = x ∧ v.component.ref = y
  visit_eq : ∀ s v key owner, KeyTaken report.branch s v key owner → ∀ index' m₁,
    (visit index' report.branch s v).run m₁ =
      (.error (.malformedReport (.sameKey owner.ref v.component.ref key)), m₁)
  corruptIndex : ∀ key uuid m',
    (report.resolve index).run m = (.error (.corruptIndex key uuid), m') →
    ∃ k s m₁ v key' scopes, Arrives report index m k s m₁ ∧ report.walk[k]? = some (.ok v) ∧
      keyFor report.branch s v = .ok (key', scopes) ∧
      (identify index s.cache key').run m₁ = (.error (.corruptIndex key uuid), m') ∧
      (index.Avoids (.corruptIndex key uuid) → key' = key ∧
        index.uuidForKey key = .ok (some uuid) ∧ s.cache.containsUuid uuid = true)

theorem resolve_putsFresh (report : Report) (index : IdentityIndex) (m : Minter) :
    PutsFresh report index m where
  unused _ _ _ _ h _ _ := h.unused
  put_eq _ _ _ _ h := h.put_eq
  failsAt _ _ := exists_failsAt
  duplicateRef_ne _ _ := resolve_ne_duplicateRef
  keyTaken _ _ _ _ := exists_keyTaken
  visit_eq _ _ _ _ := KeyTaken.visit_eq
  corruptIndex _ _ _ := exists_identify_of_corruptIndex

/-- Two directories that give themselves the same path. -/
def twinReport : Report :=
  (Report.ofComponents { root := 1 }
    [.withChildren (.project 1 "P") [2, 3], .directory 2 "a", .directory 3 "a"]).toOption.getD
    (.empty { root := 1 })

/-- An index that has the same identifier for every key and says that it has none. -/
def brokenIndex : IdentityIndex := ⟨fun _ => .ok (some "u"), fun _ => .ok false⟩

theorem resolve_putsFresh_twinReport :
    PutsFresh twinReport MemoryIndex.empty.toIndex (.ofList ["u", "v", "w"]) ∧
      ((twinReport.resolve MemoryIndex.empty.toIndex).run (.ofList ["u", "v", "w"])).1.map
        (·.stats) = .error (.malformedReport (.sameKey 2 3 "P:a")) ∧
      PutsFresh twinReport brokenIndex (.ofList ["u", "v", "w"]) ∧
      ((twinReport.resolve brokenIndex).run (.ofList ["u", "v", "w"])).1.map
        (·.stats) = .error (.corruptIndex "P:a" "u") :=
  ⟨resolve_putsFresh _ _ _, by decide +kernel, resolve_putsFresh _ _ _, by decide +kernel⟩

end Resolution

end ComponentIdentity
