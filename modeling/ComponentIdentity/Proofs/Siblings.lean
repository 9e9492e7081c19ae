import Mathlib.Data.List.Forall2
import ComponentIdentity.Proofs.Acceptance
import ComponentIdentity.Proofs.Declared

/-! # The order of siblings

The order in which a component lists its children decides when each of them is
visited, which failure comes first and which minted identifier it gets. It does
not decide who is reached, below whom and with which key. So reports that differ
in such orders resolve to the same keys, and fresh identifiers resolve either
both of them or none.
-/

namespace ComponentIdentity

attribute [ext] Stats

namespace Component

variable {branch : Option String} {c c' : Component} {above above' : List Component}

/-- The same component, with its children in some order. -/
inductive Reordered (c : Component) : Component → Prop where
  | intro {children : List Ref} : c.children.Perm children → Reordered c (c.withChildren children)

instance : Decidable (c.Reordered c') :=
  decidable_of_iff (c.children.Perm c'.children ∧ c' = c.withChildren c'.children) <| by
    constructor
    · rintro ⟨hp, he⟩
      exact he ▸ .intro hp
    · rintro ⟨hp⟩
      exact ⟨hp, rfl⟩

theorem Reordered.symm (h : c.Reordered c') : c'.Reordered c := by
  cases h with
  | intro hp => exact .intro hp.symm

theorem Reordered.perm (h : c.Reordered c') : c.children.Perm c'.children := by
  cases h with
  | intro hp => exact hp

theorem Reordered.ref_eq (h : c.Reordered c') : c'.ref = c.ref := by
  cases h; rfl

theorem Reordered.kind_eq (h : c.Reordered c') : c'.kind = c.kind := by
  cases h; rfl

theorem find?_reordered {p : Component → Bool} (hp : ∀ c c', Reordered c c' → p c' = p c)
    (h : List.Forall₂ Reordered above above') :
    Option.Rel Reordered (above.find? p) (above'.find? p) := by
  induction h with
  | nil => exact .none
  | @cons c c' above above' hc _ ih =>
    rw [List.find?_cons, List.find?_cons, hp c c' hc]
    cases p c with
    | true => exact .some hc
    | false => exact ih

theorem Reordered.referenceKey?_eq (h : c.Reordered c')
    (ha : List.Forall₂ Reordered above above') :
    c'.referenceKey? branch above' = c.referenceKey? branch above := by
  have hm : ∀ {d d' : Component}, d.Reordered d' → d'.moduleKey? branch = d.moduleKey? branch := by
    rintro d _ ⟨⟩
    rfl
  have hfind : Option.Rel Reordered (above.find? (·.kind.isModule))
      (above'.find? (·.kind.isModule)) := find?_reordered (fun _ _ hd => by rw [hd.kind_eq]) ha
  rw [referenceKey?, referenceKey?, h.kind_eq, hm h]
  generalize above.find? (·.kind.isModule) = nearest at hfind ⊢
  generalize above'.find? (·.kind.isModule) = nearest' at hfind ⊢
  cases hfind with
  | none => rfl
  | some hn =>
    cases h
    simp only [Option.bind_eq_bind, Option.bind_some, hm hn]
    rfl

theorem Reordered.admissible (h : c.Reordered c') (ha : List.Forall₂ Reordered above above')
    (hc : c'.Admissible branch above') : c.Admissible branch above := by
  have hkey : c'.referenceKey? branch above' = c.referenceKey? branch above :=
    h.referenceKey?_eq ha
  cases h
  exact ⟨hc.key_named, hc.path_named, fun key hk => hc.key_le key (hkey.trans hk)⟩

end Component

namespace Report

variable {report report' : Report} {above above' : List Component} {r p child : Ref}
  {c c' : Component}

/-- Two reports that differ in the orders in which their components list the children. -/
structure Reordered (report report' : Report) : Prop where
  metadata_eq : report'.metadata = report.metadata
  component?_rel : ∀ r,
    Option.Rel Component.Reordered (report.component? r) (report'.component? r)

namespace Reordered

theorem symm (h : report.Reordered report') : report'.Reordered report where
  metadata_eq := h.metadata_eq.symm
  component?_rel r := by
    have hrel := h.component?_rel r
    generalize report.component? r = found at hrel ⊢
    generalize report'.component? r = found' at hrel ⊢
    cases hrel with
    | none => exact .none
    | some hc => exact .some hc.symm

variable (h : report.Reordered report')
include h

theorem root_eq : report'.root = report.root := congrArg Metadata.root h.metadata_eq

theorem branch_eq : report'.branch = report.branch :=
  congrArg Metadata.effectiveBranch h.metadata_eq

theorem exists_component? (hc : report.component? r = some c) :
    ∃ c', report'.component? r = some c' ∧ c.Reordered c' := by
  have hrel := h.component?_rel r
  rw [hc] at hrel
  generalize report'.component? r = found at hrel ⊢
  cases hrel with
  | some hr => exact ⟨_, rfl, hr⟩

theorem isChild (hp : report.IsChild p child) : report'.IsChild p child := by
  obtain ⟨c, hc, hm⟩ := hp
  obtain ⟨c', hc', hr⟩ := h.exists_component? hc
  exact ⟨c', hc', hr.perm.mem_iff.mp hm⟩

theorem reachable (hr : report.Reachable r) : report'.Reachable r := by
  rw [Reachable, h.root_eq]
  exact Relation.ReflTransGen.mono (fun _ _ => h.isChild) _ _ hr

theorem mem_components (hr : r ∈ report.components) : r ∈ report'.components := by
  obtain ⟨c, hc⟩ := mem_components_iff.mp hr
  obtain ⟨c', hc', -⟩ := h.exists_component? hc
  exact mem_components_iff.mpr ⟨c', hc'⟩

theorem size_eq : report'.size = report.size := by
  have hkeys : report'.components.keys.Perm report.components.keys := by
    rw [List.perm_ext_iff_of_nodup report'.components.nodup_keys report.components.nodup_keys]
    intro r
    rw [Std.ExtTreeMap.mem_keys, Std.ExtTreeMap.mem_keys]
    exact ⟨h.symm.mem_components, h.mem_components⟩
  have := hkeys.length_eq
  rwa [Std.ExtTreeMap.length_keys, Std.ExtTreeMap.length_keys] at this

theorem exists_lineage (hl : report.Lineage above r) :
    ∃ above', report'.Lineage above' r ∧ List.Forall₂ Component.Reordered above above' := by
  induction hl with
  | root => exact ⟨[], h.root_eq ▸ .root, .nil⟩
  | child _ hc hm ih =>
    obtain ⟨above', hl', ha⟩ := ih
    obtain ⟨c', hc', hr⟩ := h.exists_component? hc
    exact ⟨c' :: above', .child hl' hc' (hr.perm.mem_iff.mp hm), .cons hr ha⟩

theorem isTree (ht : report.IsTree) : report'.IsTree where
  root_not_mem p c' hp hc' hm := by
    obtain ⟨c, hc, hr⟩ := h.symm.exists_component? hc'
    refine ht.root_not_mem p c (h.symm.reachable hp) hc ?_
    exact hr.perm.mem_iff.mp (h.root_eq ▸ hm)
  nodup p c' hp hc' := by
    obtain ⟨c, hc, hr⟩ := h.symm.exists_component? hc'
    exact hr.perm.nodup_iff.mpr (ht.nodup p c (h.symm.reachable hp) hc)
  parent_eq p p' r hp hp' hr hr' :=
    ht.parent_eq p p' r (h.symm.reachable hp) (h.symm.reachable hp') (h.symm.isChild hr)
      (h.symm.isChild hr')

/-- Whether a report can be resolved does not depend on the order of siblings. -/
theorem resolvable (hr : report.Resolvable) : report'.Resolvable where
  declared r hreach := h.mem_components (hr.declared r (h.symm.reachable hreach))
  reached_once :=
    reachedOnce_iff_isTree.mpr (h.isTree (reachedOnce_iff_isTree.mp hr.reached_once))
  root_kind c' hc' := by
    obtain ⟨c, hc, hrc⟩ := h.symm.exists_component? hc'
    rw [← hrc.kind_eq]
    exact hr.root_kind c (h.root_eq ▸ hc)
  admissible above' r c' hl' hc' := by
    obtain ⟨above, hl, ha⟩ := h.symm.exists_lineage hl'
    obtain ⟨c, hc, hrc⟩ := h.symm.exists_component? hc'
    rw [h.branch_eq]
    exact hrc.admissible ha (hr.admissible above r c hl hc)
  eq_of_key_eq above₁ above₂ r₁ r₂ c₁ c₂ key hl₁ hc₁ hl₂ hc₂ hk₁ hk₂ := by
    obtain ⟨above₁', hl₁', ha₁⟩ := h.symm.exists_lineage hl₁
    obtain ⟨above₂', hl₂', ha₂⟩ := h.symm.exists_lineage hl₂
    obtain ⟨c₁', hc₁', hr₁⟩ := h.symm.exists_component? hc₁
    obtain ⟨c₂', hc₂', hr₂⟩ := h.symm.exists_component? hc₂
    rw [h.branch_eq] at hk₁ hk₂
    exact hr.eq_of_key_eq _ _ _ _ _ _ key hl₁' hc₁' hl₂' hc₂'
      ((hr₁.referenceKey?_eq ha₁).trans hk₁) ((hr₂.referenceKey?_eq ha₂).trans hk₂)

end Reordered

theorem find?_toList : report.toList.find? (·.ref == r) = report.component? r := by
  cases hf : report.toList.find? (·.ref == r) with
  | none =>
    rw [List.find?_eq_none] at hf
    rw [eq_comm, Option.eq_none_iff_forall_ne_some]
    intro c hc
    exact hf c (mem_toList_iff.mpr (ref_of_component? hc ▸ hc)) (by simp [ref_of_component? hc])
  | some c =>
    obtain rfl : c.ref = r := by simpa using List.find?_some hf
    exact (mem_toList_iff.mp (List.mem_of_find?_eq_some hf)).symm

theorem reordered_of_forall₂ (hm : report'.metadata = report.metadata)
    (hc : List.Forall₂ Component.Reordered report.toList report'.toList) :
    report.Reordered report' where
  metadata_eq := hm
  component?_rel r := by
    rw [← find?_toList, ← find?_toList]
    exact Component.find?_reordered (fun _ _ hd => by rw [hd.ref_eq]) hc

end Report

namespace Resolution

variable {report report' : Report} {index : IdentityIndex} {res res' : Resolution}
  {m m' m₁ m₁' : Minter}

def KeysAgree (res res' : Resolution) : Prop :=
  ∀ r, (res'.cache.get? r).map (·.key) = (res.cache.get? r).map (·.key)

theorem IsComplete.keysAgree (hc : res.IsComplete report) (hc' : res'.IsComplete report')
    (h : report.Reordered report') : res.KeysAgree res' := by
  intro r
  by_cases hr : report.Reachable r
  · obtain ⟨above, hl⟩ := Report.reachable_iff_exists_lineage.mp hr
    obtain ⟨above', hl', ha⟩ := h.exists_lineage hl
    obtain ⟨d, c, hd, hget, hkey⟩ := hc.key_eq above r hl
    obtain ⟨d', c', hd', hget', hkey'⟩ := hc'.key_eq above' r hl'
    obtain ⟨e, he, hrel⟩ := h.exists_component? hd
    cases hd'.symm.trans he
    rw [h.branch_eq, hrel.referenceKey?_eq ha, hkey] at hkey'
    rw [hget, hget', Option.map_some, Option.map_some, hkey']
  · have hr' : ¬ report'.Reachable r := fun hr' => hr (h.symm.reachable hr')
    rw [← hc.stored_iff, ← Option.ne_none_iff_exists', not_not] at hr
    rw [← hc'.stored_iff, ← Option.ne_none_iff_exists', not_not] at hr'
    rw [hr, hr']

theorem mem_map_key_iff {cache : RefCache} {key : String} :
    key ∈ cache.toList.map (·.2.key) ↔ ∃ r, (cache.get? r).map (·.key) = some key := by
  simp only [List.mem_map, Prod.exists, RefCache.mem_toList_iff, Option.map_eq_some_iff]

theorem KeysAgree.perm (h : res.KeysAgree res') (hc : res.cache.Consistent)
    (hc' : res'.cache.Consistent) :
    (res'.cache.toList.map (·.2.key)).Perm (res.cache.toList.map (·.2.key)) := by
  rw [List.perm_ext_iff_of_nodup hc'.nodup_keys hc.nodup_keys]
  intro key
  rw [mem_map_key_iff, mem_map_key_iff]
  exact exists_congr fun r => by rw [h r]

/-- The counts of a resolution are counts of its keys. -/
structure Counted (index : IdentityIndex) (size : Nat) (res : Resolution) : Prop where
  resolved_eq : res.stats.resolved = (res.cache.toList.map (·.2.key)).length
  reused_eq : res.stats.reused = (res.cache.toList.map (·.2.key)).countP index.knows
  minted_eq : res.stats.minted = (res.cache.toList.map (·.2.key)).countP (!index.knows ·)
  resolved_add_unreachable : res.stats.resolved + res.stats.unreachable = size

theorem IsComplete.counted {n : Nat} (hc : res.IsComplete report)
    (hi : res.IsIdentified index m n) : res.Counted index report.size where
  resolved_eq := by rw [hc.resolved_eq, List.length_map, RefCache.length_toList]
  reused_eq := by rw [hi.reused_eq, countKnown, List.countP_map]; rfl
  minted_eq := by rw [hi.minted_eq, countUnknown, List.countP_map]; rfl
  resolved_add_unreachable := hc.resolved_add_unreachable

theorem Counted.stats_eq {size : Nat} (h : res.Counted index size) (h' : res'.Counted index size)
    (hp : (res'.cache.toList.map (·.2.key)).Perm (res.cache.toList.map (·.2.key))) :
    res'.stats = res.stats := by
  have hresolved : res'.stats.resolved = res.stats.resolved := by
    rw [h'.resolved_eq, h.resolved_eq, hp.length_eq]
  have hreused : res'.stats.reused = res.stats.reused := by
    rw [h'.reused_eq, h.reused_eq, hp.countP_eq]
  have hminted : res'.stats.minted = res.stats.minted := by
    rw [h'.minted_eq, h.minted_eq, hp.countP_eq]
  have hunreachable : res'.stats.unreachable = res.stats.unreachable := by
    have := h.resolved_add_unreachable
    have := h'.resolved_add_unreachable
    omega
  exact Stats.ext hresolved hreused hminted hunreachable

/-- The same refs with the same keys and the same counts; where the index knows the key, also with
the same identifier. -/
structure Corresponds (index : IdentityIndex) (res res' : Resolution) : Prop where
  keys : res.KeysAgree res'
  uuid_eq : ∀ r r' c c', res.cache.get? r = some c → res'.cache.get? r' = some c' →
    c'.key = c.key → index.knows c.key = true → c'.uuid = c.uuid
  stats_eq : res'.stats = res.stats

theorem consistent_complete_identified (h : (report.resolve index).run m = (.ok res, m')) :
    res.cache.Consistent ∧ res.IsComplete report ∧ ∃ n, res.IsIdentified index m n := by
  obtain ⟨r, n, hid, hres, -⟩ := exists_identified_of_resolve h
  obtain ⟨r', done, -, ht, rfl, -⟩ := exists_traced_of_resolve h
  exact ⟨hres ▸ hid.consistent, ht.isComplete, n, hres ▸ hid.isIdentified⟩

theorem corresponds_of_resolve (h : report.Reordered report')
    (hr : (report.resolve index).run m = (.ok res, m₁))
    (hr' : (report'.resolve index).run m' = (.ok res', m₁')) : res.Corresponds index res' := by
  obtain ⟨hcons, hc, n, hi⟩ := consistent_complete_identified hr
  obtain ⟨hcons', hc', n', hi'⟩ := consistent_complete_identified hr'
  have hkeys := hc.keysAgree hc' h
  refine ⟨hkeys, ?_, ?_⟩
  · intro x x' c c' hx hx' hk hknown
    obtain ⟨uuid, hu⟩ := IdentityIndex.knows_iff.mp hknown
    rw [hi.reused x c uuid hx hu, hi'.reused x' c' uuid hx' (hk ▸ hu)]
  · exact (hc.counted hi).stats_eq (h.size_eq ▸ hc'.counted hi') (hkeys.perm hcons hcons')

/-- Reports that differ in the order of siblings resolve to the same keys, with the identifiers of
the index where it knows them. With fresh identifiers and an index in memory in which no two keys
share one, both of them resolve or none. -/
theorem reordered_corresponds (h : report.Reordered report') :
    (∀ index m m' res res' m₁ m₁', (report.resolve index).run m = (.ok res, m₁) →
      (report'.resolve index).run m' = (.ok res', m₁') → res.Corresponds index res') ∧
    ∀ (entries : List (String × String)) (m m' : Minter), (MemoryIndex.ofList entries).Unique →
      m.Fresh (MemoryIndex.ofList entries).toIndex report.size →
      m'.Fresh (MemoryIndex.ofList entries).toIndex report'.size →
      ((∃ res, ((report.resolve (MemoryIndex.ofList entries).toIndex).run m).1 = .ok res) ↔
        ∃ res', ((report'.resolve (MemoryIndex.ofList entries).toIndex).run m').1 = .ok res') := by
  refine ⟨fun _ _ _ _ _ _ _ => corresponds_of_resolve h, fun entries m m' hu hf hf' => ?_⟩
  have hs := (MemoryIndex.faithful_ofList entries).sound hu
  rw [exists_ok_iff_resolvable hs hf, exists_ok_iff_resolvable hs hf']
  exact ⟨h.resolvable, h.symm.resolvable⟩

def turnedReport : Report :=
  (Report.ofComponents { root := 1, branch := some "dev" }
    [.withChildren (.project 1 "P") [5, 2], .withChildren (.file 2 "a") [3],
      .withChildren (.module 3 "M") [4], .file 4 "b", .directory 5 "c", .file 6 "d"]).toOption.getD
    (.empty { root := 1 })

theorem reordered_corresponds_turnedReport : mixedReport.Reordered turnedReport ∧
    (∃ res res' m₁ m₁', (mixedReport.resolve rootIndex.toIndex).run repeating = (.ok res, m₁) ∧
      (turnedReport.resolve rootIndex.toIndex).run distinct = (.ok res', m₁') ∧
      res.cache.toList.map (·.2.uuid) = ["u", "w", "x", "y", "z"] ∧
      res'.cache.toList.map (·.2.uuid) = ["u", "b", "c", "d", "a"] ∧
      res.Corresponds rootIndex.toIndex res') ∧
    rootIndex.Unique ∧ distinct.Fresh rootIndex.toIndex mixedReport.size ∧
      distinct.Fresh rootIndex.toIndex turnedReport.size ∧
      ((∃ res, ((mixedReport.resolve rootIndex.toIndex).run distinct).1 = .ok res) ↔
        ∃ res', ((turnedReport.resolve rootIndex.toIndex).run distinct).1 = .ok res') := by
  have hre : mixedReport.Reordered turnedReport :=
    Report.reordered_of_forall₂ (by decide +kernel) (by decide +kernel)
  obtain ⟨hcorr, hiff⟩ := reordered_corresponds hre
  have huuids : ((mixedReport.resolve rootIndex.toIndex).run repeating).1.toOption.map
      (fun res => res.cache.toList.map (·.2.uuid)) = some ["u", "w", "x", "y", "z"] := by
    decide +kernel
  have huuids' : ((turnedReport.resolve rootIndex.toIndex).run distinct).1.toOption.map
      (fun res => res.cache.toList.map (·.2.uuid)) = some ["u", "b", "c", "d", "a"] := by
    decide +kernel
  have hf : distinct.Fresh rootIndex.toIndex mixedReport.size :=
    ⟨by decide +kernel, by decide +kernel⟩
  have hf' : distinct.Fresh rootIndex.toIndex turnedReport.size := by
    rw [hre.size_eq]
    exact hf
  obtain ⟨res, m₁, hr, huuids⟩ := Except.exists_of_toOption_map huuids
  obtain ⟨res', m₁', hr', huuids'⟩ := Except.exists_of_toOption_map huuids'
  refine ⟨hre, ⟨res, res', m₁, m₁', hr, hr', huuids, huuids', hcorr _ _ _ _ _ _ _ hr hr'⟩, ?_⟩
  exact ⟨unique_rootIndex, hf, hf', hiff _ distinct distinct unique_rootIndex hf hf'⟩

end Resolution

end ComponentIdentity
