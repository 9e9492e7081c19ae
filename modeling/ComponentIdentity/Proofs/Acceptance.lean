import ComponentIdentity.Proofs.Fresh
import ComponentIdentity.Proofs.Memory
import ComponentIdentity.Proofs.Tree

/-! # Reports that are accepted

A resolution checks each component only when it comes to it. If identifiers do
not run out, all of these checks together accept the reports that are trees of
declared components below a project, each with a key of its own.
-/

namespace ComponentIdentity

namespace Report

/-- Every reachable ref is declared and reached once, the root is a project, and each component has
what it needs to get a key, which no other has. -/
structure Resolvable (report : Report) : Prop where
  declared : ∀ r, report.Reachable r → r ∈ report.components
  reached_once : report.ReachedOnce
  root_kind : ∀ c, report.component? report.root = some c → c.kind = .project
  admissible : ∀ above r c, report.Lineage above r → report.component? r = some c →
    c.Admissible report.branch above
  eq_of_key_eq : ∀ above above' r r' c c' key,
    report.Lineage above r → report.component? r = some c →
    report.Lineage above' r' → report.component? r' = some c' →
    c.referenceKey? report.branch above = some key →
    c'.referenceKey? report.branch above' = some key → r = r'

end Report

namespace Resolution

variable {report : Report} {index : IdentityIndex} {m m' : Minter} {x : Except Error Resolution}

namespace Run

variable {r r' : Run} {frontier done : List Trail}

/-- What a run has found out about its report: all that is behind it can be resolved, and it has
met no ref twice. -/
structure Charted (report : Report) (r : Run) (frontier done : List Trail) : Prop where
  traced : Traced report r frontier done
  spread : Walk.Spread report frontier done
  admitted : ∀ t ∈ done, ∀ c, report.component? t.ref = some c →
    (t.above = [] → c.kind = .project) ∧ c.Admissible report.branch t.above
  nodup : report.IsTree → ((frontier ++ done).map Trail.ref).Nodup

theorem charted_start : Charted report (start report m) [⟨[], report.root⟩] [] where
  traced := traced_start
  spread := Walk.spread_start
  admitted := by simp
  nodup := by simp

theorem Charted.step (h : Charted report r frontier done) (hs : Step report index r r') :
    ∃ frontier' done', Charted report r' frontier' done' := by
  cases hs with
  | @visit v w s m hw hv =>
    obtain ⟨t, rest, rfl, hc, hd, ht⟩ := h.traced.visit hw hv
    obtain ⟨key, scopes, _, _, _, hk, -⟩ := visit_eq_ok hv
    obtain ⟨hroot, hk, -⟩ := keyFor_eq_ok_iff.mp hk
    refine ⟨_, _, ht, h.spread.visit hc, ?_, fun htree => ?_⟩
    · intro u hu c hcu
      rcases List.mem_cons.mp hu with rfl | hu
      · cases hc.symm.trans hcu
        refine ⟨fun ha => hroot (by rw [hd, Trail.depth, ha]; rfl), ?_⟩
        exact Scope.admissible_of_keyOf hk (hd ▸ h.traced.around u (by simp)) hd
      · exact h.admitted u hu c hcu
    · exact h.traced.follows.nodup_visit h.spread htree (h.nodup htree) hc

theorem exists_charted (h : Reaches report index (start report m) r) :
    ∃ frontier done, Charted report r frontier done := by
  induction h with
  | refl => exact ⟨_, _, charted_start⟩
  | tail _ hs ih =>
    obtain ⟨frontier, done, h⟩ := ih
    exact h.step hs

theorem Charted.resolvable (h : Charted report r [] done) (hc : r.state.cache.Consistent) :
    report.Resolvable where
  declared x hx := h.traced.mem_components x (h.traced.follows.mem_refs_iff.mpr hx)
  reached_once := Report.reachedOnce_iff_isTree.mpr (h.traced.follows.isTree h.spread)
  root_kind c hr := (h.admitted _ (h.traced.follows.mem_of_lineage .root) c hr).1 rfl
  admissible above x c hl hx := (h.admitted _ (h.traced.follows.mem_of_lineage hl) c hx).2
  eq_of_key_eq above above' x x' c c' key hl hx hl' hx' hk hk' := by
    obtain ⟨d, e, hd, he, -, hde⟩ := h.traced.keyed _ (h.traced.follows.mem_of_lineage hl)
    obtain ⟨d', e', hd', he', -, hde'⟩ := h.traced.keyed _ (h.traced.follows.mem_of_lineage hl')
    cases hx.symm.trans hd
    cases hx'.symm.trans hd'
    rw [hk] at hde
    rw [hk'] at hde'
    exact hc.eq_of_key_eq he he' (Option.some.inj (hde.symm.trans hde'))

theorem Charted.exists_keyFor {v : Visit} {w : Walk} (h : Charted report r frontier done)
    (hr : report.Resolvable) (hc : r.state.cache.Consistent)
    (hn : r.walk.next report = (some (.ok v), w)) :
    ∃ key scopes, keyFor report.branch r.state v = .ok (key, scopes) := by
  obtain ⟨t, rest, rfl, hcv, hf, hd, -⟩ := h.traced.follows.visit hn
  have hl := h.traced.follows.lineage t (by simp)
  have haround : Scope.Around report.branch t.above (Scope.enclosing v.depth r.state.scopes) :=
    hd ▸ h.traced.around t (by simp)
  have hroot : t.above = [] → v.component.kind = .project := by
    intro ha
    rcases hl.root_mem with ⟨-, he⟩ | ⟨c, hm, -⟩
    · exact hr.root_kind _ (he ▸ hcv)
    · simp [ha] at hm
  have hmodule : v.component.kind.isModule = false → ∃ c ∈ t.above, c.kind.isModule = true := by
    intro hk
    rcases hl.root_mem with ⟨ha, -⟩ | ⟨c, hm, hcr⟩
    · simp [hroot ha, Kind.isModule] at hk
    · exact ⟨c, hm, by rw [hr.root_kind c hcr]; rfl⟩
  obtain ⟨key, scopes, hk⟩ :=
    Scope.exists_keyOf (hr.admissible _ _ _ hl hcv) haround hmodule
  refine ⟨key, scopes, keyFor_eq_ok_iff.mpr ⟨fun h0 => hroot ?_, hk, ?_⟩⟩
  · exact List.length_eq_zero_iff.mp (hd.symm.trans h0)
  · rw [hc.getByKey?_eq_none_iff]
    rintro x c hx rfl
    obtain ⟨u, hu, rfl⟩ := List.mem_map.mp (h.traced.mem_refs x c hx)
    obtain ⟨d, c', hdu, hcu, -, hkey⟩ := h.traced.keyed u hu
    cases hx.symm.trans hcu
    have hlu := h.traced.follows.lineage u (by simp [hu])
    have he := hr.eq_of_key_eq _ _ _ _ _ _ _ hlu hdu hl hcv hkey
      (Scope.keyOf_eq_ok hk haround hd).1
    exact hf (he ▸ List.mem_map_of_mem hu)

theorem Charted.not_faults {fault : ReportFault} (h : Charted report r frontier done)
    (hr : report.Resolvable) (hc : r.state.cache.Consistent) : ¬ r.Faults report fault := by
  rintro (⟨hn⟩ | ⟨hn, hk⟩)
  · exact h.traced.follows.next_ne_error hr.declared
      (h.nodup (Report.reachedOnce_iff_isTree.mp hr.reached_once)) hn
  · obtain ⟨key, scopes, hok⟩ := h.exists_keyFor hr hc hn
    cases hk.symm.trans hok

end Run

/-- With a sound index and enough fresh identifiers a resolution succeeds if the report can be
resolved, and otherwise finds it malformed. -/
theorem resolve_outcome (hs : index.Sound) (hf : m.Fresh index report.size)
    (h : (report.resolve index).run m = (x, m')) :
    (report.Resolvable ∧ ∃ res, x = .ok res) ∨
      ¬ report.Resolvable ∧ ∃ fault, x = .error (.malformedReport fault) := by
  obtain ⟨n, hn⟩ := exists_advance_of_resolve report index m
  rw [h] at hn
  cases hn
  obtain ⟨r, hr, hid, -, hend⟩ := exists_end_of_fresh hs (hf.mono (Nat.min_le_right _ _)) h
  obtain ⟨frontier, done, hchart⟩ := Run.exists_charted hr
  rcases hend with ⟨hw, rfl⟩ | ⟨fault, rfl, hfault⟩
  · cases hchart.traced.frontier_eq_nil hw
    exact .inl ⟨hchart.resolvable hid.consistent, _, rfl⟩
  · exact .inr ⟨fun hres => hchart.not_faults hres hid.consistent hfault, fault, rfl⟩

theorem exists_ok_iff_resolvable (hs : index.Sound) (hf : m.Fresh index report.size) :
    (∃ res, ((report.resolve index).run m).1 = .ok res) ↔ report.Resolvable := by
  rcases hx : (report.resolve index).run m with ⟨x, m'⟩
  rcases resolve_outcome hs hf hx with ⟨hr, res, rfl⟩ | ⟨hr, fault, rfl⟩
  · exact ⟨fun _ => hr, fun _ => ⟨res, rfl⟩⟩
  · refine ⟨?_, fun h => absurd h hr⟩
    rintro ⟨res, ⟨⟩⟩

end Resolution

namespace MemoryIndex

variable {index : MemoryIndex}

/-- No two keys share an identifier. -/
def Unique (index : MemoryIndex) : Prop :=
  ∀ key key' uuid, index.uuidForKey key = some uuid → index.uuidForKey key' = some uuid →
    key = key'

theorem Faithful.sound (h : index.Faithful) (hu : index.Unique) : index.toIndex.Sound where
  uuidForKey_ok _ := ⟨_, rfl⟩
  containsUuid_ok _ := ⟨_, rfl⟩
  contains key uuid hk := congrArg Except.ok ((h uuid).mpr ⟨key, Except.ok.inj hk⟩)
  eq_of_uuid_eq _ _ _ hk hk' := hu _ _ _ (Except.ok.inj hk) (Except.ok.inj hk')

end MemoryIndex

namespace Resolution

/-- Whatever was inserted into an index in memory, if no two keys share an identifier and the
minter gives fresh ones, exactly the reports that can be resolved are, and every other one is
refused as malformed. -/
theorem exists_resolution_iff (report : Report) (entries : List (String × String)) (m : Minter)
    (hu : (MemoryIndex.ofList entries).Unique)
    (hf : m.Fresh (MemoryIndex.ofList entries).toIndex report.size) :
    ((∃ res, ((report.resolve (MemoryIndex.ofList entries).toIndex).run m).1 = .ok res) ↔
        report.Resolvable) ∧
      ∀ e, ((report.resolve (MemoryIndex.ofList entries).toIndex).run m).1 = .error e →
        ∃ fault, e = .malformedReport fault := by
  have hs := (MemoryIndex.faithful_ofList entries).sound hu
  refine ⟨exists_ok_iff_resolvable hs hf, fun e he => ?_⟩
  rcases resolve_outcome hs hf (Prod.ext he rfl) with ⟨-, res, hok⟩ | ⟨-, fault, hfault⟩
  · cases hok
  · exact ⟨fault, Except.error.inj hfault⟩

def distinct : Minter := .ofList ["a", "b", "c", "d", "e", "f"]

def loopReport : Report :=
  (Report.ofComponents { root := 1 }
    [.withChildren (.project 1 "P") [2], .withChildren (.directory 2 "a") [1]]).toOption.getD
    (.empty { root := 1 })

theorem unique_rootIndex : rootIndex.Unique := by
  intro key key' uuid hk hk'
  simp only [rootIndex, MemoryIndex.ofList, List.foldl_cons, List.foldl_nil,
    MemoryIndex.uuidForKey_insert, MemoryIndex.uuidForKey_empty] at hk hk'
  grind

theorem exists_resolution_iff_mixedReport :
    rootIndex.Unique ∧ distinct.Fresh rootIndex.toIndex mixedReport.size ∧
      mixedReport.Resolvable ∧ ¬ loopReport.Resolvable := by
  have hf : distinct.Fresh rootIndex.toIndex mixedReport.size :=
    ⟨by decide +kernel, by decide +kernel⟩
  have hmixed : ((mixedReport.resolve rootIndex.toIndex).run distinct).1.toOption.map
      (·.stats.minted) = some 4 := by decide +kernel
  have hloop : ((loopReport.resolve rootIndex.toIndex).run distinct).1.toOption.map
      (·.stats.minted) = none := by decide +kernel
  refine ⟨unique_rootIndex, hf, ?_, fun hr => ?_⟩
  · obtain ⟨res, m', hres, -⟩ := Except.exists_of_toOption_map hmixed
    have hok := congrArg Prod.fst hres
    exact (exists_resolution_iff mixedReport _ distinct unique_rootIndex hf).1.mp ⟨res, hok⟩
  · have hf := hf.mono (show loopReport.size ≤ mixedReport.size by decide +kernel)
    obtain ⟨res, hres⟩ :=
      (exists_resolution_iff loopReport _ distinct unique_rootIndex hf).1.mpr hr
    have hloop : (Except.ok res : Except Error Resolution).toOption.map (·.stats.minted) = none :=
      hres ▸ hloop
    cases hloop

end Resolution

end ComponentIdentity
