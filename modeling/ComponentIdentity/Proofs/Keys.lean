import Mathlib.Data.Set.Card
import ComponentIdentity.Index.Memory
import ComponentIdentity.Proofs.Cache
import ComponentIdentity.Proofs.Run
import ComponentIdentity.Proofs.Scope

/-! # The keys of a resolution

A resolution never looks upwards: it keeps a stack of scopes and the depth of
each visit. Between two visits the scopes that enclose a ref to come are those
of the modules above it. So a resolution that succeeds has given exactly the
reachable components their reference keys.
-/

namespace ComponentIdentity

theorem Stats.resolved_count (stats : Stats) (origin : Origin) :
    (stats.count origin).resolved = stats.resolved + 1 := by
  cases origin <;> rfl

theorem Stats.reused_add_minted_count (stats : Stats) (origin : Origin) :
    (stats.count origin).reused + (stats.count origin).minted =
      stats.reused + stats.minted + 1 := by
  cases origin <;> simp only [count] <;> omega

namespace Resolution

variable {report : Report} {index : IdentityIndex} {res : Resolution} {m m' : Minter}

namespace Run

variable {r r' : Run} {frontier done : List Trail}

/-- The component at the end of a trail is in the cache, under its own ref and with the key that
the trail gives it. -/
def Keyed (report : Report) (cache : RefCache) (t : Trail) : Prop :=
  ∃ d c, report.component? t.ref = some d ∧ cache.get? t.ref = some c ∧ c.ref = t.ref ∧
    d.referenceKey? report.branch t.above = some c.key

/-- The frontier of a run finds the scopes of the modules above it, and behind the run every
trail is keyed. -/
structure Traced (report : Report) (r : Run) (frontier done : List Trail) : Prop where
  follows : Walk.Follows report r.walk frontier done
  around : ∀ t ∈ frontier,
    Scope.Around report.branch t.above (Scope.enclosing t.depth r.state.scopes)
  keyed : ∀ t ∈ done, Keyed report r.state.cache t
  mem_refs : ∀ x c, r.state.cache.get? x = some c → x ∈ done.map Trail.ref
  size_eq : r.state.cache.size = done.length
  resolved_eq : r.state.stats.resolved = done.length
  reused_add_minted_eq : r.state.stats.reused + r.state.stats.minted = done.length

theorem traced_start : Traced report (start report m) [⟨[], report.root⟩] [] where
  follows := Walk.follows_start
  around t ht := by
    rw [List.mem_singleton] at ht
    subst ht
    exact .nil
  keyed := by simp
  mem_refs x c h := by simp [start] at h
  size_eq := by simp [start, RefCache.size, RefCache.empty]
  resolved_eq := rfl
  reused_add_minted_eq := rfl

theorem Keyed.insertFresh {cache : RefCache} {t : Trail} {x : Ref} {c : ResolvedComponent}
    (h : Keyed report cache t) (hx : t.ref ≠ x) : Keyed report (cache.insertFresh x c) t := by
  obtain ⟨d, c', hd, hc', hr, hk⟩ := h
  refine ⟨d, c', hd, ?_, hr, hk⟩
  rw [RefCache.get?_insertFresh, if_neg hx.symm, hc']

/-- A visit moves the first trail of the frontier behind the run. -/
theorem Traced.visit {v : Visit} {w : Walk} {s : State} (h : Traced report r frontier done)
    (hw : r.walk.next report = (some (.ok v), w))
    (hv : (Resolution.visit index report.branch r.state v).run r.minter = (.ok s, m)) :
    ∃ t rest, frontier = t :: rest ∧ report.component? t.ref = some v.component ∧
      v.depth = t.depth ∧ Traced report ⟨w, s, m⟩ (t.below v.component ++ rest) (t :: done) := by
  obtain ⟨t, rest, rfl, hc, hf, hd, hfollows⟩ := h.follows.visit hw
  obtain ⟨key, scopes, uuid, origin, cache, hk, -, hp, rfl⟩ := visit_eq_ok hv
  obtain ⟨-, hk, -⟩ := keyFor_eq_ok_iff.mp hk
  obtain ⟨hr, -, -, rfl⟩ := RefCache.put_eq_ok_iff.mp hp
  have hvr : v.component.ref = t.ref := Report.ref_of_component? hc
  rw [hvr] at hr ⊢
  obtain ⟨hkey, hbelow, hclimb⟩ := Scope.keyOf_eq_ok hk (hd ▸ h.around t (by simp)) hd
  refine ⟨t, rest, rfl, hc, hd, hfollows, ?_, ?_, ?_, ?_, ?_, ?_⟩
  · intro u hu
    rcases List.mem_append.mp hu with hu | hu
    · have hlt := hbelow.depth_lt
      rw [Trail.depth, (Trail.mem_below_iff.mp hu).1, Scope.enclosing_of_forall_lt hlt]
      exact hbelow
    · have hle : u.depth ≤ v.depth :=
        hd ▸ (List.pairwise_cons.mp h.follows.climbs).1 u hu
      rw [hclimb u.depth hle]
      exact h.around u (by simp [hu])
  · intro u hu
    rcases List.mem_cons.mp hu with rfl | hu
    · exact ⟨v.component, ⟨u.ref, key, uuid⟩, hc, by simp, rfl, hkey⟩
    · refine (h.keyed u hu).insertFresh ?_
      rintro he
      exact hf (he ▸ List.mem_map_of_mem hu)
  · intro x c hx
    rcases (RefCache.get?_insertFresh_eq_some_iff hr).mp hx with hx | ⟨rfl, -⟩
    · exact List.mem_cons_of_mem _ (h.mem_refs x c hx)
    · exact List.mem_cons_self
  · rw [RefCache.size_insertFresh hr, h.size_eq, List.length_cons]
  · rw [Stats.resolved_count, h.resolved_eq, List.length_cons]
  · rw [Stats.reused_add_minted_count, h.reused_add_minted_eq, List.length_cons]

theorem Traced.step (h : Traced report r frontier done) (hs : Step report index r r') :
    ∃ frontier' done', Traced report r' frontier' done' := by
  cases hs with
  | visit hw hv =>
    obtain ⟨_, _, -, -, -, ht⟩ := h.visit hw hv
    exact ⟨_, _, ht⟩

theorem exists_traced (h : Reaches report index (start report m) r) :
    ∃ frontier done, Traced report r frontier done := by
  induction h with
  | refl => exact ⟨_, _, traced_start⟩
  | tail _ hs ih =>
    obtain ⟨frontier, done, h⟩ := ih
    exact h.step hs

theorem Traced.mem_components (h : Traced report r frontier done) :
    ∀ x ∈ done.map Trail.ref, x ∈ report.components := by
  intro x hx
  obtain ⟨t, ht, rfl⟩ := List.mem_map.mp hx
  obtain ⟨d, -, hd, -⟩ := h.keyed t ht
  exact Report.mem_components_iff.mpr ⟨d, hd⟩

theorem Traced.frontier_eq_nil (h : Traced report r frontier done) (hs : r.walk.stack = []) :
    frontier = [] := by
  rw [h.follows.stack_eq, List.map_eq_nil_iff] at hs
  exact hs

end Run

/-- A resolution that succeeds has followed every lineage of the report. -/
theorem exists_traced_of_resolve (h : (report.resolve index).run m = (.ok res, m')) :
    ∃ r done, Run.Reaches report index (.start report m) r ∧ Run.Traced report r [] done ∧
      res = r.resolution report ∧ m' = r.minter := by
  obtain ⟨r, hr, he⟩ := Run.exists_run report index m
  rw [h] at he
  cases he with
  | done hs =>
    obtain ⟨frontier, done, ht⟩ := Run.exists_traced hr
    cases ht.frontier_eq_nil hs
    exact ⟨r, done, hr, ht, rfl, rfl⟩

theorem Run.Traced.ncard_unreachable {r : Run} {done : List Trail}
    (h : Run.Traced report r [] done) :
    {x | x ∈ report.components ∧ ¬ report.Reachable x}.ncard + done.length = report.size := by
  have hset : {x | x ∈ report.components ∧ ¬ report.Reachable x} =
      ((report.components.keys.toFinset \ (done.map Trail.ref).toFinset : Finset Ref) :
        Set Ref) := by
    ext x
    simp [← h.follows.mem_refs_iff]
  have hsub : (done.map Trail.ref).toFinset ⊆ report.components.keys.toFinset := by
    intro x hx
    simpa using h.mem_components x (List.mem_toFinset.mp hx)
  have hdone : (done.map Trail.ref).toFinset.card = done.length := by
    rw [List.toFinset_card_of_nodup h.follows.nodup, List.length_map]
  have hkeys : report.components.keys.toFinset.card = report.size := by
    rw [List.toFinset_card_of_nodup report.components.nodup_keys, Std.ExtTreeMap.length_keys]
    rfl
  have hle := Finset.card_le_card hsub
  rw [hset, Set.ncard_coe_finset, Finset.card_sdiff_of_subset hsub]
  omega

/-- The cache has the reachable components and no others, each under its own ref and with its
reference key, and every declared component is counted once. -/
structure IsComplete (report : Report) (res : Resolution) : Prop where
  stored_iff : ∀ x, (∃ c, res.cache.get? x = some c) ↔ report.Reachable x
  ref_eq : ∀ x c, res.cache.get? x = some c → c.ref = x
  key_eq : ∀ above x, report.Lineage above x → ∃ d c, report.component? x = some d ∧
    res.cache.get? x = some c ∧ d.referenceKey? report.branch above = some c.key
  resolved_eq : res.stats.resolved = res.cache.size
  unreachable_eq :
    res.stats.unreachable = {x | x ∈ report.components ∧ ¬ report.Reachable x}.ncard
  resolved_add_unreachable : res.stats.resolved + res.stats.unreachable = report.size
  reused_add_minted : res.stats.reused + res.stats.minted = res.stats.resolved

theorem Run.Traced.isComplete {r : Run} {done : List Trail} (h : Run.Traced report r [] done) :
    (r.resolution report).IsComplete report := by
  have hn := h.ncard_unreachable
  have hstats : (r.resolution report).stats.resolved = done.length := h.resolved_eq
  have hun : (r.resolution report).stats.unreachable = report.size - done.length := by
    rw [← hstats]
    rfl
  refine ⟨?_, ?_, ?_, ?_, ?_, ?_, ?_⟩
  · intro x
    rw [← h.follows.mem_refs_iff]
    constructor
    · rintro ⟨c, hc⟩; exact h.mem_refs x c hc
    · intro hx
      obtain ⟨t, htd, rfl⟩ := List.mem_map.mp hx
      obtain ⟨-, c, -, hc, -⟩ := h.keyed t htd
      exact ⟨c, hc⟩
  · intro x c hx
    obtain ⟨t, htd, rfl⟩ := List.mem_map.mp (h.mem_refs x c hx)
    obtain ⟨-, c', -, hc', hr, -⟩ := h.keyed t htd
    cases hx.symm.trans hc'
    exact hr
  · intro above x hl
    obtain ⟨d, c, hd, hc, -, hk⟩ := h.keyed _ (h.follows.mem_of_lineage hl)
    exact ⟨d, c, hd, hc, hk⟩
  · rw [hstats]; exact h.size_eq.symm
  · omega
  · omega
  · rw [hstats]; exact h.reused_add_minted_eq

theorem isComplete_of_resolve (h : (report.resolve index).run m = (.ok res, m')) :
    res.IsComplete report := by
  obtain ⟨r, done, -, ht, rfl, -⟩ := exists_traced_of_resolve h
  exact ht.isComplete

theorem isComplete_mixedReport : ∃ res m',
    (mixedReport.resolve MemoryIndex.empty.toIndex).run (.ofList ["u", "u", "v", "w", "x", "y"]) =
        (.ok res, m') ∧
      res.cache.toList.map (·.2.key) = ["P:dev", "P:dev:a", "M:dev", "M:dev:b", "P:dev:c"] ∧
      res.IsComplete mixedReport := by
  have hkeys : ((mixedReport.resolve MemoryIndex.empty.toIndex).run
        (.ofList ["u", "u", "v", "w", "x", "y"])).1.toOption.map
          (fun res => res.cache.toList.map (·.2.key)) =
      some ["P:dev", "P:dev:a", "M:dev", "M:dev:b", "P:dev:c"] := by decide +kernel
  obtain ⟨res, m', h, hkeys⟩ := Except.exists_of_toOption_map hkeys
  exact ⟨res, m', h, hkeys, isComplete_of_resolve h⟩

end Resolution

end ComponentIdentity
