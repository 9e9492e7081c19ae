import ComponentIdentity.Proofs.Unfolding
import ComponentIdentity.Proofs.Vacancy

/-! # Enclosing scopes

A resolution knows of a visit how deep it stands, and of the visits before it
the stack of scopes that they left. What is left of the stack at that depth are
the scopes of the modules above the visit. The root is one of them, so below the
root no component is without a module.
-/

namespace ComponentIdentity

namespace Trail

/-- The modules above a ref from the root down, each with how deep it stands. -/
def modules (t : Trail) : List (Component × Nat) :=
  t.above.reverse.zipIdx.filter fun p => p.1.kind.isModule

def scopes (branch : Option String) (t : Trail) : Except ReportFault (List Scope) :=
  t.modules.mapM fun p => (Key.ofModule branch p.1).map (⟨p.2, ·⟩)

variable {above : List Component} {r : Ref} {c : Component}

theorem modules_below :
    modules ⟨c :: above, r⟩ =
      modules ⟨above, r⟩ ++ if c.kind.isModule then [(c, above.length)] else [] := by
  simp only [modules, List.reverse_cons, List.zipIdx_append, List.filter_append,
    List.length_reverse, Nat.zero_add, List.zipIdx_singleton, List.filter_singleton]
  split <;> simp_all

end Trail

namespace Scope.Around

variable {branch : Option String} {above : List Component} {scopes : List Scope}

/-- The scopes around a component are those of the modules above it, if each of these gets a
key. -/
theorem scopes_eq (h : Around branch above scopes)
    (hk : ∀ c ∈ above, c.kind.isModule = true → ∃ key, Key.ofModule branch c = .ok key) (r : Ref) :
    Trail.scopes branch ⟨above, r⟩ = .ok scopes.reverse := by
  induction h with
  | nil => rfl
  | @module above scopes c key _ hm hkey ih =>
    obtain ⟨hc, habove⟩ := List.forall_mem_cons.mp hk
    obtain ⟨key', hkey'⟩ := hc hm
    cases hkey.symm.trans (Key.ofModule_eq_ok_iff.mp hkey').2.1
    have ih := ih habove
    rw [Trail.scopes] at ih
    rw [Trail.scopes, Trail.modules_below, if_pos hm, List.mapM_append, ih, List.reverse_cons]
    simp only [List.mapM_cons, List.mapM_nil, hkey']
    rfl
  | @path above scopes c _ hm ih =>
    have ih := ih (List.forall_mem_cons.mp hk).2
    rwa [Trail.scopes, Trail.modules_below, if_neg (by simp [hm]), List.append_nil]

theorem descending (h : Around branch above scopes) :
    (scopes.map depth).Pairwise (· > ·) := by
  induction h with
  | nil => exact .nil
  | module ha _ _ ih =>
    refine List.pairwise_cons.mpr ⟨fun d hd => ?_, ih⟩
    obtain ⟨scope, hs, rfl⟩ := List.mem_map.mp hd
    exact ha.depth_lt scope hs
  | path _ _ ih => exact ih

end Scope.Around

namespace Resolution

variable {report : Report} {index : IdentityIndex} {m m' : Minter} {k : Nat} {s : State}
  {v : Visit}

def StoredModule (branch : Option String) (cache : RefCache) (c : Component) : Prop :=
  ∃ key uuid, Key.ofModule branch c = .ok key ∧ cache.get? c.ref = some ⟨c.ref, key, uuid⟩

namespace Run

variable {r r' : Run} {frontier done : List Trail}

/-- What is before a run is what its report goes on with behind the trails that it has done. The
modules above it are stored, and below the root there is one. -/
structure Stacked (report : Report) (r : Run) (frontier done : List Trail) : Prop where
  traced : Traced report r frontier done
  ahead : ∀ i, Trail.nth? report frontier i = report.occurrence? (done.length + i)
  stored : ∀ t ∈ frontier, ∀ c ∈ t.above, c.kind.isModule = true →
    StoredModule report.branch r.state.cache c
  module_mem : ∀ t ∈ frontier, t.above ≠ [] → ∃ c ∈ t.above, c.kind.isModule = true

theorem stacked_start : Stacked report (start report m) [⟨[], report.root⟩] [] where
  traced := traced_start
  ahead i := by rw [List.length_nil, Nat.zero_add, Report.occurrence?]
  stored := by simp
  module_mem := by simp

theorem Stacked.step (h : Stacked report r frontier done) (hs : Step report index r r') :
    ∃ frontier' done', Stacked report r' frontier' done' := by
  cases hs with
  | @visit v w s m hw hv =>
    obtain ⟨t, rest, rfl, hc, hd, htraced⟩ := h.traced.visit hw hv
    obtain ⟨key, scopes, uuid, _, _, hkey, -, hput, rfl⟩ := visit_eq_ok hv
    obtain ⟨hroot, hkey, -⟩ := keyFor_eq_ok_iff.mp hkey
    obtain ⟨hfree, -, -, rfl⟩ := RefCache.put_eq_ok_iff.mp hput
    have hkept : ∀ u ∈ t :: rest, ∀ c ∈ u.above, c.kind.isModule = true →
        StoredModule report.branch
          (r.state.cache.insertFresh v.component.ref ⟨v.component.ref, key, uuid⟩) c := by
      intro u hu c hmem hm
      obtain ⟨key', uuid', hk, hg⟩ := h.stored u hu c hmem hm
      exact ⟨key', uuid', hk, (RefCache.get?_insertFresh_eq_some_iff hfree).mpr (.inl hg)⟩
    obtain ⟨hmodule, hrest⟩ := List.forall_mem_cons.mp h.module_mem
    refine ⟨_, _, htraced, fun i => ?_, fun u hu => ?_, fun u hu hne => ?_⟩
    · rw [← Trail.children_eq hc, ← Trail.nth?_cons_succ, h.ahead, List.length_cons,
        Nat.add_right_comm, Nat.add_assoc]
    · rcases List.mem_append.mp hu with hu | hu
      · rw [(Trail.mem_below_iff.mp hu).1]
        refine List.forall_mem_cons.mpr ⟨fun hm => ?_, hkept t List.mem_cons_self⟩
        exact ⟨key, uuid, Scope.ofModule_of_keyOf hkey hm,
          (RefCache.get?_insertFresh_eq_some_iff hfree).mpr (.inr ⟨rfl, rfl⟩)⟩
      · exact hkept u (List.mem_cons_of_mem _ hu)
    · rcases List.mem_append.mp hu with hu | hu
      · rw [(Trail.mem_below_iff.mp hu).1]
        by_cases habove : t.above = []
        · -- What is below the root is below a project.
          have hproject := hroot (by rw [hd, Trail.depth, habove, List.length_nil])
          exact ⟨v.component, List.mem_cons_self, by rw [hproject, Kind.isModule]⟩
        · obtain ⟨c, hmem, hm⟩ := hmodule habove
          exact ⟨c, List.mem_cons_of_mem _ hmem, hm⟩
      · exact hrest u hu hne

theorem exists_stacked (h : Reaches report index (start report m) r) :
    ∃ frontier done, Stacked report r frontier done := by
  induction h with
  | refl => exact ⟨_, _, stacked_start⟩
  | tail _ hs ih =>
    obtain ⟨frontier, done, h⟩ := ih
    exact h.step hs

end Run

/-- A visit comes to the end of a trail. At its depth the stack is left with the scopes of the
modules above it, which are stored with the keys of these scopes. -/
structure FindsScopes (report : Report) (s : State) (v : Visit) (t : Trail) : Prop where
  lineage : report.Lineage t.above t.ref
  component_eq : report.component? t.ref = some v.component
  depth_eq : v.depth = t.depth
  scopes_eq : t.scopes report.branch = .ok (Scope.enclosing v.depth s.scopes).reverse
  stored : ∀ c ∈ t.above, c.kind.isModule = true → StoredModule report.branch s.cache c
  ascending : ((Scope.enclosing v.depth s.scopes).reverse.map Scope.depth).Pairwise (· < ·)
  depth_lt : ∀ scope ∈ Scope.enclosing v.depth s.scopes, scope.depth < v.depth
  ne_nil : 0 < v.depth → Scope.enclosing v.depth s.scopes ≠ []

theorem Run.Stacked.findsScopes {r : Run} {frontier done : List Trail} {w : Walk}
    (h : Stacked report r frontier done) (hw : r.walk.next report = (some (.ok v), w)) :
    ∃ t, report.occurrence? done.length = some t ∧ FindsScopes report r.state v t := by
  obtain ⟨t, rest, rfl, hc, -, hd, -⟩ := h.traced.follows.visit hw
  have ht : t ∈ t :: rest := List.mem_cons_self
  have ha := h.traced.around t ht
  rw [← hd] at ha
  have hstored := h.stored t ht
  have hkeys : ∀ c ∈ t.above, c.kind.isModule = true →
      ∃ key, Key.ofModule report.branch c = .ok key := by
    intro c hmem hm
    obtain ⟨key, _, hk, -⟩ := hstored c hmem hm
    exact ⟨key, hk⟩
  refine ⟨t, (h.ahead 0).symm, h.traced.follows.lineage t (List.mem_append_left _ ht), hc, hd,
    ha.scopes_eq hkeys t.ref, hstored, ?_, ?_, fun hpos => ?_⟩
  · rw [List.map_reverse, List.pairwise_reverse]
    exact ha.descending
  · intro scope hs
    rw [hd]
    exact ha.depth_lt scope hs
  · refine ha.ne_nil (h.module_mem t ht fun he => ?_)
    rw [hd, Trail.depth, he] at hpos
    exact absurd hpos (Nat.lt_irrefl 0)

theorem Arrives.resolved_eq (h : Arrives report index m k s m') (hk : k ≤ report.walk.length) :
    s.stats.resolved = k := by
  induction k generalizing s m' with
  | zero =>
    cases h
    rfl
  | succ k ih =>
    obtain ⟨s₁, m₁, h₁, hs⟩ := (arrives_succ_iff (List.getElem?_eq_getElem hk)).mp h
    cases hx : report.walk[k] with
    | error fault =>
      rw [hx] at hs
      cases hs
    | ok v =>
      rw [hx] at hs
      obtain ⟨_, _, _, _, _, -, -, -, rfl⟩ := visit_eq_ok hs
      rw [Stats.resolved_count, ih h₁ (Nat.le_of_lt hk)]

theorem Arrives.findsScopes (h : Arrives report index m k s m')
    (hv : report.walk[k]? = some (.ok v)) :
    ∃ t, report.occurrence? k = some t ∧ FindsScopes report s v t := by
  obtain ⟨w, w', hr, hw⟩ := h.exists_next hv
  obtain ⟨frontier, done, hs⟩ := Run.exists_stacked hr
  have hdone : s.stats.resolved = done.length := hs.traced.resolved_eq
  rw [← h.resolved_eq (Nat.le_of_lt (List.getElem?_eq_some_iff.mp hv).1), hdone]
  exact hs.findsScopes hw

theorem FindsScopes.not_noModule {t : Trail} {x : Ref} (h : FindsScopes report s v t) :
    ¬ KeyFault report.branch s v (.noModule x) := by
  intro hf
  cases hf with
  | noModule hroot hm hnil =>
    refine h.ne_nil (Nat.pos_of_ne_zero fun h0 => ?_) hnil
    rw [hroot h0, Kind.isModule] at hm
    cases hm

/-- Every visit that a resolution comes to finds the scopes of the modules above it. So none is
refused for want of a module, and a resolution fails so only if the index does. -/
structure EnclosesVisits (report : Report) (index : IdentityIndex) (m : Minter) : Prop where
  findsScopes : ∀ k s m₁ v, Arrives report index m k s m₁ → report.walk[k]? = some (.ok v) →
    ∃ t, report.occurrence? k = some t ∧ FindsScopes report s v t
  keyFor_ne : ∀ k s m₁ v x, Arrives report index m k s m₁ → report.walk[k]? = some (.ok v) →
    keyFor report.branch s v ≠ .error (.noModule x)
  resolve_ne : ∀ x m', index.Avoids (.malformedReport (.noModule x)) →
    (report.resolve index).run m ≠ (.error (.malformedReport (.noModule x)), m')

theorem resolve_enclosesVisits (report : Report) (index : IdentityIndex) (m : Minter) :
    EnclosesVisits report index m where
  findsScopes _ _ _ _ := Arrives.findsScopes
  keyFor_ne k s m₁ v x ha hv hk := by
    obtain ⟨t, -, hfinds⟩ := ha.findsScopes hv
    exact hfinds.not_noModule (keyFault_of_keyFor hk)
  resolve_ne x m' hi h := by
    rcases fault_or_exists_keyFault hi h with hw | ⟨k, s, v, ha, hv, hk⟩
    · nomatch hw
    · obtain ⟨t, -, hfinds⟩ := ha.findsScopes hv
      exact hfinds.not_noModule hk

theorem resolve_enclosesVisits_mixedReport : ∃ s m₁ v t,
    Arrives mixedReport MemoryIndex.empty.toIndex (.ofList ["u", "v", "w", "x", "y"]) 4 s m₁ ∧
      s.scopes = [⟨2, "M:dev"⟩, ⟨0, "P:dev"⟩] ∧ mixedReport.walk[4]? = some (.ok v) ∧
      v.component = .directory 5 "c" ∧ mixedReport.occurrence? 4 = some t ∧
      FindsScopes mixedReport s v t ∧ Scope.enclosing v.depth s.scopes = [⟨0, "P:dev"⟩] := by
  have hrun : ((mixedReport.walk.take 4).foldlM
      (step MemoryIndex.empty.toIndex mixedReport.branch) {}).run
        (.ofList ["u", "v", "w", "x", "y"]) |>.1.toOption.map (·.scopes) =
      some [⟨2, "M:dev"⟩, ⟨0, "P:dev"⟩] := by decide +kernel
  have hv : mixedReport.walk[4]? = some (.ok ⟨.directory 5 "c", 1⟩) := by decide +kernel
  obtain ⟨s, m₁, ha, hscopes⟩ := Except.exists_of_toOption_map hrun
  obtain ⟨t, ht, hfinds⟩ := (resolve_enclosesVisits _ _ _).findsScopes 4 s m₁ _ ha hv
  exact ⟨s, m₁, _, t, ha, hscopes, hv, rfl, ht, hfinds, by rw [hscopes]; decide⟩

end Resolution

end ComponentIdentity
