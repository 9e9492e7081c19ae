import ComponentIdentity.Proofs.Identifiers
import ComponentIdentity.Proofs.Keys

/-! # Fresh identifiers

If the identifiers that a minter gives next are distinct and not in the index,
the first one that is tried is never in use. So a resolution takes one for each
key that the index does not know, and fails for the report only.
-/

namespace ComponentIdentity

namespace Minter

/-- The next `n` identifiers are distinct and the index has none of them. -/
structure Fresh (m : Minter) (index : IdentityIndex) (n : Nat) : Prop where
  nodup : (m.upcoming n).Nodup
  unused : ∀ uuid ∈ m.upcoming n, index.containsUuid uuid = .ok false

variable {m : Minter} {index : IdentityIndex} {i n : Nat}

theorem Fresh.mono (h : m.Fresh index n) (hi : i ≤ n) : m.Fresh index i where
  nodup := h.nodup.sublist ((List.range_sublist.mpr hi).map _)
  unused uuid hu := h.unused uuid (upcoming_subset hi hu)

theorem Fresh.not_mem (h : m.Fresh index n) (hi : i < n) :
    m.ids (m.minted + i) ∉ m.upcoming i := by
  intro hm
  obtain ⟨j, hj, he⟩ := mem_upcoming_iff.mp hm
  have := List.inj_on_of_nodup_map h.nodup (List.mem_range.mpr (hj.trans hi))
    (List.mem_range.mpr hi) he
  omega

end Minter

theorem Report.length_le_size {report : Report} {refs : List Ref} (hn : refs.Nodup)
    (hr : ∀ x ∈ refs, x ∈ report.components) : refs.length ≤ report.size := by
  have hsub : refs ⊆ report.components.keys := fun x hx => Std.ExtTreeMap.mem_keys.mpr (hr x hx)
  have hle := (hn.subperm hsub).length_le
  rwa [Std.ExtTreeMap.length_keys] at hle

namespace Resolution

variable {report : Report} {index : IdentityIndex} {cache : RefCache} {s : State} {v : Visit}
  {branch : Option String} {m m' : Minter} {n attempts : Nat} {key uuid : String}
  {scopes : List Scope} {x : Except Error Resolution}

theorem mintUnused_advance (index : IdentityIndex) (cache : RefCache) (key : String)
    (attempts : Nat) (m : Minter) :
    ∃ k, ((mintUnused index cache key attempts).run m).2 = m.advance k ∧
      (0 < attempts → 0 < k) := by
  induction attempts generalizing m with
  | zero => exact ⟨0, rfl, fun h => h⟩
  | succ attempts ih =>
    rw [mintUnused_succ]
    split
    · exact ⟨1, rfl, fun _ => Nat.one_pos⟩
    · obtain ⟨k, hk, -⟩ := ih (m.advance 1)
      exact ⟨1 + k, by rw [hk, Minter.advance_advance], fun _ => by omega⟩
    · exact ⟨1, rfl, fun _ => Nat.one_pos⟩

theorem identify_advance (index : IdentityIndex) (cache : RefCache) (key : String) (m : Minter) :
    ∃ k, ((identify index cache key).run m).2 = m.advance k ∧
      (index.uuidForKey key = .ok none → 0 < k) := by
  rw [identify_run]
  split
  next hk => exact ⟨0, rfl, fun h => by rw [hk] at h; cases h⟩
  next hk =>
    refine ⟨0, ?_, fun h => by rw [hk] at h; cases h⟩
    split <;> rfl
  next hk =>
    obtain ⟨k, he, hp⟩ := mintUnused_advance index cache key mintAttempts m
    refine ⟨k, ?_, fun _ => hp (by decide)⟩
    split <;> (next hm => rw [hm] at he; exact he)

theorem visit_advance (index : IdentityIndex) (branch : Option String) (s : State) (v : Visit)
    (m : Minter) :
    ∃ k, ((visit index branch s v).run m).2 = m.advance k ∧
      ∀ key scopes, keyFor branch s v = .ok (key, scopes) →
        index.uuidForKey key = .ok none → 0 < k := by
  rw [visit_run]
  split
  next hk => exact ⟨0, rfl, fun key scopes h => by rw [hk] at h; cases h⟩
  next key scopes hk =>
    obtain ⟨k, he, hp⟩ := identify_advance index s.cache key m
    refine ⟨k, ?_, fun key' scopes' h hu => ?_⟩
    · split
      next hi => rw [hi] at he; exact he
      next hi =>
        rw [hi] at he
        split <;> exact he
    · rw [hk] at h
      cases h
      exact hp hu

namespace Run

variable {r r' : Run}

theorem exists_advance_of_step (h : Step report index r r') :
    ∃ k, r'.minter = r.minter.advance k := by
  cases h with
  | @visit v w s m _ hv =>
    obtain ⟨k, hk, -⟩ := visit_advance index report.branch r.state v r.minter
    rw [hv] at hk
    exact ⟨k, hk⟩

theorem exists_advance_of_reaches (h : Reaches report index r r') :
    ∃ k, r'.minter = r.minter.advance k := by
  induction h with
  | refl => exact ⟨0, rfl⟩
  | tail _ hs ih =>
    obtain ⟨k, hk⟩ := ih
    obtain ⟨l, hl⟩ := exists_advance_of_step hs
    exact ⟨k + l, by rw [hl, hk, Minter.advance_advance]⟩

theorem free_of_reaches {w : Walk} (h : Reaches report index (start report m) r)
    (hn : r.walk.next report = (some (.ok v), w)) :
    r.state.cache.get? v.component.ref = none ∧ r.state.stats.minted < report.size := by
  obtain ⟨frontier, done, ht⟩ := exists_traced h
  obtain ⟨t, rest, -, hc, hf, -⟩ := ht.follows.visit hn
  refine ⟨?_, ?_⟩
  · rw [Option.eq_none_iff_forall_ne_some, Report.ref_of_component? hc]
    exact fun c hg => hf (ht.mem_refs _ c hg)
  · have hmem : ∀ x ∈ t.ref :: done.map Trail.ref, x ∈ report.components := by
      simp only [List.mem_cons, forall_eq_or_imp]
      exact ⟨Report.mem_components_iff.mpr ⟨_, hc⟩, ht.mem_components⟩
    have hle := Report.length_le_size (List.nodup_cons.mpr ⟨hf, ht.follows.nodup⟩) hmem
    have := ht.reused_add_minted_eq
    rw [List.length_cons, List.length_map] at hle
    omega

namespace Identified

theorem inUse_of_fresh {i : Nat} (h : Identified index m r i) (hs : index.Sound)
    (hf : m.Fresh index n) (hi : i < n) :
    inUse index r.state.cache (m.ids (m.minted + i)) = .ok false := by
  have hu := hf.unused _ (Minter.mem_upcoming_iff.mpr ⟨i, hi, rfl⟩)
  refine inUse_eq_false_iff.mpr ⟨?_, hu⟩
  rw [h.consistent.containsUuid_eq_false_iff]
  intro x c hx he
  rcases h.sourced x c hx with hk | ⟨-, -, hm⟩
  · rw [he] at hk
    rw [hs.contains _ _ hk] at hu
    cases hu
  · exact hf.not_mem hi (he ▸ hm)

/-- A key that the run has not met gets an identifier, a minted one if the index does not know
it. -/
theorem identify_of_fresh (h : Identified index m r r.state.stats.minted) (hs : index.Sound)
    (hf : m.Fresh index n) (hk : r.state.cache.getByKey? key = none)
    (hi : index.uuidForKey key = .ok none → r.state.stats.minted < n) :
    ∃ uuid origin, (identify index r.state.cache key).run r.minter =
      (.ok (uuid, origin), m.advance (r.state.stats.count origin).minted) := by
  obtain ⟨known, hu⟩ := hs.uuidForKey_ok key
  rw [identify_run, hu, h.minter_eq]
  rcases known with _ | uuid
  · have hfree := h.inUse_of_fresh hs hf (hi hu)
    simp only [mintAttempts, mintUnused_succ, Minter.ids_advance, Minter.minted_advance, hfree,
      Minter.advance_advance]
    exact ⟨_, .minted, rfl⟩
  · simp only [h.containsUuid_eq_false hs hk hu]
    exact ⟨_, .reused, rfl⟩

/-- A visit that has a key is not refused. -/
theorem visit_of_fresh (h : Identified index m r r.state.stats.minted) (hs : index.Sound)
    (hf : m.Fresh index n) (hk : keyFor branch r.state v = .ok (key, scopes))
    (hi : index.uuidForKey key = .ok none → r.state.stats.minted < n)
    (hr : r.state.cache.get? v.component.ref = none) :
    ∃ s, (Resolution.visit index branch r.state v).run r.minter =
      (.ok s, m.advance s.stats.minted) := by
  have hkey := (keyFor_eq_ok_iff.mp hk).2.2
  obtain ⟨uuid, origin, hid⟩ := h.identify_of_fresh hs hf hkey hi
  have hput := h.consistent.put_eq_ok (c := ⟨v.component.ref, key, uuid⟩) hr hkey
    (identify_eq_ok hid).1
  exact ⟨_, visit_of_ok hk hid hput⟩

end Identified

theorem Identified.visit_eq_ok {w : Walk} {x : Except Error State} {m₁ : Minter}
    (h : Identified index m r r.state.stats.minted) (hs : index.Sound)
    (hf : m.Fresh index (min n report.size)) (hr : Reaches report index (start report m) r)
    (hw : r.walk.next report = (some (.ok v), w))
    (hk : keyFor report.branch r.state v = .ok (key, scopes))
    (hv : (Resolution.visit index report.branch r.state v).run r.minter = (x, m₁))
    (hn : m₁.minted ≤ m.minted + n) : ∃ s, x = .ok s ∧ m₁ = m.advance s.stats.minted := by
  obtain ⟨hfree, hlt⟩ := free_of_reaches hr hw
  obtain ⟨k, hm, hpos⟩ := visit_advance index report.branch r.state v r.minter
  rw [hv, h.minter_eq, Minter.advance_advance] at hm
  have hm : m₁.minted = m.minted + (r.state.stats.minted + k) := congrArg Minter.minted hm
  have hi : index.uuidForKey key = .ok none → r.state.stats.minted < min n report.size := by
    intro hu
    have := hpos key scopes hk hu
    omega
  obtain ⟨s, hs⟩ := h.visit_of_fresh hs hf hk hi hfree
  rw [hv] at hs
  cases hs
  exact ⟨s, rfl, rfl⟩

theorem identified_of_fresh (hs : index.Sound) (hf : m.Fresh index (min n report.size))
    (hr : Reaches report index (start report m) r) (hn : r.minter.minted ≤ m.minted + n) :
    Identified index m r r.state.stats.minted := by
  induction hr with
  | refl => exact identified_start
  | @tail r r' hr hstep ih =>
    obtain ⟨k, hk⟩ := exists_advance_of_step hstep
    have h := ih (by rw [hk, Minter.minted_advance] at hn; omega)
    obtain ⟨n', h'⟩ := h.step hstep
    cases hstep with
    | @visit v w s m₁ hw hv =>
      obtain ⟨key, scopes, _, _, _, hkey, -⟩ := Resolution.visit_eq_ok hv
      obtain ⟨s, ⟨⟩, rfl⟩ := h.visit_eq_ok hs hf hr hw hkey hv hn
      have he := congrArg Minter.minted h'.minter_eq
      simp only [Minter.minted_advance] at he
      cases Nat.add_left_cancel he
      exact h'

end Run

/-- The walk fails, or the next visit gets no key. -/
inductive Run.Faults (report : Report) (r : Run) (fault : ReportFault) : Prop where
  | walk {w : Walk} : r.walk.next report = (some (.error fault), w) → Faults report r fault
  | key {v : Visit} {w : Walk} : r.walk.next report = (some (.ok v), w) →
      keyFor report.branch r.state v = .error fault → Faults report r fault

theorem exists_advance_of_resolve (report : Report) (index : IdentityIndex) (m : Minter) :
    ∃ n, ((report.resolve index).run m).2 = m.advance n := by
  obtain ⟨r, hr, he⟩ := Run.exists_run report index m
  obtain ⟨k, hk⟩ := Run.exists_advance_of_reaches hr
  have hk : r.minter = m.advance k := hk
  generalize (report.resolve index).run m = out at he
  cases he with
  | done => exact ⟨k, hk⟩
  | failed => exact ⟨k, hk⟩
  | @refused v w e m' _ hv =>
    obtain ⟨l, hl, -⟩ := visit_advance index report.branch r.state v r.minter
    rw [hv, hk, Minter.advance_advance] at hl
    exact ⟨k + l, hl⟩

/-- How a resolution ends if as many identifiers are fresh as it takes, or as there are components.
Each identifier that it took is counted. -/
theorem exists_end_of_fresh (hs : index.Sound) (hf : m.Fresh index (min n report.size))
    (h : (report.resolve index).run m = (x, m.advance n)) :
    ∃ r, Run.Reaches report index (.start report m) r ∧
      Run.Identified index m r r.state.stats.minted ∧ r.state.stats.minted = n ∧
      ((r.walk.stack = [] ∧ x = .ok (r.resolution report)) ∨
        ∃ fault, x = .error (.malformedReport fault) ∧ r.Faults report fault) := by
  obtain ⟨r, hr, he⟩ := Run.exists_run report index m
  rw [h] at he
  generalize hm : m.advance n = m' at he
  -- The minter ends where the run left it, because only a visit that gets a key takes from it.
  have hend : r.minter = m' → Run.Identified index m r r.state.stats.minted ∧
      r.state.stats.minted = n := by
    rintro rfl
    have hid := Run.identified_of_fresh hs hf hr (by simp [← hm])
    exact ⟨hid, (Nat.add_left_cancel (congrArg Minter.minted (hm.trans hid.minter_eq))).symm⟩
  cases he with
  | done hw =>
    obtain ⟨hid, hn⟩ := hend rfl
    exact ⟨r, hr, hid, hn, .inl ⟨hw, rfl⟩⟩
  | failed hw =>
    obtain ⟨hid, hn⟩ := hend rfl
    exact ⟨r, hr, hid, hn, .inr ⟨_, rfl, .walk hw⟩⟩
  | @refused v w e m₁ hw hv =>
    rcases hkey : keyFor report.branch r.state v with fault | ⟨key, scopes⟩
    · rw [visit_run, hkey] at hv
      cases hv
      obtain ⟨hid, hn⟩ := hend rfl
      exact ⟨r, hr, hid, hn, .inr ⟨fault, rfl, .key hw hkey⟩⟩
    · obtain ⟨k, hk, -⟩ := visit_advance index report.branch r.state v r.minter
      rw [hv] at hk
      have hle := congrArg Minter.minted (hm.trans hk)
      simp only [Minter.minted_advance] at hle
      have hid := Run.identified_of_fresh hs hf hr (by omega)
      obtain ⟨s, ⟨⟩, -⟩ := hid.visit_eq_ok hs hf hr hw hkey hv (by simp [← hm])

end Resolution

end ComponentIdentity
