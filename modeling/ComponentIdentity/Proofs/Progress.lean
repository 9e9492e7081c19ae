import ComponentIdentity.Proofs.Identifiers

/-! # Resolutions item by item

A resolution goes through the items of the walk in order. Where it is behind the
first `k` of them a run of `k` steps is, and the walk has the others before it.
If it fails, it does so at one of the items.
-/

namespace ComponentIdentity

namespace Walk

variable {report : Report} {w w' : Walk} {fault : ReportFault} {v : Visit} {x : Item}
  {items : List Item} {k : Nat}

theorem exists_next_of_items_eq (h : w.items report = .ok v :: items) :
    ∃ w', w.next report = (some (.ok v), w') ∧ w'.items report = items := by
  rw [items_eq] at h
  split at h
  · cases h
  · cases h
  next hn =>
    cases h
    exact ⟨_, hn, rfl⟩

theorem getElem?_of_next (hw : w.items report = report.walk.drop k)
    (hn : w.next report = (some x, w')) : report.walk[k]? = some x := by
  rw [items_eq, hn] at hw
  rw [← List.head?_drop, ← hw]
  cases x <;> rfl

inductive Fault : ReportFault → Prop where
  | missingRoot (root : Ref) : Fault (.missingRoot root)
  | missingChild (parent child : Ref) : Fault (.missingChild parent child)
  | reachedTwice (r : Ref) : Fault (.reachedTwice r)

theorem fault_of_mem_items (h : .error fault ∈ w.items report) : Fault fault := by
  induction w using induction_next report with
  | h w ih =>
    rw [items_eq] at h
    split at h
    · cases h
    next hn =>
      cases List.mem_singleton.mp h
      obtain ⟨-, p, -, -, ⟨-, rfl⟩ | ⟨-, -, rfl⟩⟩ := next_eq_fault hn
      · unfold Pending.missing
        split
        · exact .missingRoot _
        · exact .missingChild _ _
      · exact .reachedTwice _
    next hn => exact ih _ _ hn ((List.mem_cons.mp h).resolve_left nofun)

end Walk

/-- The index has other ways to fail, or none. -/
structure IdentityIndex.Avoids (index : IdentityIndex) (e : Error) : Prop where
  uuidForKey_ne : ∀ key, index.uuidForKey key ≠ .error e
  containsUuid_ne : ∀ uuid, index.containsUuid uuid ≠ .error e

namespace Resolution

variable {report : Report} {index : IdentityIndex} {m m' : Minter} {k : Nat} {s s' : State}
  {v : Visit} {e : Error} {key : String}

/-- Why a key gets no identifier although the index does not fail. -/
inductive Unidentified (index : IdentityIndex) (cache : RefCache) (key : String) :
    Error → Prop where
  | identifierCollision : Unidentified index cache key (.identifierCollision key)
  | corruptIndex {uuid : String} : index.uuidForKey key = .ok (some uuid) →
      cache.containsUuid uuid = true → Unidentified index cache key (.corruptIndex key uuid)

theorem unidentified_of_avoids {cache : RefCache} (hi : index.Avoids e)
    (h : (identify index cache key).run m = (.error e, m')) : Unidentified index cache key e := by
  rcases identify_eq_error h with hu | ⟨uuid, hu, hc, rfl⟩ | ⟨-, rfl | ⟨uuid, hu⟩⟩
  · exact absurd hu (hi.uuidForKey_ne key)
  · exact .corruptIndex hu hc
  · exact .identifierCollision
  · exact absurd hu (hi.containsUuid_ne uuid)

/-- None of the first `k` items of the walk was refused; they left this state and this minter. -/
def Arrives (report : Report) (index : IdentityIndex) (m : Minter) (k : Nat) (s : State)
    (m' : Minter) : Prop :=
  ((report.walk.take k).foldlM (step index report.branch) {}).run m = (.ok s, m')

theorem arrives_succ_iff {x : Walk.Item} (hx : report.walk[k]? = some x) :
    Arrives report index m (k + 1) s' m' ↔ ∃ s m₁, Arrives report index m k s m₁ ∧
      (step index report.branch s x).run m₁ = (.ok s', m') := by
  unfold Arrives
  rw [List.take_add_one, hx, Option.toList_some, List.foldlM_append, Stateful.run_bind]
  rcases ((report.walk.take k).foldlM (step index report.branch) {}).run m with ⟨e | s, m₁⟩
  · constructor
    · rintro ⟨⟩
    · rintro ⟨_, _, ⟨⟩, -⟩
  · simp only [List.foldlM_cons, List.foldlM_nil, bind_pure]
    constructor
    · exact fun h => ⟨s, m₁, rfl, h⟩
    · rintro ⟨_, _, ⟨⟩, h⟩
      exact h

theorem Arrives.exists_reaches (h : Arrives report index m k s m') :
    ∃ w, Run.Reaches report index (.start report m) ⟨w, s, m'⟩ ∧
      w.items report = report.walk.drop k := by
  induction k generalizing s m' with
  | zero =>
    cases h
    exact ⟨_, .refl, rfl⟩
  | succ k ih =>
    rcases hx : report.walk[k]? with _ | x
    · have hlen := List.getElem?_eq_none_iff.mp hx
      rw [Arrives, List.take_of_length_le (Nat.le_succ_of_le hlen)] at h
      obtain ⟨w, hr, hw⟩ := ih (by rwa [Arrives, List.take_of_length_le hlen])
      refine ⟨w, hr, ?_⟩
      rw [hw, List.drop_eq_nil_of_le hlen, List.drop_eq_nil_of_le (Nat.le_succ_of_le hlen)]
    · obtain ⟨s₁, m₁, h₁, hs⟩ := (arrives_succ_iff hx).mp h
      obtain ⟨w, hr, hw⟩ := ih h₁
      obtain ⟨hlen, rfl⟩ := List.getElem?_eq_some_iff.mp hx
      rw [List.drop_eq_getElem_cons hlen] at hw
      cases hv : report.walk[k] with
      | error fault =>
        rw [hv] at hs
        cases hs
      | ok v =>
        rw [hv] at hs hw
        obtain ⟨w', hn, hw'⟩ := Walk.exists_next_of_items_eq hw
        exact ⟨w', hr.tail (.visit hn hs), hw'⟩

theorem exists_arrives {r : Run} (h : Run.Reaches report index (.start report m) r) :
    ∃ k, Arrives report index m k r.state r.minter ∧
      r.walk.items report = report.walk.drop k := by
  induction h with
  | refl => exact ⟨0, rfl, rfl⟩
  | tail _ hs ih =>
    obtain ⟨k, ha, hw⟩ := ih
    cases hs with
    | @visit v w s m₁ hn hv =>
      refine ⟨k + 1, (arrives_succ_iff (Walk.getElem?_of_next hw hn)).mpr ⟨_, _, ha, hv⟩, ?_⟩
      rw [Walk.items_eq, hn] at hw
      rw [← List.tail_drop, ← hw]
      rfl

theorem Arrives.exists_next (h : Arrives report index m k s m')
    (hv : report.walk[k]? = some (.ok v)) :
    ∃ w w', Run.Reaches report index (.start report m) ⟨w, s, m'⟩ ∧
      w.next report = (some (.ok v), w') := by
  obtain ⟨w, hr, hw⟩ := h.exists_reaches
  obtain ⟨hlen, he⟩ := List.getElem?_eq_some_iff.mp hv
  rw [List.drop_eq_getElem_cons hlen, he] at hw
  obtain ⟨w', hn, -⟩ := Walk.exists_next_of_items_eq hw
  exact ⟨w, w', hr, hn⟩

/-- A resolution that fails does so at an item of the walk. -/
theorem exists_refused_item (h : (report.resolve index).run m = (.error e, m')) :
    ∃ k s m₁ x, Arrives report index m k s m₁ ∧ report.walk[k]? = some x ∧
      (step index report.branch s x).run m₁ = (.error e, m') := by
  obtain ⟨r, hr, he⟩ := Run.exists_run report index m
  obtain ⟨k, ha, hw⟩ := exists_arrives hr
  rw [h] at he
  cases he with
  | failed hn => exact ⟨k, _, _, _, ha, Walk.getElem?_of_next hw hn, rfl⟩
  | refused hn hv => exact ⟨k, _, _, _, ha, Walk.getElem?_of_next hw hn, hv⟩

end Resolution

end ComponentIdentity
