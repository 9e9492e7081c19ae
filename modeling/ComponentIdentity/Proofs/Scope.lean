import ComponentIdentity.Proofs.Lineage
import ComponentIdentity.Resolution

/-! # Scopes along a lineage

Of the scopes that a resolution has gone through, those that enclose a component
are the scopes of the modules above it. The innermost one carries the key of the
nearest module, so the derived key is the reference key.
-/

namespace ComponentIdentity

namespace Key

variable {branch : Option String} {r : Ref} {c : Component} {moduleKey key key' : String}

theorem bounded_eq_ok_iff :
    bounded r key = .ok key' ↔ key.utf8ByteSize ≤ maxKeyBytes ∧ key' = key := by
  unfold bounded
  split
  next h => simp only [reduceCtorEq, false_iff]; omega
  next h => simp only [Except.ok.injEq]; exact ⟨fun e => ⟨by omega, e.symm⟩, fun e => e.2.symm⟩

theorem ofModule_eq_ok_iff :
    ofModule branch c = .ok key ↔
      (∃ declared, c.key = some declared ∧ declared ≠ "") ∧
        c.moduleKey? branch = some key ∧ key.utf8ByteSize ≤ maxKeyBytes := by
  unfold ofModule
  split
  next hn =>
    simp only [reduceCtorEq, false_iff, not_and]
    rintro ⟨declared, hd⟩
    rw [Metadata.named_eq_some_iff.mpr hd] at hn
    cases hn
  next declared hd =>
    have hd := Metadata.named_eq_some_iff.mp hd
    have hk : c.moduleKey? branch = some (branched declared branch) := by
      cases branch <;> simp [Component.moduleKey?, hd.1, branched, join]
    rw [bounded_eq_ok_iff, hk, Option.some.injEq]
    constructor
    · rintro ⟨hl, rfl⟩; exact ⟨⟨declared, hd⟩, rfl, hl⟩
    · rintro ⟨-, rfl, hl⟩; exact ⟨hl, rfl⟩

theorem ofPath_eq_ok_iff :
    ofPath moduleKey c = .ok key ↔
      ∃ path, c.path = some path ∧ path ≠ "" ∧ key = moduleKey ++ ":" ++ path ∧
        key.utf8ByteSize ≤ maxKeyBytes := by
  unfold ofPath
  split
  next hn =>
    simp only [reduceCtorEq, false_iff, not_exists, not_and]
    intro path hp hne
    rw [Metadata.named_eq_some_iff.mpr ⟨hp, hne⟩] at hn
    cases hn
  next path hp =>
    obtain ⟨hp, hne⟩ := Metadata.named_eq_some_iff.mp hp
    rw [bounded_eq_ok_iff]
    constructor
    · rintro ⟨hl, rfl⟩; exact ⟨path, hp, hne, rfl, hl⟩
    · rintro ⟨path', hp', -, rfl, hl⟩
      cases hp.symm.trans hp'
      exact ⟨hl, rfl⟩

theorem bounded_eq_error {fault : ReportFault} (h : bounded r key = .error fault) :
    fault = .keyTooLong r := by
  unfold bounded at h
  split at h
  · cases h
    rfl
  · cases h

theorem ofModule_eq_error {fault : ReportFault} (h : ofModule branch c = .error fault) :
    fault = .noKey c.kind c.ref ∨ fault = .keyTooLong c.ref := by
  unfold ofModule at h
  split at h
  · cases h
    exact .inl rfl
  · exact .inr (bounded_eq_error h)

theorem ofPath_eq_error {fault : ReportFault} (h : ofPath moduleKey c = .error fault) :
    fault = .noPath c.kind c.ref ∨ fault = .keyTooLong c.ref := by
  unfold ofPath at h
  split at h
  · cases h
    exact .inl rfl
  · exact .inr (bounded_eq_error h)

end Key

namespace Scope

variable {branch : Option String} {above : List Component} {scopes scopes' : List Scope}
  {scope : Scope} {d d' : Nat} {v : Visit} {key : String}

theorem enclosing_cons_of_le (h : d ≤ scope.depth) :
    enclosing d (scope :: scopes) = enclosing d scopes := by
  simp [enclosing, h]

theorem enclosing_of_forall_lt (h : ∀ scope ∈ scopes, scope.depth < d) :
    enclosing d scopes = scopes := by
  cases scopes with
  | nil => rfl
  | cons scope scopes =>
    have := h scope (by simp)
    simp [enclosing, this]

theorem enclosing_enclosing (h : d ≤ d') :
    enclosing d (enclosing d' scopes) = enclosing d scopes := by
  induction scopes with
  | nil => rfl
  | cons scope scopes ih =>
    by_cases hs : d' ≤ scope.depth
    · rw [enclosing_cons_of_le hs, enclosing_cons_of_le (Nat.le_trans h hs), ih]
    · simp [enclosing, hs]

/-- The scopes of the modules among some components, the nearest first. -/
inductive Around (branch : Option String) : List Component → List Scope → Prop where
  | nil : Around branch [] []
  | module {above : List Component} {scopes : List Scope} {c : Component} {key : String} :
      Around branch above scopes → c.kind.isModule = true → c.moduleKey? branch = some key →
      Around branch (c :: above) (⟨above.length, key⟩ :: scopes)
  | path {above : List Component} {scopes : List Scope} {c : Component} :
      Around branch above scopes → c.kind.isModule = false → Around branch (c :: above) scopes

namespace Around

theorem depth_lt (h : Around branch above scopes) :
    ∀ scope ∈ scopes, scope.depth < above.length := by
  induction h with
  | nil => simp
  | module _ _ _ ih =>
    simp only [List.mem_cons, List.length_cons, forall_eq_or_imp]
    exact ⟨Nat.lt_succ_self _, fun scope hs => Nat.lt_succ_of_lt (ih scope hs)⟩
  | path _ _ ih => exact fun scope hs => Nat.lt_succ_of_lt (ih scope hs)

theorem nearest (h : Around branch above (scope :: scopes)) :
    ∃ c, above.find? (·.kind.isModule) = some c ∧ c.moduleKey? branch = some scope.key := by
  generalize hs : scope :: scopes = all at h
  induction h with
  | nil => simp at hs
  | @module above scopes c key _ hm hk _ =>
    cases hs
    exact ⟨c, by simp [hm], hk⟩
  | path _ hm ih =>
    obtain ⟨c, hf, hk⟩ := ih hs
    exact ⟨c, by simp [hm, hf], hk⟩

end Around

/-- The derived key is the reference key, and the scopes from the component on are those around
what is below it. Whoever climbs back finds the scopes as they were. -/
theorem keyOf_eq_ok (h : keyOf branch scopes v = .ok (key, scopes'))
    (ha : Around branch above (enclosing v.depth scopes)) (hd : v.depth = above.length) :
    v.component.referenceKey? branch above = some key ∧
      Around branch (v.component :: above) scopes' ∧
      ∀ d ≤ v.depth, enclosing d scopes' = enclosing d scopes := by
  unfold keyOf at h
  simp only at h
  split at h
  next hm =>
    obtain ⟨k, hk, h⟩ := Except.bind_eq_ok_iff.mp h
    cases h
    have hr := (Key.ofModule_eq_ok_iff.mp hk).2.1
    refine ⟨(Component.referenceKey?_of_isModule hm).trans hr, ?_, fun d hle => ?_⟩
    · rw [hd] at ha ⊢
      exact .module ha hm hr
    · rw [enclosing_cons_of_le hle, enclosing_enclosing hle]
  next hm =>
    have hm := Bool.eq_false_iff.mpr hm
    split at h
    · simp at h
    next scope rest he =>
      obtain ⟨k, hk, h⟩ := Except.bind_eq_ok_iff.mp h
      cases h
      obtain ⟨path, hp, -, rfl, -⟩ := Key.ofPath_eq_ok_iff.mp hk
      obtain ⟨nearest, hn, hnk⟩ := Around.nearest (he ▸ ha)
      exact ⟨Component.referenceKey?_of_nearest hm hn hnk hp, .path ha hm,
        fun d hle => enclosing_enclosing hle⟩

theorem ofModule_of_keyOf (h : keyOf branch scopes v = .ok (key, scopes'))
    (hm : v.component.kind.isModule = true) : Key.ofModule branch v.component = .ok key := by
  unfold keyOf at h
  simp only [hm, if_true] at h
  obtain ⟨k, hk, h⟩ := Except.bind_eq_ok_iff.mp h
  cases h
  exact hk

theorem keyOf_eq_error {fault : ReportFault} (h : keyOf branch scopes v = .error fault) :
    fault = .noKey v.component.kind v.component.ref ∨
      fault = .noPath v.component.kind v.component.ref ∨ fault = .keyTooLong v.component.ref ∨
      fault = .noModule v.component.ref ∧ v.component.kind.isModule = false ∧
        enclosing v.depth scopes = [] := by
  unfold keyOf at h
  simp only at h
  split at h
  next hm =>
    rcases Except.bind_eq_error_iff.mp h with hk | ⟨_, _, ⟨⟩⟩
    rcases Key.ofModule_eq_error hk with rfl | rfl
    · exact .inl rfl
    · exact .inr (.inr (.inl rfl))
  next hm =>
    split at h
    next he =>
      cases h
      exact .inr (.inr (.inr ⟨rfl, Bool.eq_false_iff.mpr hm, he⟩))
    next scope rest he =>
      rcases Except.bind_eq_error_iff.mp h with hk | ⟨_, _, ⟨⟩⟩
      rcases Key.ofPath_eq_error hk with rfl | rfl
      · exact .inr (.inl rfl)
      · exact .inr (.inr (.inl rfl))

theorem admissible_of_keyOf (h : keyOf branch scopes v = .ok (key, scopes'))
    (ha : Around branch above (enclosing v.depth scopes)) (hd : v.depth = above.length) :
    v.component.Admissible branch above := by
  obtain ⟨hr, -, -⟩ := keyOf_eq_ok h ha hd
  unfold keyOf at h
  simp only at h
  split at h
  next hm =>
    obtain ⟨k, hk, h⟩ := Except.bind_eq_ok_iff.mp h
    cases h
    obtain ⟨hn, -, hl⟩ := Key.ofModule_eq_ok_iff.mp hk
    refine ⟨fun _ => hn, fun hp => by simp [hm] at hp, fun key' hk' => ?_⟩
    cases hr.symm.trans hk'
    exact hl
  next hm =>
    split at h
    · simp at h
    next scope rest he =>
      obtain ⟨k, hk, h⟩ := Except.bind_eq_ok_iff.mp h
      cases h
      obtain ⟨path, hp, hne, -, hl⟩ := Key.ofPath_eq_ok_iff.mp hk
      refine ⟨fun hm' => absurd hm' hm, fun _ => ⟨path, hp, hne⟩, fun key' hk' => ?_⟩
      cases hr.symm.trans hk'
      exact hl

theorem Around.ne_nil (h : Around branch above scopes) (hm : ∃ c ∈ above, c.kind.isModule = true) :
    scopes ≠ [] := by
  induction h with
  | nil => simp at hm
  | module => exact List.cons_ne_nil _ _
  | path _ hp ih =>
    obtain ⟨c, hc, hm⟩ := hm
    rcases List.mem_cons.mp hc with rfl | hc
    · simp [hp] at hm
    · exact ih ⟨c, hc, hm⟩

/-- A component gets a key if it has what it needs and some module stands above it. -/
theorem exists_keyOf (h : v.component.Admissible branch above)
    (ha : Around branch above (enclosing v.depth scopes))
    (hm : v.component.kind.isModule = false → ∃ c ∈ above, c.kind.isModule = true) :
    ∃ key scopes', keyOf branch scopes v = .ok (key, scopes') := by
  unfold keyOf
  simp only
  split
  next hk =>
    obtain ⟨declared, hd, hne⟩ := h.key_named hk
    have hmk : v.component.moduleKey? branch = some (Key.branched declared branch) := by
      cases branch <;> simp [Component.moduleKey?, hd, Key.branched, Key.join]
    have hl := h.key_le _ ((Component.referenceKey?_of_isModule hk).trans hmk)
    rw [Key.ofModule_eq_ok_iff.mpr ⟨⟨declared, hd, hne⟩, hmk, hl⟩]
    exact ⟨_, _, rfl⟩
  next hk =>
    have hk := Bool.eq_false_iff.mpr hk
    obtain ⟨path, hp, hne⟩ := h.path_named hk
    obtain ⟨scope, rest, he⟩ := List.exists_cons_of_ne_nil (ha.ne_nil (hm hk))
    obtain ⟨nearest, hn, hnk⟩ := Around.nearest (he ▸ ha)
    have hl := h.key_le _ (Component.referenceKey?_of_nearest hk hn hnk hp)
    rw [he]
    simp only
    rw [Key.ofPath_eq_ok_iff.mpr ⟨path, hp, hne, rfl, hl⟩]
    exact ⟨_, _, rfl⟩

end Scope

end ComponentIdentity
