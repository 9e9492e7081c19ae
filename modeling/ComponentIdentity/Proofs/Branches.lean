import ComponentIdentity.Proofs.History
import ComponentIdentity.Proofs.Keys

/-! # Keys on different branches

A key is the declared key of a module, the branch and a path, with colons between
them, and nothing in it tells a branch from a path. So two runs over the same
components on different branches share a key exactly if the pieces between the
colons of one name are those of another.
-/

namespace ComponentIdentity

namespace Key

variable {s t declared path : String} {branch : Option String}

def pieces (s : String) : List (List Char) := s.toList.splitOn ':'

def piecesOf : Option String → List (List Char)
  | none => []
  | some s => pieces s

/-- The key of a module, or of a path in it. -/
def compose (declared : String) (branch : Option String) : Option String → String
  | none => branched declared branch
  | some path => join (branched declared branch) path

theorem pieces_join : pieces (join s t) = pieces s ++ pieces t := by
  simp only [pieces, join, String.toList_append]
  exact (congrArg (List.splitOn ':') (List.append_assoc _ _ _)).trans
    (List.splitOn_append_cons_self _ _)

theorem pieces_branched :
    pieces (branched declared branch) = pieces declared ++ piecesOf branch := by
  cases branch with
  | none => exact (List.append_nil _).symm
  | some b => exact pieces_join

theorem pieces_compose {path : Option String} : pieces (compose declared branch path) =
    pieces declared ++ piecesOf branch ++ piecesOf path := by
  cases path with
  | none => rw [compose, pieces_branched, piecesOf, List.append_nil]
  | some path => rw [compose, pieces_join, pieces_branched, piecesOf]

theorem pieces_inj : pieces s = pieces t ↔ s = t := by
  refine ⟨fun h => String.toList_inj.mp ?_, congrArg pieces⟩
  have hs := congrArg (List.intercalate [':']) h
  simpa [pieces] using hs

theorem pieces_of_colon_not_mem (h : ':' ∉ s.toList) : pieces s = [s.toList] :=
  List.splitOn_eq_singleton h

theorem mem_pieces_compose {b : String} {path : Option String} (h : ':' ∉ b.toList) :
    b.toList ∈ pieces (compose declared (some b) path) := by
  simp [pieces_compose, piecesOf, pieces_of_colon_not_mem h]

theorem branched_inj {declared' b b' : String} {path path' : Option String}
    (hd : ':' ∉ declared.toList) (hd' : ':' ∉ declared'.toList) (hb : ':' ∉ b.toList)
    (hb' : ':' ∉ b'.toList)
    (h : compose declared (some b) path = compose declared' (some b') path') : b = b' := by
  rw [← pieces_inj, pieces_compose, pieces_compose, pieces_of_colon_not_mem hd,
    pieces_of_colon_not_mem hd', piecesOf, piecesOf, pieces_of_colon_not_mem hb,
    pieces_of_colon_not_mem hb'] at h
  exact String.toList_inj.mp (List.cons.inj (List.cons.inj h).2).1

theorem compose_none_eq_iff {declared' b : String} {path path' : Option String}
    (hd : ':' ∉ declared.toList) (hd' : ':' ∉ declared'.toList) :
    compose declared none path = compose declared' (some b) path' ↔
      declared = declared' ∧ path = some (compose b none path') := by
  rw [← pieces_inj, pieces_compose, pieces_compose, pieces_of_colon_not_mem hd,
    pieces_of_colon_not_mem hd', piecesOf, List.append_nil, List.append_assoc,
    List.singleton_append, List.singleton_append, List.cons.injEq, String.toList_inj]
  refine and_congr_right fun _ => ?_
  have hc : piecesOf (some b) ++ piecesOf path' = pieces (compose b none path') := by
    rw [pieces_compose, piecesOf, piecesOf, List.append_nil]
  rw [hc]
  cases path with
  | none =>
    simp only [piecesOf, reduceCtorEq, iff_false]
    exact fun he => List.splitOn_ne_nil _ _ he.symm
  | some path => rw [piecesOf, pieces_inj, Option.some.injEq]

end Key

namespace Component

variable {branch : Option String} {c : Component} {above : List Component}

/-- The declared key and the path, if any, that name a component which stands below the given
ones, on whatever branch. -/
def parts? (above : List Component) (c : Component) : Option (String × Option String) :=
  if c.kind.isModule then c.key.map fun key => (key, none)
  else do
    let nearest ← above.find? (·.kind.isModule)
    let key ← nearest.key
    let path ← c.path
    return (key, some path)

theorem moduleKey?_eq_map : c.moduleKey? branch = c.key.map fun key => Key.branched key branch := by
  cases branch <;> rfl

theorem referenceKey?_eq_map_parts? : c.referenceKey? branch above =
    (c.parts? above).map fun p => Key.compose p.1 branch p.2 := by
  unfold referenceKey? parts?
  simp only [moduleKey?_eq_map]
  split
  · rw [Option.map_map]
    rfl
  · cases above.find? (·.kind.isModule) with
    | none => rfl
    | some nearest =>
      rcases nearest with ⟨_, _, _ | key, _, _⟩ <;> rcases c with ⟨_, _, _, _ | path, _⟩ <;> rfl

end Component

namespace Report

variable {report : Report} {branch : Option String} {above : List Component} {r : Ref}
  {declared : String} {path : Option String}

def onBranch (report : Report) (branch : Option String) : Report :=
  { report with metadata := { report.metadata with branch } }

theorem branch_onBranch : (report.onBranch branch).branch = Metadata.named branch := rfl

theorem lineage_onBranch_iff :
    (report.onBranch branch).Lineage above r ↔ report.Lineage above r := by
  constructor <;> intro h
  · induction h with
    | root => exact .root
    | child _ hc hm ih => exact .child ih hc hm
  · induction h with
    | root => exact .root
    | child _ hc hm ih => exact .child ih hc hm

/-- A reachable component is named by a declared key and a path. -/
def Names (report : Report) (declared : String) (path : Option String) : Prop :=
  ∃ above r c, report.Lineage above r ∧ report.component? r = some c ∧
    c.parts? above = some (declared, path)

theorem names_onBranch_iff :
    (report.onBranch branch).Names declared path ↔ report.Names declared path := by
  simp only [Names, lineage_onBranch_iff]
  rfl

def PlainKeys (report : Report) : Prop :=
  ∀ declared path, report.Names declared path → ':' ∉ declared.toList

/-- The text is no piece of the branch, nor of what names a reachable component. -/
def Lacks (report : Report) (branch : Option String) (s : String) : Prop :=
  s.toList ∉ Key.piecesOf branch ∧ ∀ declared path, report.Names declared path →
    s.toList ∉ Key.pieces declared ∧ s.toList ∉ Key.piecesOf path

/-- A path is the name of the branch, or begins with it and goes on with another path of the same
declared key. -/
def Clashes (report : Report) (branch : String) : Prop :=
  ∃ declared path, report.Names declared path ∧
    report.Names declared (some (Key.compose branch none path))

end Report

namespace Resolution

variable {report : Report} {res res' again : Resolution} {index index' : IdentityIndex}
  {m m₁ m' m₁' : Minter} {branch branch' : Option String} {key : String}

def keys (res : Resolution) : List String := res.cache.toList.map (·.2.key)

theorem mem_keys_iff : key ∈ res.keys ↔ ∃ r c, res.cache.get? r = some c ∧ c.key = key := by
  simp [keys, RefCache.mem_toList_iff]

theorem IsComplete.mem_keys_iff (h : res.IsComplete report) : key ∈ res.keys ↔
    ∃ declared path, report.Names declared path ∧
      key = Key.compose declared report.branch path := by
  rw [Resolution.mem_keys_iff]
  constructor
  · rintro ⟨r, c, hr, rfl⟩
    obtain ⟨above, hl⟩ := Report.reachable_iff_exists_lineage.mp ((h.stored_iff r).mp ⟨c, hr⟩)
    obtain ⟨d, c', hd, hr', hk⟩ := h.key_eq above r hl
    cases hr.symm.trans hr'
    rw [Component.referenceKey?_eq_map_parts?, Option.map_eq_some_iff] at hk
    obtain ⟨⟨declared, path⟩, hp, hk⟩ := hk
    exact ⟨declared, path, ⟨above, r, d, hl, hd, hp⟩, hk.symm⟩
  · rintro ⟨declared, path, ⟨above, r, d, hl, hd, hp⟩, rfl⟩
    obtain ⟨d', c, hd', hr, hk⟩ := h.key_eq above r hl
    cases hd.symm.trans hd'
    rw [Component.referenceKey?_eq_map_parts?, hp, Option.map_some, Option.some.injEq] at hk
    exact ⟨r, c, hr, hk.symm⟩

theorem mem_keys_onBranch_iff
    (h : ((report.onBranch branch).resolve index).run m = (.ok res, m')) : key ∈ res.keys ↔
      ∃ declared path, report.Names declared path ∧
        key = Key.compose declared (Metadata.named branch) path := by
  obtain ⟨r, done, -, ht, rfl, -⟩ := exists_traced_of_resolve h
  rw [ht.isComplete.mem_keys_iff, Report.branch_onBranch]
  simp only [Report.names_onBranch_iff]

def SharesKey (res res' : Resolution) : Prop := ∃ key, key ∈ res.keys ∧ key ∈ res'.keys

theorem SharesKey.symm (h : res.SharesKey res') : res'.SharesKey res := by
  obtain ⟨key, hk, hk'⟩ := h
  exact ⟨key, hk', hk⟩

theorem sharesKey_comm : res.SharesKey res' ↔ res'.SharesKey res := ⟨.symm, .symm⟩

theorem knows_ofCache_iff (hc : res.cache.Consistent) :
    (MemoryIndex.ofCache res.cache).toIndex.knows key = true ↔ key ∈ res.keys := by
  rw [IdentityIndex.knows_iff, Resolution.mem_keys_iff]
  simp only [MemoryIndex.toIndex, Except.ok.injEq, MemoryIndex.uuidForKey_ofCache hc,
    RefCache.override_eq_some_iff hc, RefCache.mem_identities_iff, MemoryIndex.uuidForKey_empty,
    reduceCtorEq, and_false, or_false]
  constructor
  · rintro ⟨uuid, r, c, hr, hk, -⟩
    exact ⟨r, c, hr, hk⟩
  · rintro ⟨r, c, hr, hk⟩
    exact ⟨c.uuid, r, c, hr, hk, rfl⟩

theorem reused_eq_zero_iff (hc : res.cache.Consistent)
    (h : (report.resolve (MemoryIndex.ofCache res.cache).toIndex).run m = (.ok again, m')) :
    again.stats.reused = 0 ↔ ¬ res.SharesKey again := by
  obtain ⟨r, n, hid, rfl, -⟩ := exists_identified_of_resolve h
  rw [hid.isIdentified.reused_eq, countKnown, List.countP_eq_zero]
  constructor
  · rintro hnone ⟨key, hk, hk'⟩
    obtain ⟨r, c, hr, rfl⟩ := mem_keys_iff.mp hk'
    exact hnone _ (RefCache.mem_toList_iff.mpr hr) ((knows_ofCache_iff hc).mpr hk)
  · rintro hno ⟨r, c⟩ hm hk
    exact hno ⟨c.key, (knows_ofCache_iff hc).mp hk,
      mem_keys_iff.mpr ⟨r, c, RefCache.mem_toList_iff.mp hm, rfl⟩⟩

/-- Runs over one report share a key exactly if two of its names give the same text. -/
theorem sharesKey_iff_compose
    (h : ((report.onBranch branch).resolve index).run m = (.ok res, m₁))
    (h' : ((report.onBranch branch').resolve index').run m' = (.ok res', m₁')) :
    res.SharesKey res' ↔ ∃ d p d' p', report.Names d p ∧ report.Names d' p' ∧
      Key.compose d (Metadata.named branch) p = Key.compose d' (Metadata.named branch') p' := by
  simp only [SharesKey, mem_keys_onBranch_iff h, mem_keys_onBranch_iff h']
  constructor
  · rintro ⟨key, ⟨d, p, hn, rfl⟩, d', p', hn', he⟩
    exact ⟨d, p, d', p', hn, hn', he⟩
  · rintro ⟨d, p, d', p', hn, hn', he⟩
    exact ⟨_, ⟨d, p, hn, rfl⟩, d', p', hn', he⟩

theorem not_sharesKey_of_lacks {b : String} (hb : ':' ∉ b.toList)
    (h : ((report.onBranch branch).resolve index).run m = (.ok res, m₁))
    (h' : ((report.onBranch branch').resolve index').run m' = (.ok res', m₁'))
    (hbr : Metadata.named branch = some b) (hl : report.Lacks (Metadata.named branch') b) :
    ¬ res.SharesKey res' := by
  rw [sharesKey_iff_compose h h', hbr]
  rintro ⟨d, p, d', p', -, hn', he⟩
  obtain ⟨hd', hp'⟩ := hl.2 d' p' hn'
  have hm : b.toList ∈ Key.pieces (Key.compose d (some b) p) := Key.mem_pieces_compose hb
  rw [he, Key.pieces_compose] at hm
  simp only [List.mem_append, hd', hl.1, hp', or_self] at hm

theorem sharesKey_iff_clashes {b : String} (hplain : report.PlainKeys)
    (h : ((report.onBranch branch).resolve index).run m = (.ok res, m₁))
    (h' : ((report.onBranch branch').resolve index').run m' = (.ok res', m₁'))
    (hbr : Metadata.named branch = none) (hbr' : Metadata.named branch' = some b) :
    res.SharesKey res' ↔ report.Clashes b := by
  rw [sharesKey_iff_compose h h', hbr, hbr']
  constructor
  · rintro ⟨d, p, d', p', hn, hn', he⟩
    obtain ⟨rfl, rfl⟩ := (Key.compose_none_eq_iff (hplain _ _ hn) (hplain _ _ hn')).mp he
    exact ⟨d, p', hn', hn⟩
  · rintro ⟨d, p', hn', hn⟩
    exact ⟨d, _, d, p', hn, hn',
      (Key.compose_none_eq_iff (hplain _ _ hn) (hplain _ _ hn)).mpr ⟨rfl, rfl⟩⟩

theorem uuid_ne_of_not_sharesKey (hc : res.cache.Consistent)
    (h : (report.resolve (MemoryIndex.ofCache res.cache).toIndex).run m = (.ok again, m'))
    (hno : ¬ res.SharesKey again) {r r' : Ref} {c c' : ResolvedComponent}
    (hr : again.cache.get? r = some c) (hr' : res.cache.get? r' = some c') : c.uuid ≠ c'.uuid := by
  intro he
  obtain ⟨_, n, hid, rfl, -⟩ := exists_identified_of_resolve h
  have hk : (MemoryIndex.ofCache res.cache).toIndex.knows c.key = false := by
    rw [Bool.eq_false_iff, ne_eq, knows_ofCache_iff hc]
    exact fun hk => hno ⟨c.key, hk, mem_keys_iff.mpr ⟨r, c, hr, rfl⟩⟩
  have hfaithful : (MemoryIndex.ofCache res.cache).Faithful :=
    MemoryIndex.faithful_empty.update .replace
  have hin := (hfaithful c'.uuid).mpr ⟨c'.key, by
    rw [MemoryIndex.uuidForKey_ofCache hc]
    exact RefCache.override_of_get? hc hr'⟩
  have hout := Except.ok.inj (hid.isIdentified.minted r c hr hk).2
  rw [he, hin] at hout
  cases hout

/-- Two runs over the same components on different branches. They share a key exactly if the pieces
of two names come to the same, and exactly then a run against what the first one left reuses
something. They share none if one of the branches is a piece of nothing else. If neither declared
keys nor branches have a colon, they share one only where a path begins as a branch does. -/
structure Compared (report : Report) (branch branch' : Option String) (res res' : Resolution) :
    Prop where
  shares_iff : res.SharesKey res' ↔ ∃ d p d' p', report.Names d p ∧ report.Names d' p' ∧
    Key.pieces d ++ Key.piecesOf (Metadata.named branch) ++ Key.piecesOf p =
      Key.pieces d' ++ Key.piecesOf (Metadata.named branch') ++ Key.piecesOf p'
  reused_iff : ∀ m again m',
    ((report.onBranch branch').resolve (MemoryIndex.ofCache res.cache).toIndex).run m =
      (.ok again, m') →
    (again.stats.reused = 0 ↔ ¬ res.SharesKey res') ∧
      (¬ res.SharesKey res' → ∀ r c r' c', again.cache.get? r = some c →
        res.cache.get? r' = some c' → c.uuid ≠ c'.uuid)
  apart : ∀ b, ':' ∉ b.toList →
    (Metadata.named branch = some b ∧ report.Lacks (Metadata.named branch') b ∨
      Metadata.named branch' = some b ∧ report.Lacks (Metadata.named branch) b) →
    ¬ res.SharesKey res'
  branched : report.PlainKeys → ∀ b b', Metadata.named branch = some b →
    Metadata.named branch' = some b' → ':' ∉ b.toList → ':' ∉ b'.toList → ¬ res.SharesKey res'
  unbranched : report.PlainKeys → ∀ b,
    (Metadata.named branch = none ∧ Metadata.named branch' = some b ∨
      Metadata.named branch = some b ∧ Metadata.named branch' = none) →
    (res.SharesKey res' ↔ report.Clashes b)

theorem compared_of_resolve (hne : Metadata.named branch ≠ Metadata.named branch')
    (h : ((report.onBranch branch).resolve index).run m = (.ok res, m₁))
    (h' : ((report.onBranch branch').resolve index').run m' = (.ok res', m₁')) :
    Compared report branch branch' res res' where
  shares_iff := by
    rw [sharesKey_iff_compose h h']
    simp only [← Key.pieces_compose, Key.pieces_inj]
  reused_iff m₂ again m₂' hagain := by
    obtain ⟨r, n, hid, rfl, -⟩ := exists_identified_of_resolve h
    have hshare : SharesKey _ again ↔ SharesKey _ res' :=
      (sharesKey_iff_compose h hagain).trans (sharesKey_iff_compose h h').symm
    rw [← hshare]
    exact ⟨reused_eq_zero_iff hid.consistent hagain, fun hno r c r' c' =>
      uuid_ne_of_not_sharesKey hid.consistent hagain hno⟩
  apart b hb := by
    rintro (⟨hbr, hl⟩ | ⟨hbr, hl⟩)
    · exact not_sharesKey_of_lacks hb h h' hbr hl
    · rw [sharesKey_comm]
      exact not_sharesKey_of_lacks hb h' h hbr hl
  branched hplain b b' hbr hbr' hb hb' := by
    rw [sharesKey_iff_compose h h', hbr, hbr']
    rintro ⟨d, p, d', p', hn, hn', he⟩
    obtain rfl := Key.branched_inj (hplain _ _ hn) (hplain _ _ hn') hb hb' he
    exact hne (hbr.trans hbr'.symm)
  unbranched hplain b := by
    rintro (⟨hbr, hbr'⟩ | ⟨hbr, hbr'⟩)
    · exact sharesKey_iff_clashes hplain h h' hbr hbr'
    · rw [sharesKey_comm]
      exact sharesKey_iff_clashes hplain h' h hbr' hbr

theorem compared_mixedReport : ∃ res m₁ res' m₁',
    ((mixedReport.onBranch none).resolve MemoryIndex.empty.toIndex).run
      (.ofList ["p", "q", "r", "s", "t"]) = (.ok res, m₁) ∧
    ((mixedReport.onBranch (some "dev")).resolve MemoryIndex.empty.toIndex).run
      (.ofList ["u", "v", "w", "x", "y"]) = (.ok res', m₁') ∧
    res.keys = ["P", "P:a", "M", "M:b", "P:c"] ∧
    res'.keys = ["P:dev", "P:dev:a", "M:dev", "M:dev:b", "P:dev:c"] ∧
    Compared mixedReport none (some "dev") res res' := by
  have hkeys : ((((mixedReport.onBranch none).resolve MemoryIndex.empty.toIndex).run
      (.ofList ["p", "q", "r", "s", "t"])).1.toOption.map keys =
        some ["P", "P:a", "M", "M:b", "P:c"]) := by decide +kernel
  have hkeys' : ((((mixedReport.onBranch (some "dev")).resolve MemoryIndex.empty.toIndex).run
      (.ofList ["u", "v", "w", "x", "y"])).1.toOption.map keys =
        some ["P:dev", "P:dev:a", "M:dev", "M:dev:b", "P:dev:c"]) := by decide +kernel
  obtain ⟨res, m₁, h, hkeys⟩ := Except.exists_of_toOption_map hkeys
  obtain ⟨res', m₁', h', hkeys'⟩ := Except.exists_of_toOption_map hkeys'
  exact ⟨res, m₁, res', m₁', h, h', hkeys, hkeys', compared_of_resolve (by decide) h h'⟩

/-- A project with a directory that is called as a branch. -/
def namesakeReport : Report :=
  (Report.ofComponents { root := 1 }
    [.withChildren (.project 1 "P") [2], .directory 2 "dev"]).toOption.getD (.empty { root := 1 })

theorem exists_reused_namesakeReport : ∃ res m₁ res' m₁',
    ((namesakeReport.onBranch none).resolve MemoryIndex.empty.toIndex).run (.ofList ["a", "b"]) =
      (.ok res, m₁) ∧
    ((namesakeReport.onBranch (some "dev")).resolve (MemoryIndex.ofCache res.cache).toIndex).run
      (.ofList ["c", "d"]) = (.ok res', m₁') ∧
    res.cache.identities = [("P", "a"), ("P:dev", "b")] ∧
    res'.cache.identities = [("P:dev", "b"), ("P:dev:dev", "c")] ∧ res'.stats.reused = 1 := by
  have hfirst : (((namesakeReport.onBranch none).resolve MemoryIndex.empty.toIndex).run
      (.ofList ["a", "b"])).1.toOption.map (fun res => (res.cache.identities,
        (((namesakeReport.onBranch (some "dev")).resolve
          (MemoryIndex.ofCache res.cache).toIndex).run (.ofList ["c", "d"])).1.toOption.map
            fun res' => (res'.cache.identities, res'.stats.reused))) =
      some ([("P", "a"), ("P:dev", "b")], some ([("P:dev", "b"), ("P:dev:dev", "c")], 1)) := by
    decide +kernel
  obtain ⟨res, m₁, h, hpair⟩ := Except.exists_of_toOption_map hfirst
  obtain ⟨hids, hsecond⟩ := Prod.mk.inj hpair
  obtain ⟨res', m₁', h', hpair'⟩ := Except.exists_of_toOption_map hsecond
  obtain ⟨hids', hreused⟩ := Prod.mk.inj hpair'
  exact ⟨res, m₁, res', m₁', h, h', hids, hids', hreused⟩

end Resolution

end ComponentIdentity
