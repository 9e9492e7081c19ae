import ComponentIdentity.Proofs.Fresh
import ComponentIdentity.Proofs.Publication
import ComponentIdentity.Proofs.Rounds
import ComponentIdentity.Proofs.Seeds

/-! # Sessions with deterministic identifiers

Each round makes its identifiers from a seed that ends in the size of the index,
and an index grows whenever something new is stored. So what is stored was made
from the seeds of smaller sizes. If names do not collide, no identifier that a
round makes is stored already, and none is made in vain.
-/

namespace ComponentIdentity

namespace Report

variable {report : Report} {tables : IdentityTables} {fresh : Minter}

def seededMinter (report : Report) (tables : IdentityTables) : Minter :=
  .seeded (report.seed tables.size)

def calls (report : Report) (tables : IdentityTables) : Nat :=
  ((report.resolve tables.toIndex).run (report.seededMinter tables)).2.minted

def seedSpace (report : Report) (size : Nat) : Uuid :=
  .nameBased .oid (Bytes.ofText (report.seed size))

def nameAt (report : Report) (size i : Nat) : Uuid × Bytes :=
  (report.seedSpace size, Bytes.ofNat64 (min i Minter.maxCounter))

/-- The namespaces and names from which a deterministic resolution makes identifiers: its seed, and
a number for each identifier that it takes. -/
def namesUsed (report : Report) (tables : IdentityTables) : List (Uuid × Bytes) :=
  (.oid, Bytes.ofText (report.seed tables.size)) ::
    (List.range (report.calls tables)).map (report.nameAt tables.size)

theorem nameAt_mem_namesUsed {i : Nat} (h : i < report.calls tables) :
    report.nameAt tables.size i ∈ report.namesUsed tables :=
  List.mem_cons_of_mem _ (List.mem_map_of_mem (List.mem_range.mpr h))

theorem upcoming_seededMinter {n : Nat} :
    (report.seededMinter tables).upcoming n =
      (List.range n).map fun i =>
        (Uuid.nameBased (report.nameAt tables.size i).1
          (report.nameAt tables.size i).2).toString := by
  refine List.map_congr_left fun i _ => ?_
  change (report.seededMinter tables).ids (0 + i) = _
  rw [Nat.zero_add]
  rfl

theorem nameAt_inj {size i j : Nat} (hi : i < maxComponents) (hj : j < maxComponents)
    (h : report.nameAt size i = report.nameAt size j) : i = j := by
  have hlt : ∀ n, min n Minter.maxCounter < UInt64.size := fun n => by
    simp only [Minter.maxCounter, UInt64.size]
    omega
  have hn := Bytes.ofNat64_inj (hlt i) (hlt j) (Prod.mk.inj h).2
  simp only [maxComponents] at hi hj
  simp only [Minter.maxCounter, UInt64.size] at hn
  omega

theorem resolveStored_eq :
    report.resolveStored true tables fresh =
      ((report.resolve tables.toIndex).run (report.seededMinter tables)).1 :=
  resolveOnce_eq

theorem run_seededMinter :
    (report.resolve tables.toIndex).run (report.seededMinter tables) =
      (report.resolveStored true tables fresh,
        (report.seededMinter tables).advance (report.calls tables)) := by
  obtain ⟨n, hn⟩ := Resolution.exists_advance_of_resolve report tables.toIndex
    (report.seededMinter tables)
  have hc : report.calls tables = n := by
    rw [calls, hn]
    exact Nat.zero_add n
  rw [resolveStored_eq, hc, ← hn]
  rfl

end Report

/-- Different names of the list make different identifiers. -/
def CollisionFree (names : List (Uuid × Bytes)) : Prop :=
  ∀ p ∈ names, ∀ q ∈ names, Uuid.nameBased p.1 p.2 = Uuid.nameBased q.1 q.2 → p = q

instance (names : List (Uuid × Bytes)) : Decidable (CollisionFree names) :=
  inferInstanceAs (Decidable (∀ p ∈ names, ∀ q ∈ names, _ → _))

namespace IdentityTables

variable {tables : IdentityTables} {report : Report} {names : List (Uuid × Bytes)}

def MadeBelow (names : List (Uuid × Bytes)) (n : Nat) (uuid : String) : Prop :=
  ∃ (report : Report) (size : Nat) (name : Bytes), size < n ∧
    (.oid, Bytes.ofText (report.seed size)) ∈ names ∧ (report.seedSpace size, name) ∈ names ∧
    uuid = (Uuid.nameBased (report.seedSpace size) name).toString

theorem MadeBelow.mono {n n' : Nat} {uuid : String} (h : MadeBelow names n uuid) (hn : n ≤ n') :
    MadeBelow names n' uuid := by
  obtain ⟨report, size, name, hs, h⟩ := h
  exact ⟨report, size, name, hs.trans_le hn, h⟩

/-- Every stored identifier was made from the seed of a smaller size. -/
def Seeded (names : List (Uuid × Bytes)) (tables : IdentityTables) : Prop :=
  ∀ key uuid, tables.uuidForKey key = some uuid → MadeBelow names tables.size uuid

theorem seeded_empty : Seeded names .empty := by
  intro key uuid hk
  simp [empty, uuidForKey] at hk

namespace Seeded

variable (hs : tables.Seeded names) (hi : tables.Inverse) (hn : CollisionFree names)
  (hu : report.namesUsed tables ⊆ names)
include hs hi hn hu

theorem containsUuid_eq_false {uuid : String}
    (h : uuid ∈ (report.seededMinter tables).upcoming (report.calls tables)) :
    tables.containsUuid uuid = false := by
  rw [Report.upcoming_seededMinter, List.mem_map] at h
  obtain ⟨i, hlt, rfl⟩ := h
  rw [← Bool.not_eq_true, hi.containsUuid_iff]
  rintro ⟨key, hk⟩
  obtain ⟨report', size, name, hsize, hseed, hname, he⟩ := hs key _ hk
  have hspace := hn _ (hu (Report.nameAt_mem_namesUsed (List.mem_range.mp hlt))) _ hname
    (Uuid.toString_inj he)
  have hsame := hn _ (hu List.mem_cons_self) _ hseed (Prod.mk.inj hspace).1
  have := Report.eq_of_seed_eq (Bytes.ofText_inj (Prod.mk.inj hsame).2)
  omega

theorem fresh : (report.seededMinter tables).Fresh tables.toIndex
    (min (report.calls tables) report.size) where
  nodup := by
    rw [Report.upcoming_seededMinter]
    refine List.Nodup.map_on ?_ List.nodup_range
    intro i hlt j hlt' he
    rw [List.mem_range] at hlt hlt'
    have hsize : report.size ≤ maxComponents := report.size_le
    have hname := hn _ (hu (Report.nameAt_mem_namesUsed (i := i) (by omega))) _
      (hu (Report.nameAt_mem_namesUsed (i := j) (by omega))) (Uuid.toString_inj he)
    exact Report.nameAt_inj (by omega) (by omega) hname
  unused uuid h := congrArg Except.ok
    (hs.containsUuid_eq_false hi hn hu (Minter.upcoming_subset (Nat.min_le_left _ _) h))

end Seeded

end IdentityTables

namespace Workspace

variable {w : Workspace} {path : Path} {index : OpenIndex} {report : Report}
  {reports : List Report} {names : List (Uuid × Bytes)}

def seededRound (w : Workspace) (report : Report) : Workspace :=
  match w.index with
  | none => w
  | some index =>
    match report.resolveStored true index.tables w.fresh with
    | .error _ => w
    | .ok res => (w.record index res.cache).2

def session (w : Workspace) (reports : List Report) : Workspace := reports.foldl seededRound w

def namesUsed : Workspace → List Report → List (Uuid × Bytes)
  | _, [] => []
  | w, report :: reports =>
    (w.index.elim [] fun index => report.namesUsed index.tables) ++
      (w.seededRound report).namesUsed reports

/-- A round against an open index: it is refused for its report only, takes as many identifiers as
it counts, none of which is stored, and can be recorded. -/
structure Settles (w : Workspace) (index : OpenIndex) (report : Report) : Prop where
  malformed_of_error : ∀ e, report.resolveStored true index.tables w.fresh = .error e →
    ∃ fault, e = .malformedReport fault
  calls_eq : ∀ res, report.resolveStored true index.tables w.fresh = .ok res →
    report.calls index.tables = res.stats.minted
  record_eq : ∀ res, report.resolveStored true index.tables w.fresh = .ok res →
    ∃ w', w.record index res.cache = (.ok res.stats.minted, w')
  unmet : ∀ uuid ∈ (report.seededMinter index.tables).upcoming (report.calls index.tables),
    index.tables.containsUuid uuid = false

/-- An open index whose identifiers were all made from seeds of smaller sizes. -/
structure SeededOpen (path : Path) (w : Workspace) (index : OpenIndex)
    (names : List (Uuid × Bytes)) : Prop where
  serves : Serves path w index
  isOpen : w.Open index
  seeded : index.tables.Seeded names

namespace SeededOpen

variable (h : SeededOpen path w index names) (hn : CollisionFree names)
  (hu : report.namesUsed index.tables ⊆ names)
include h hn hu

/-- The run behind a round, which took exactly the identifiers that it counts. -/
theorem exists_end : ∃ r, Resolution.Run.Identified index.tables.toIndex
      (report.seededMinter index.tables) r (report.calls index.tables) ∧
    r.state.stats.minted = report.calls index.tables ∧
    (report.resolveStored true index.tables w.fresh = .ok (r.resolution report) ∨
      ∃ fault, report.resolveStored true index.tables w.fresh =
        .error (.malformedReport fault)) := by
  obtain ⟨r, -, hid, hm, hend⟩ := Resolution.exists_end_of_fresh h.serves.inverse.sound
    (h.seeded.fresh h.serves.inverse hn hu) Report.run_seededMinter
  refine ⟨r, hm ▸ hid, hm, ?_⟩
  rcases hend with ⟨-, hx⟩ | ⟨fault, hx, -⟩
  · exact .inl hx
  · exact .inr ⟨fault, hx⟩

theorem settles : w.Settles index report := by
  obtain ⟨r, hid, hm, hx⟩ := h.exists_end hn hu
  refine ⟨?_, ?_, ?_, fun uuid => h.seeded.containsUuid_eq_false h.serves.inverse hn hu⟩
  · intro e he
    rcases hx with hx | ⟨fault, hx⟩
    · cases he.symm.trans hx
    · exact ⟨fault, Except.error.inj (he.symm.trans hx)⟩
  · intro res hres
    rcases hx with hx | ⟨fault, hx⟩
    · cases hres.symm.trans hx
      exact hm.symm
    · cases hres.symm.trans hx
  · intro res hres
    rw [Report.resolveStored_eq] at hres
    obtain ⟨w', index', hw, -⟩ := h.serves.record_resolution h.isOpen
      (q := ⟨report, report.seededMinter index.tables⟩) hres
    exact ⟨w', hw⟩

/-- A round that adds something adds identifiers made from its seed, and the next seeds end in a
larger size. -/
theorem seededRound : ∃ index', SeededOpen path (w.seededRound report) index' names := by
  obtain ⟨r, hid, hm, hx⟩ := h.exists_end hn hu
  rw [Workspace.seededRound, h.isOpen.index_eq]
  rcases hx with hx | ⟨fault, hx⟩
  · simp only [hx]
    rw [Report.resolveStored_eq] at hx
    obtain ⟨w', index', hw, ho, hs, hg, hnew⟩ := h.serves.record_resolution h.isOpen
      (q := ⟨report, report.seededMinter index.tables⟩) hx
    rw [hw]
    have hsize : index'.tables.size = index.tables.size + report.calls index.tables :=
      hg.size_eq.trans (congrArg _ hm)
    have hold : ∀ key uuid, index.tables.uuidForKey key = some uuid →
        IdentityTables.MadeBelow names index'.tables.size uuid :=
      fun key uuid hk => (h.seeded key uuid hk).mono (by omega)
    refine ⟨index', hs, ho, fun key uuid hk => ?_⟩
    rcases hnew key uuid hk with hk | ⟨x, c, hc, rfl, rfl⟩
    · exact hold key uuid hk
    · rcases IdentityTables.sourced_toIndex_iff.mp (hid.sourced x c hc) with hk | ⟨-, -, hmem⟩
      · exact hold _ _ hk
      · rw [Report.upcoming_seededMinter, List.mem_map] at hmem
        obtain ⟨i, hi, he⟩ := hmem
        have hi := List.mem_range.mp hi
        exact ⟨report, index.tables.size, _, by omega, hu List.mem_cons_self,
          hu (Report.nameAt_mem_namesUsed hi), he.symm⟩
  · simp only [hx]
    exact ⟨index, h⟩

end SeededOpen

theorem SeededOpen.session (h : SeededOpen path w index names) (hn : CollisionFree names)
    (hu : w.namesUsed reports ⊆ names) :
    ∃ index', SeededOpen path (w.session reports) index' names := by
  induction reports generalizing w index with
  | nil => exact ⟨index, h⟩
  | cons report reports ih =>
    simp only [namesUsed, h.isOpen.index_eq, Option.elim_some, List.append_subset] at hu
    obtain ⟨index', h'⟩ := h.seededRound hn hu.1
    exact ih h' hu.2

theorem namesUsed_append {reports' : List Report} :
    w.namesUsed (reports ++ reports') =
      w.namesUsed reports ++ (w.session reports).namesUsed reports' := by
  induction reports generalizing w with
  | nil => rfl
  | cons report reports ih =>
    rw [List.cons_append, namesUsed, ih, namesUsed, List.append_assoc]
    rfl

/-- In every session on a database that starts empty, if the names that it uses do not collide, no
round finds an identifier in use: it is refused for its report only, and otherwise takes and
records exactly as many identifiers as it counts. -/
theorem exists_settles (h : StartsEmpty path w) (before : List Report) (report : Report)
    (after : List Report)
    (hn : CollisionFree ((w.openIndex path).2.namesUsed (before ++ report :: after))) :
    ∃ index, ((w.openIndex path).2.session before).index = some index ∧
      ((w.openIndex path).2.session before).Settles index report := by
  obtain ⟨l, hs⟩ := h.exists_location
  obtain ⟨ho, hs⟩ := hs.opened
  have hstart : SeededOpen path (w.openIndex path).2 ⟨l, .empty⟩
      ((w.openIndex path).2.namesUsed (before ++ report :: after)) :=
    ⟨hs, ho, IdentityTables.seeded_empty⟩
  have hu : (w.openIndex path).2.namesUsed before ⊆
      (w.openIndex path).2.namesUsed (before ++ report :: after) := by
    rw [namesUsed_append]
    exact List.subset_append_left _ _
  obtain ⟨index, hend⟩ := hstart.session hn hu
  refine ⟨index, hend.isOpen.index_eq, hend.settles hn ?_⟩
  rw [namesUsed_append, namesUsed, hend.isOpen.index_eq]
  exact List.Subset.trans (List.subset_append_left _ _) (List.subset_append_right _ _)

def loneProject (key : String) : Report :=
  (Report.ofComponents { root := 1 } [.project 1 key]).toOption.getD (.empty { root := 1 })

/-- Two projects, the second one against the index that has the first. -/
theorem exists_settles_loneProject :
    StartsEmpty "index" bare ∧
      ((bare.openIndex "index").2.session [loneProject "P"]).index.map (·.tables.size) = some 1 ∧
      CollisionFree
        ((bare.openIndex "index").2.namesUsed ([loneProject "P"] ++ loneProject "Q" :: [])) ∧
      ∃ index, ((bare.openIndex "index").2.session [loneProject "P"]).index = some index ∧
        ((bare.openIndex "index").2.session [loneProject "P"]).Settles index (loneProject "Q") :=
  have hn : CollisionFree ((bare.openIndex "index").2.namesUsed
      ([loneProject "P"] ++ loneProject "Q" :: [])) := by decide +kernel
  ⟨startsEmpty_bare, by decide +kernel, hn,
    exists_settles startsEmpty_bare [loneProject "P"] (loneProject "Q") [] hn⟩

end Workspace

end ComponentIdentity
