import Mathlib.Tactic.SplitIfs
import ComponentIdentity.Proofs.Paths
import ComponentIdentity.Proofs.Tables
import ComponentIdentity.Workspace

/-! # Databases that are opened, recorded into and closed

The tables of an open index are inverse to each other and equal to those of the
database, after any calls on a database that starts empty. So whoever closes and
reopens it finds the same identities. They are listed in the order of the bytes of
their keys, which is the order of the keys as texts.
-/

namespace ComponentIdentity

namespace Bytes

theorem ofNat_lt_ofNat {a b : Nat} (ha : a < 256) (hb : b < 256) :
    UInt8.ofNat a < UInt8.ofNat b ↔ a < b := by
  rw [UInt8.lt_iff_toNat_lt, UInt8.toNat_ofNat_of_lt' ha, UInt8.toNat_ofNat_of_lt' hb]

theorem ofNat_inj {a b : Nat} (ha : a < 256) (hb : b < 256) :
    UInt8.ofNat a = UInt8.ofNat b ↔ a = b := by
  rw [← UInt8.toNat_inj, UInt8.toNat_ofNat_of_lt' ha, UInt8.toNat_ofNat_of_lt' hb]

theorem append_lt_append {l k : Bytes} (h : l < k) (hp : ¬ l <+: k) (x y : Bytes) :
    l ++ x < k ++ y := by
  induction l generalizing k with
  | nil => exact absurd (List.nil_prefix) hp
  | cons a l ih =>
    cases k with
    | nil => exact absurd h (List.not_lt_nil _)
    | cons b k =>
      rw [List.cons_append, List.cons_append, List.cons_lt_cons_iff]
      rcases List.cons_lt_cons_iff.mp h with hab | ⟨rfl, hlk⟩
      · exact .inl hab
      · exact .inr ⟨rfl, ih hlk fun hpre => hp (List.cons_prefix_cons.mpr ⟨rfl, hpre⟩)⟩

theorem div_digits {n : Nat} (h : n < 0x110000) :
    n / 64 / 64 = n / 4096 ∧ n / 4096 / 64 = n / 262144 ∧ n / 262144 % 8 = n / 262144 := by
  omega

/-- Of two characters the smaller one is decided by the first byte in which they differ. -/
theorem utf8EncodeChar_lt {a b : Char} (h : a < b) :
    String.utf8EncodeChar a < String.utf8EncodeChar b ∧
      ¬ String.utf8EncodeChar a <+: String.utf8EncodeChar b := by
  have hlt : a.val.toNat < b.val.toNat := h
  have hb : b.val.toNat < 0x110000 := by
    rcases b.valid with hb | hb
    · exact Nat.lt_trans hb (by decide)
    · exact hb.2
  obtain ⟨ha₁, ha₂, ha₃⟩ := div_digits (Nat.lt_trans hlt hb)
  obtain ⟨hb₁, hb₂, hb₃⟩ := div_digits hb
  have h₁ : a.val.toNat / 64 ≤ b.val.toNat / 64 := Nat.div_le_div_right (Nat.le_of_lt hlt)
  have h₂ : a.val.toNat / 4096 ≤ b.val.toNat / 4096 := Nat.div_le_div_right (Nat.le_of_lt hlt)
  have h₃ : a.val.toNat / 262144 ≤ b.val.toNat / 262144 := Nat.div_le_div_right (Nat.le_of_lt hlt)
  unfold String.utf8EncodeChar
  simp only
  split_ifs <;>
    simp (disch := omega) only [List.cons_lt_cons_iff, List.cons_prefix_cons, ofNat_lt_ofNat,
      ofNat_inj, List.not_lt_nil, List.nil_prefix, and_true, and_false, or_false] <;>
    omega

theorem flatMap_utf8EncodeChar_lt {l k : List Char} (h : l < k) :
    l.flatMap String.utf8EncodeChar < k.flatMap String.utf8EncodeChar := by
  induction h with
  | @nil c _ =>
    obtain ⟨b, rest, hc⟩ := List.exists_cons_of_ne_nil (String.utf8EncodeChar_ne_nil (c := c))
    rw [List.flatMap_nil, List.flatMap_cons, hc]
    exact List.nil_lt_cons _ _
  | cons _ ih =>
    rw [List.flatMap_cons, List.flatMap_cons]
    exact List.append_left_lt ih
  | rel hab =>
    obtain ⟨hlt, hp⟩ := utf8EncodeChar_lt hab
    rw [List.flatMap_cons, List.flatMap_cons]
    exact append_lt_append hlt hp _ _

theorem ofText_lt_ofText {s t : String} (h : s < t) : ofText s < ofText t := by
  rw [ofText_eq_flatMap, ofText_eq_flatMap]
  exact flatMap_utf8EncodeChar_lt h

end Bytes

namespace Files

variable {files files' : Files} {l : Location} {path : Path} {index : OpenIndex}
  {cache : RefCache} {tables : IdentityTables} {create : Bool}

theorem tablesAt_eq_ok_iff :
    files.tablesAt l create = .ok tables ↔
      l ∉ files.inUse ∧
        (files.node? l = some (.database tables) ∨
          create = true ∧ tables = .empty ∧
            (files.node? l = none ∨ files.node? l = some (.file []))) := by
  unfold tablesAt
  split
  next hl => simp [hl, storage]
  next hl =>
    rw [and_iff_right hl]
    split <;> rename_i hn
    · simp [hn, storage]
    · cases create <;> simp [hn, storage, eq_comm]
    · cases create <;> simp [hn, storage, eq_comm]
    · simp_all [storage]
    · simp [hn]

theorem openIndex_eq_ok_iff :
    files.openIndex path = .ok (index, files') ↔
      files.target path = .ok index.location ∧
        files.tablesAt index.location true = .ok index.tables ∧
        files' = files.put index.location (.database index.tables) := by
  unfold openIndex
  cases files.target path with
  | error fault => simp [Except.mapError, bind, Except.bind]
  | ok l =>
    simp only [Except.mapError, Except.bind_eq_ok_iff]
    constructor
    · rintro ⟨_, ⟨⟩, tables, ht, ⟨⟩⟩
      exact ⟨rfl, ht, rfl⟩
    · rintro ⟨⟨⟩, ht, rfl⟩
      exact ⟨_, rfl, _, ht, rfl⟩

theorem openExistingIndex_eq_ok_iff (hl : files.target path = .ok l) :
    files.openExistingIndex path = .ok index ↔
      index.location = l ∧ files.tablesAt l false = .ok index.tables := by
  have hnone : (∀ node, files.lookup path ≠ .ok (l, node)) →
      files.tablesAt l false ≠ .ok index.tables := by
    intro hn ht
    rcases (tablesAt_eq_ok_iff.mp ht).2 with hd | ⟨⟨⟩, -⟩
    exact hn _ ((lookup_eq_ok_iff hl).mpr ⟨rfl, hd⟩)
  unfold openExistingIndex
  split
  next fault h =>
    have hf := hnone fun node hn => by rw [h] at hn; cases hn
    simp [hf]
  next l' h =>
    exact absurd ((lookup_eq_ok_iff hl).mp h).2 (node?_target_ne_directory hl)
  next l' node hd h =>
    obtain ⟨rfl, -⟩ := (lookup_eq_ok_iff hl).mp h
    simp only [Except.bind_eq_ok_iff]
    constructor
    · rintro ⟨tables, ht, ⟨⟩⟩
      exact ⟨rfl, ht⟩
    · rintro ⟨rfl, ht⟩
      exact ⟨_, ht, rfl⟩

theorem record_eq_ok (hl : index.location ≠ [])
    (hn : files.node? index.location = some (.database index.tables))
    {changes : List IdentityChange} (hc : index.tables.changes cache = .ok changes) :
    ∃ files', files.record index cache =
        .ok ({ index with tables := index.tables.apply changes }, changes.length, files') ∧
      Extends files files' ∧ files'.inUse = files.inUse ∧
      files'.node? index.location = some (.database (index.tables.apply changes)) := by
  have hr : files.record index cache =
      .ok ({ index with tables := index.tables.apply changes }, changes.length,
        if changes.isEmpty then files else files.commit index.location changes) := by
    rw [record, hc]
    rfl
  refine ⟨_, hr, ?_⟩
  cases changes with
  | nil => exact ⟨.refl, rfl, hn⟩
  | cons change changes =>
    have hp : files.commit index.location (change :: changes) =
        files.put index.location (.database (index.tables.apply (change :: changes))) := by
      rw [commit, hn]
    rw [List.isEmpty_cons, if_neg Bool.false_ne_true, hp]
    refine ⟨extends_put hl (by simp [hn]), rfl, ?_⟩
    rw [node?_put hl, if_pos rfl]

end Files

namespace IdentityTables

variable {tables : IdentityTables} {cache : RefCache} {changes : List IdentityChange}

/-- Two keys never share an identifier, the reverse questions agree with the entries, and the
entries have every stored key once, in the order of its bytes. -/
structure Exact (tables : IdentityTables) : Prop where
  inverse : tables.Inverse
  eq_of_uuid_eq : ∀ key key' uuid : String, tables.uuidForKey key = some uuid →
    tables.uuidForKey key' = some uuid → key = key'
  containsUuid_iff : ∀ uuid, tables.containsUuid uuid = true ↔
    ∃ key, tables.uuidForKey key = some uuid
  mem_entries_iff : ∀ key uuid, (key, uuid) ∈ tables.entries ↔ tables.uuidForKey key = some uuid
  length_entries : tables.entries.length = tables.size
  ascending : tables.entries.Pairwise fun p q => Bytes.ofText p.1 < Bytes.ofText q.1

theorem Inverse.exact (h : tables.Inverse) : tables.Exact where
  inverse := h
  eq_of_uuid_eq _ _ _ := h.eq_of_uuid_eq
  containsUuid_iff _ := h.containsUuid_iff
  mem_entries_iff _ _ := Std.ExtTreeMap.mem_toList_iff_getElem?_eq_some
  length_entries := Std.ExtTreeMap.length_toList
  ascending := by
    refine tables.uuidsByKey.ordered_keys_toList.imp fun hlt => ?_
    exact Bytes.ofText_lt_ofText (compareOfLessAndEq_eq_lt.mp hlt)

theorem Inverse.apply (hi : tables.Inverse) (hc : cache.Consistent)
    (h : tables.changes cache = .ok changes) : (tables.apply changes).Inverse :=
  (fits_of_changes hi hc h).inverse_apply hi

end IdentityTables

namespace Workspace

variable {w : Workspace} {path : Path} {index : OpenIndex}

/-- What a program does with one database. A transaction commits all its writes or none. -/
inductive Call where
  | openIndex
  | openExistingIndex
  | close
  | record (puts : List (Ref × ResolvedComponent)) (commits : Bool)

def call (path : Path) (w : Workspace) : Call → Workspace
  | .openIndex =>
    match w.files.openIndex path with
    | .error _ => w
    | .ok (index, files) => w.keep index files
  | .openExistingIndex =>
    match w.files.openExistingIndex path with
    | .error _ => w
    | .ok index => w.keep index w.files
  | .close => w.close
  | .record puts commits =>
    match w.index with
    | none => w
    | some index => if commits then (w.record index (RefCache.ofPuts puts)).2 else w

def run (path : Path) (w : Workspace) (calls : List Call) : Workspace := calls.foldl (call path) w

/-- No index is open, and opening the database gives one without entries. -/
def StartsEmpty (path : Path) (w : Workspace) : Prop :=
  w.index = none ∧ ∃ l files, w.files.openIndex path = .ok (⟨l, .empty⟩, files)

structure Open (w : Workspace) (index : OpenIndex) : Prop where
  index_eq : w.index = some index
  inUse : index.location ∈ w.files.inUse
  node?_eq : w.files.node? index.location = some (.database index.tables)

/-- No index is open, and opening the database gives this one. -/
structure Closed (w : Workspace) (index : OpenIndex) : Prop where
  index_eq : w.index = none
  tablesAt_eq : w.files.tablesAt index.location true = .ok index.tables

/-- The path leads to the index, open or closed, and its tables are inverse to each other. -/
structure Serves (path : Path) (w : Workspace) (index : OpenIndex) : Prop where
  target_eq : w.files.target path = .ok index.location
  inverse : index.tables.Inverse
  open_or_closed : w.Open index ∨ w.Closed index

theorem StartsEmpty.exists_location (h : StartsEmpty path w) :
    ∃ l, Serves path w ⟨l, .empty⟩ := by
  obtain ⟨hi, l, files, ho⟩ := h
  obtain ⟨ht, hl, -⟩ := Files.openIndex_eq_ok_iff.mp ho
  exact ⟨l, ht, IdentityTables.inverse_empty, .inr ⟨hi, hl⟩⟩

theorem StartsEmpty.serves (h : StartsEmpty path w) : ∃ index, Serves path w index := by
  obtain ⟨l, hs⟩ := h.exists_location
  exact ⟨_, hs⟩

theorem Serves.closed_close (h : Serves path w index) : w.close.Closed index := by
  rcases h.open_or_closed with ho | hc
  · have he : w.close = { w with files := w.files.release index.location, index := none } := by
      rw [close, ho.index_eq]
    rw [he]
    exact ⟨rfl, Files.tablesAt_eq_ok_iff.mpr ⟨by simp [Files.release], .inl ho.node?_eq⟩⟩
  · have he : w.close = w := by
      rw [close, hc.index_eq]
    rw [he]
    exact hc

theorem Serves.close (h : Serves path w index) : Serves path w.close index := by
  refine ⟨?_, h.inverse, .inr h.closed_close⟩
  unfold Workspace.close
  split
  · exact h.target_eq
  next index' _ =>
    exact Files.extends_release.target h.target_eq (Files.node?_target_ne_directory h.target_eq)

theorem Open.of_keep {files : Files} (hn : files.node? index.location =
    some (.database index.tables)) : (w.keep index files).Open index where
  index_eq := rfl
  inUse := by simp [keep, Files.hold]
  node?_eq := hn

theorem Serves.keep {files : Files} (h : Serves path w index)
    (hf : Files.Extends w.files files)
    (hn : files.node? index.location = some (.database index.tables)) :
    Serves path (w.keep index files) index where
  target_eq := by
    have hd : files.node? index.location ≠ some .directory := by simp [hn]
    exact Files.extends_hold.target (hf.target h.target_eq hd) hd
  inverse := h.inverse
  open_or_closed := .inl (.of_keep hn)

theorem Serves.keep_put (h : Serves path w index) :
    (w.keep index (w.files.put index.location (.database index.tables))).Open index ∧
      Serves path (w.keep index (w.files.put index.location (.database index.tables))) index := by
  have hl := Files.target_ne_nil h.target_eq
  have hd := Files.node?_target_ne_directory h.target_eq
  have hn : (w.files.put index.location (.database index.tables)).node? index.location =
      some (.database index.tables) := by
    rw [Files.node?_put hl, if_pos rfl]
  exact ⟨.of_keep hn, h.keep (Files.extends_put hl hd) hn⟩

theorem Serves.eq_of_tablesAt (h : Serves path w index) {tables : IdentityTables}
    (ht : w.files.tablesAt index.location true = .ok tables) :
    w.Closed index ∧ tables = index.tables := by
  rcases h.open_or_closed with ho | hc
  · exact absurd ho.inUse (Files.tablesAt_eq_ok_iff.mp ht).1
  · exact ⟨hc, Except.ok.inj (ht.symm.trans hc.tablesAt_eq)⟩

theorem Serves.openIndex_eq_ok_iff (h : Serves path w index) {index' : OpenIndex} {files : Files} :
    w.files.openIndex path = .ok (index', files) ↔
      w.Closed index ∧ index' = index ∧
        files = w.files.put index.location (.database index.tables) := by
  rw [Files.openIndex_eq_ok_iff]
  constructor
  · rintro ⟨hl, ht, rfl⟩
    rw [h.target_eq, Except.ok.injEq] at hl
    rw [← hl] at ht
    obtain ⟨hc, he⟩ := h.eq_of_tablesAt ht
    obtain ⟨l', tables'⟩ := index'
    cases hl
    cases he
    exact ⟨hc, rfl, rfl⟩
  · rintro ⟨hc, rfl, rfl⟩
    exact ⟨h.target_eq, hc.tablesAt_eq, rfl⟩

theorem Serves.openExistingIndex_eq_ok_iff (h : Serves path w index) {index' : OpenIndex} :
    w.files.openExistingIndex path = .ok index' ↔
      w.Closed index ∧ index' = index ∧
        w.files.node? index.location = some (.database index.tables) := by
  rw [Files.openExistingIndex_eq_ok_iff h.target_eq]
  constructor
  · rintro ⟨hl, ht⟩
    obtain ⟨hi, hn | ⟨⟨⟩, -⟩⟩ := Files.tablesAt_eq_ok_iff.mp ht
    obtain ⟨hc, he⟩ := h.eq_of_tablesAt (Files.tablesAt_eq_ok_iff.mpr ⟨hi, .inl hn⟩)
    obtain ⟨l', tables'⟩ := index'
    cases hl
    cases he
    exact ⟨hc, rfl, hn⟩
  · rintro ⟨hc, rfl, hn⟩
    exact ⟨rfl, Files.tablesAt_eq_ok_iff.mpr
      ⟨(Files.tablesAt_eq_ok_iff.mp hc.tablesAt_eq).1, .inl hn⟩⟩

theorem record_of_error {cache : RefCache} {e : Error}
    (he : index.tables.changes cache = .error e) : w.record index cache = (.error e, w) := by
  have hr : w.files.record index cache = .error e := by
    rw [Files.record, he]
    rfl
  rw [record, hr]

/-- A record of an open index that is accepted gives its changes to the tables. -/
theorem Serves.record (h : Serves path w index) (ho : w.Open index) {cache : RefCache}
    {changes : List IdentityChange} (hk : cache.Consistent)
    (hc : index.tables.changes cache = .ok changes) :
    ∃ w', w.record index cache = (.ok changes.length, w') ∧
      w'.Open { index with tables := index.tables.apply changes } ∧
      Serves path w' { index with tables := index.tables.apply changes } := by
  obtain ⟨files, hr, hf, hu, hn⟩ :=
    Files.record_eq_ok (Files.target_ne_nil h.target_eq) ho.node?_eq hc
  have hopen : Open { w with
      files := files
      index := some { index with tables := index.tables.apply changes } }
      { index with tables := index.tables.apply changes } :=
    ⟨rfl, by rw [hu]; exact ho.inUse, hn⟩
  refine ⟨_, ?_, hopen, ?_, ?_, .inl hopen⟩
  · rw [Workspace.record, hr]
    simp only [ho.inUse, if_true]
  · exact hf.target h.target_eq (by simp [hn])
  · exact h.inverse.apply hk hc

/-- What a database serves before a call, it serves afterwards, with the changes of the call. -/
theorem Serves.call (h : Serves path w index) (c : Call) :
    ∃ index', Serves path (w.call path c) index' := by
  cases c with
  | openIndex =>
    rcases ho : w.files.openIndex path with e | ⟨index', files⟩
    · simp only [Workspace.call, ho]
      exact ⟨index, h⟩
    · simp only [Workspace.call, ho]
      obtain ⟨-, rfl, rfl⟩ := h.openIndex_eq_ok_iff.mp ho
      exact ⟨index', h.keep_put.2⟩
  | openExistingIndex =>
    rcases ho : w.files.openExistingIndex path with e | index'
    · simp only [Workspace.call, ho]
      exact ⟨index, h⟩
    · simp only [Workspace.call, ho]
      obtain ⟨hc, rfl, hn⟩ := h.openExistingIndex_eq_ok_iff.mp ho
      exact ⟨index', h.keep .refl hn⟩
  | close => exact ⟨index, h.close⟩
  | record puts commits =>
    rcases h.open_or_closed with ho | hc
    · simp only [Workspace.call, ho.index_eq]
      split
      · rcases hr : index.tables.changes (RefCache.ofPuts puts) with e | changes
        · rw [record_of_error hr]
          exact ⟨index, h⟩
        · obtain ⟨w', hw, -, hs⟩ := h.record ho (RefCache.consistent_ofPuts puts) hr
          rw [hw]
          exact ⟨_, hs⟩
      · exact ⟨index, h⟩
    · simp only [Workspace.call, hc.index_eq]
      exact ⟨index, h⟩

theorem Serves.run (h : Serves path w index) (calls : List Call) :
    ∃ index', Serves path (w.run path calls) index' := by
  induction calls generalizing w index with
  | nil => exact ⟨index, h⟩
  | cons c calls ih =>
    obtain ⟨index', h⟩ := h.call c
    exact ih h

theorem Serves.opened (h : Serves path w index) :
    (w.openIndex path).2.Open index ∧ Serves path (w.openIndex path).2 index := by
  rw [Workspace.openIndex, h.close.openIndex_eq_ok_iff.mpr ⟨h.closed_close, rfl, rfl⟩]
  exact h.close.keep_put

/-- Whoever opens the database now finds this index, and so does whoever has it open. -/
structure Reopens (path : Path) (w : Workspace) (index : OpenIndex) : Prop where
  eq_of_open : ∀ index', w.index = some index' →
    index' = index ∧ w.files.node? index.location = some (.database index.tables)
  eq_of_stored : ∀ tables, w.files.node? index.location = some (.database tables) →
    tables = index.tables
  openIndex : (w.openIndex path).1 = .ok () ∧ (w.openIndex path).2.index = some index ∧
    (w.openIndex path).2.files.node? index.location = some (.database index.tables)
  openExistingIndex : w.files.node? index.location = some (.database index.tables) →
    (w.openExistingIndex path).1 = .ok () ∧ (w.openExistingIndex path).2.index = some index

theorem Serves.eq_of_stored (h : Serves path w index) {tables : IdentityTables}
    (hn : w.files.node? index.location = some (.database tables)) : tables = index.tables := by
  rcases h.open_or_closed with ho | hc
  · cases hn.symm.trans ho.node?_eq
    rfl
  · have hl := (Files.tablesAt_eq_ok_iff.mp hc.tablesAt_eq).1
    exact (h.eq_of_tablesAt (Files.tablesAt_eq_ok_iff.mpr ⟨hl, .inl hn⟩)).2

theorem close_node? {l : Location} : w.close.files.node? l = w.files.node? l := by
  unfold Workspace.close
  split <;> rfl

theorem Serves.reopens (h : Serves path w index) : Reopens path w index where
  eq_of_open index' hi := by
    rcases h.open_or_closed with ho | hc
    · rw [ho.index_eq, Option.some.injEq] at hi
      exact ⟨hi.symm, ho.node?_eq⟩
    · rw [hc.index_eq] at hi
      cases hi
  eq_of_stored _ := h.eq_of_stored
  openIndex := by
    have ho := h.close.openIndex_eq_ok_iff.mpr ⟨h.closed_close, rfl, rfl⟩
    rw [Workspace.openIndex, ho]
    exact ⟨rfl, rfl, h.close.keep_put.1.node?_eq⟩
  openExistingIndex hn := by
    have ho := h.close.openExistingIndex_eq_ok_iff.mpr
      ⟨h.closed_close, rfl, close_node?.trans hn⟩
    rw [Workspace.openExistingIndex, ho]
    exact ⟨rfl, rfl⟩

/-- After any calls on a database that starts empty there are exact tables which are those in
memory, those on disk and those that the next opening finds. -/
theorem exists_exact_reopens (h : StartsEmpty path w) (calls : List Call) :
    ∃ index, index.tables.Exact ∧ Reopens path (w.run path calls) index := by
  obtain ⟨index, hs⟩ := h.serves
  obtain ⟨index', hs⟩ := hs.run calls
  exact ⟨index', hs.inverse.exact, hs.reopens⟩

def bare : Workspace where
  files := { workingDirectory := [], nodes := ∅ }
  minters _ := .ofList ["u", "v", "w"]

/-- Two keys swap their identifiers, the database is reopened, and a run that takes one of them
away is refused. -/
def swap : List Call :=
  [.openIndex, .record [(1, ⟨1, "P", "u"⟩), (2, ⟨2, "P:a", "v"⟩)] true,
    .record [(1, ⟨1, "P", "v"⟩), (2, ⟨2, "P:a", "u"⟩)] true, .close, .openExistingIndex,
    .record [(1, ⟨1, "Q", "v"⟩)] true]

theorem startsEmpty_bare : StartsEmpty "index" bare :=
  ⟨rfl, ["index"], _, Files.openIndex_eq_ok_iff.mpr ⟨by decide +kernel, by decide +kernel, rfl⟩⟩

theorem exists_exact_reopens_swap : StartsEmpty "index" bare ∧
    (bare.run "index" swap).index.map (·.tables.entries) = some [("P", "v"), ("P:a", "u")] ∧
    ∃ index, index.tables.Exact ∧ Reopens "index" (bare.run "index" swap) index :=
  ⟨startsEmpty_bare, by decide +kernel, exists_exact_reopens startsEmpty_bare swap⟩

end Workspace

end ComponentIdentity
