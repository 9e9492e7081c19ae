import ComponentIdentity.Proofs.Digits
import ComponentIdentity.Report.Payload

/-! # Spellings of payloads

Each field of a payload has its spellings: a number may have marked zeros after
it, so there are several of one value. A reader takes exactly the spellings of
its field and leaves the bytes after it, and what a writer gives is one of them.
-/

namespace ComponentIdentity.Payload

variable {α β : Type} {spelled : α → Bytes → Prop} {read : Reader α} {next : α → Reader β}
  {write : α → Bytes} {bytes rest : Bytes} {n : Nat}

def SpelledRef (r : Ref) (bytes : Bytes) : Prop := Varint.word32.Spelled r.toNat bytes

def SpelledKind (k : Kind) (bytes : Bytes) : Prop := Varint.word32.Spelled k.rank bytes

/-- The size in bytes, then the text in UTF-8. -/
def SpelledText (s : String) (bytes : Bytes) : Prop :=
  ∃ size, Varint.word64.Spelled (Bytes.ofText s).length size ∧ bytes = size ++ Bytes.ofText s

inductive SpelledOption (spelled : α → Bytes → Prop) : Option α → Bytes → Prop where
  | none : SpelledOption spelled none [0]
  | some {a : α} {bytes : Bytes} : spelled a bytes → SpelledOption spelled (some a) (1 :: bytes)

inductive SpelledMany (spelled : α → Bytes → Prop) : List α → Bytes → Prop where
  | nil : SpelledMany spelled [] []
  | cons {a : α} {as : List α} {front back : Bytes} : spelled a front →
      SpelledMany spelled as back → SpelledMany spelled (a :: as) (front ++ back)

/-- How many there are, then one value after the other. -/
def SpelledList (spelled : α → Bytes → Prop) (as : List α) (bytes : Bytes) : Prop :=
  ∃ count items, Varint.word64.Spelled as.length count ∧ SpelledMany spelled as items ∧
    bytes = count ++ items

def SpelledMetadata (m : Metadata) (bytes : Bytes) : Prop :=
  ∃ root branch, SpelledRef m.root root ∧ SpelledOption SpelledText m.branch branch ∧
    bytes = root ++ branch

def SpelledComponent (c : Component) (bytes : Bytes) : Prop :=
  ∃ ref kind key path children, SpelledRef c.ref ref ∧ SpelledKind c.kind kind ∧
    SpelledOption SpelledText c.key key ∧ SpelledOption SpelledText c.path path ∧
    SpelledList SpelledRef c.children children ∧ bytes = ref ++ kind ++ key ++ path ++ children

def SpelledFields (m : Metadata) (cs : List Component) (bytes : Bytes) : Prop :=
  ∃ front back, SpelledMetadata m front ∧ SpelledList SpelledComponent cs back ∧
    bytes = front ++ back

section Read

theorem bind_eq_ok_iff {b : β} :
    (read >>= next) bytes = .ok (b, rest) ↔
      ∃ a mid, read bytes = .ok (a, mid) ∧ next a mid = .ok (b, rest) := by
  change StateT.bind read next bytes = _ ↔ _
  simp only [StateT.bind, Except.bind_eq_ok_iff, Prod.exists]

theorem pure_eq_ok_iff {a b : α} :
    (pure a : Reader α) bytes = .ok (b, rest) ↔ a = b ∧ bytes = rest := by
  change Except.ok (a, bytes) = _ ↔ _
  simp only [Except.ok.injEq, Prod.mk.injEq]

/-- The reader takes the spellings of a value and leaves the bytes after them. -/
def Reads (read : Reader α) (spelled : α → Bytes → Prop) : Prop :=
  ∀ a bytes rest, read bytes = .ok (a, rest) ↔ ∃ front, spelled a front ∧ bytes = front ++ rest

theorem reads_varint (width : Varint.Width) : Reads (readVarint width) width.Spelled := by
  intro n bytes rest
  rw [← Varint.decode_eq_ok_iff, readVarint, Except.mapError_eq_ok_iff]

theorem reads_ref : Reads readRef SpelledRef := by
  intro r bytes rest
  simp only [readRef, bind_eq_ok_iff, pure_eq_ok_iff, reads_varint _ _ _ _]
  constructor
  · rintro ⟨n, mid, ⟨front, hs, rfl⟩, rfl, rfl⟩
    have hn : n < 2 ^ 32 := hs.lt_limit (by decide)
    refine ⟨front, ?_, rfl⟩
    rwa [SpelledRef, Nat.toUInt32, UInt32.toNat_ofNat_of_lt' hn]
  · rintro ⟨front, hs, rfl⟩
    exact ⟨_, _, ⟨front, hs, rfl⟩, by simp, rfl⟩

theorem ofRank?_eq_some_iff {k : Kind} : Kind.ofRank? n = some k ↔ n = k.rank := by
  constructor
  · intro h
    match n, h with
    | 0, h | 1, h | 2, h | 3, h => cases h; rfl
    | _ + 4, h => cases h
  · rintro rfl
    exact Kind.ofRank?_rank k

theorem reads_kind : Reads readKind SpelledKind := by
  intro k bytes rest
  simp only [readKind, bind_eq_ok_iff, reads_varint _ _ _ _]
  constructor
  · rintro ⟨n, mid, ⟨front, hs, rfl⟩, h⟩
    cases hk : Kind.ofRank? n with
    | none => rw [hk] at h; cases h
    | some k' =>
      rw [hk] at h
      obtain ⟨rfl, rfl⟩ := pure_eq_ok_iff.mp h
      obtain rfl := ofRank?_eq_some_iff.mp hk
      exact ⟨front, hs, rfl⟩
  · rintro ⟨front, hs, rfl⟩
    refine ⟨_, _, ⟨front, hs, rfl⟩, ?_⟩
    rw [Kind.ofRank?_rank]
    exact pure_eq_ok_iff.mpr ⟨rfl, rfl⟩

theorem reads_bytes (n : Nat) :
    Reads (readBytes n) fun taken bytes => taken = bytes ∧ bytes.length = n := by
  intro taken bytes rest
  simp only [readBytes, List.length_take]
  constructor
  · intro h
    split at h
    · cases h
    · cases h
      exact ⟨_, ⟨rfl, by rw [List.length_take]; omega⟩, (List.take_append_drop n bytes).symm⟩
  · rintro ⟨front, ⟨rfl, rfl⟩, rfl⟩
    rw [if_neg (by simp), List.take_left, List.drop_left]

theorem reads_text : Reads readText SpelledText := by
  intro s bytes rest
  simp only [readText, bind_eq_ok_iff, reads_varint _ _ _ _, reads_bytes _ _ _ _]
  constructor
  · rintro ⟨n, mid, ⟨size, hs, rfl⟩, taken, mid', ⟨front, ⟨rfl, rfl⟩, rfl⟩, h⟩
    cases ht : Bytes.toText? taken with
    | none => rw [ht] at h; cases h
    | some s' =>
      rw [ht] at h
      obtain ⟨rfl, rfl⟩ := pure_eq_ok_iff.mp h
      obtain rfl := Bytes.toText?_eq_some_iff.mp ht
      exact ⟨_, ⟨size, hs, rfl⟩, (List.append_assoc _ _ _).symm⟩
  · rintro ⟨front, ⟨size, hs, rfl⟩, rfl⟩
    refine ⟨_, _, ⟨size, hs, List.append_assoc _ _ _⟩, _, _, ⟨_, ⟨rfl, rfl⟩, rfl⟩, ?_⟩
    rw [Bytes.toText?_ofText]
    exact pure_eq_ok_iff.mpr ⟨rfl, rfl⟩

theorem reads_byte : Reads readByte fun b bytes => bytes = [b] := by
  intro b bytes rest
  cases bytes with
  | nil => simp [readByte]
  | cons d bytes => simp [readByte, eq_comm]

theorem reads_option (h : Reads read spelled) :
    Reads (readOption read) (SpelledOption spelled) := by
  intro o bytes rest
  simp only [readOption, bind_eq_ok_iff, reads_byte _ _ _]
  constructor
  · rintro ⟨b, mid, ⟨_, rfl, rfl⟩, ho⟩
    rcases hb : b.toNat with _ | _ | k
    · rw [hb] at ho
      obtain ⟨rfl, rfl⟩ := pure_eq_ok_iff.mp ho
      obtain rfl : b = 0 := UInt8.toNat_inj.mp hb
      exact ⟨[0], .none, rfl⟩
    · rw [hb] at ho
      obtain ⟨a, mid', ha, ho⟩ := bind_eq_ok_iff.mp ho
      obtain ⟨rfl, rfl⟩ := pure_eq_ok_iff.mp ho
      obtain ⟨front, hs, rfl⟩ := (h _ _ _).mp ha
      obtain rfl : b = 1 := UInt8.toNat_inj.mp hb
      exact ⟨1 :: front, .some hs, rfl⟩
    · rw [hb] at ho
      cases ho
  · rintro ⟨front, hs, rfl⟩
    cases hs with
    | none => exact ⟨0, rest, ⟨[0], rfl, rfl⟩, pure_eq_ok_iff.mpr ⟨rfl, rfl⟩⟩
    | @some a front hs =>
      refine ⟨1, front ++ rest, ⟨[1], rfl, rfl⟩, bind_eq_ok_iff.mpr ⟨a, rest, ?_, ?_⟩⟩
      · exact (h _ _ _).mpr ⟨front, hs, rfl⟩
      · exact pure_eq_ok_iff.mpr ⟨rfl, rfl⟩

theorem reads_many (h : Reads read spelled) (done : List α) :
    Reads (readMany read n done) fun as bytes =>
      ∃ items, items.length = n ∧ SpelledMany spelled items bytes ∧ as = done.reverse ++ items := by
  induction n generalizing done with
  | zero =>
    intro as bytes rest
    rw [readMany, pure_eq_ok_iff]
    constructor
    · rintro ⟨rfl, rfl⟩
      exact ⟨[], ⟨[], rfl, .nil, by simp⟩, rfl⟩
    · rintro ⟨front, ⟨items, hl, hs, rfl⟩, rfl⟩
      cases List.length_eq_zero_iff.mp hl
      cases hs
      exact ⟨by simp, rfl⟩
  | succ n ih =>
    intro as bytes rest
    simp only [readMany, bind_eq_ok_iff, h _ _ _, ih _ _ _ _]
    constructor
    · rintro ⟨a, mid, ⟨front, ha, rfl⟩, back, ⟨items, rfl, hs, rfl⟩, rfl⟩
      exact ⟨front ++ back, ⟨a :: items, rfl, .cons ha hs, by simp⟩, by simp⟩
    · rintro ⟨bytes, ⟨items, hl, hs, rfl⟩, rfl⟩
      cases hs with
      | nil => cases hl
      | @cons a items front back ha hs =>
        exact ⟨a, back ++ rest, ⟨front, ha, by simp⟩, back, ⟨items, by simpa using hl, hs, by simp⟩,
          rfl⟩

theorem reads_list (h : Reads read spelled) : Reads (readList read) (SpelledList spelled) := by
  intro as bytes rest
  simp only [readList, bind_eq_ok_iff, reads_varint _ _ _ _, reads_many h _ _ _ _]
  constructor
  · rintro ⟨n, mid, ⟨count, hc, rfl⟩, back, ⟨items, rfl, hs, rfl⟩, rfl⟩
    exact ⟨count ++ back, ⟨count, back, hc, hs, rfl⟩, by simp⟩
  · rintro ⟨front, ⟨count, items, hc, hs, rfl⟩, rfl⟩
    exact ⟨_, _, ⟨count, hc, List.append_assoc _ _ _⟩, items, ⟨as, rfl, hs, rfl⟩, rfl⟩

theorem reads_metadata : Reads readMetadata SpelledMetadata := by
  intro m bytes rest
  simp only [readMetadata, bind_eq_ok_iff, pure_eq_ok_iff, reads_ref _ _ _,
    reads_option reads_text _ _ _]
  constructor
  · rintro ⟨root, _, ⟨front, hr, rfl⟩, branch, _, ⟨back, hb, rfl⟩, rfl, rfl⟩
    exact ⟨front ++ back, ⟨front, back, hr, hb, rfl⟩, by simp⟩
  · rintro ⟨_, ⟨front, back, hr, hb, rfl⟩, rfl⟩
    exact ⟨_, _, ⟨front, hr, List.append_assoc _ _ _⟩, _, _, ⟨back, hb, rfl⟩, rfl, rfl⟩

theorem reads_component : Reads readComponent SpelledComponent := by
  intro c bytes rest
  simp only [readComponent, bind_eq_ok_iff, pure_eq_ok_iff, reads_ref _ _ _, reads_kind _ _ _,
    reads_option reads_text _ _ _, reads_list reads_ref _ _ _]
  constructor
  · rintro ⟨ref, _, ⟨b₁, h₁, rfl⟩, kind, _, ⟨b₂, h₂, rfl⟩, key, _, ⟨b₃, h₃, rfl⟩, path, _,
      ⟨b₄, h₄, rfl⟩, children, _, ⟨b₅, h₅, rfl⟩, rfl, rfl⟩
    exact ⟨_, ⟨b₁, b₂, b₃, b₄, b₅, h₁, h₂, h₃, h₄, h₅, rfl⟩, by simp⟩
  · rintro ⟨_, ⟨b₁, b₂, b₃, b₄, b₅, h₁, h₂, h₃, h₄, h₅, rfl⟩, rfl⟩
    simp only [List.append_assoc]
    exact ⟨_, _, ⟨b₁, h₁, rfl⟩, _, _, ⟨b₂, h₂, rfl⟩, _, _, ⟨b₃, h₃, rfl⟩, _, _, ⟨b₄, h₄, rfl⟩,
      _, _, ⟨b₅, h₅, rfl⟩, rfl, rfl⟩

end Read

section Write

theorem length_ofText (s : String) : (Bytes.ofText s).length = s.utf8ByteSize := rfl

theorem spelled_encode_word64 (h : n < Varint.word64.limit) :
    Varint.word64.Spelled n (Varint.encode n) :=
  Varint.spelled_encode (by decide) (by decide) h

theorem spelled_writeRef (r : Ref) : SpelledRef r (writeRef r) :=
  Varint.spelled_encode (by decide) (by decide) r.toNat_lt

theorem spelled_writeKind (k : Kind) : SpelledKind k (writeKind k) :=
  Varint.spelled_encode (by decide) (by decide) (by cases k <;> decide)

theorem spelled_writeText {s : String} (h : (writeText s).length < Varint.word64.limit) :
    SpelledText s (writeText s) := by
  rw [writeText, List.length_append, length_ofText] at h
  exact ⟨_, spelled_encode_word64 (by rw [length_ofText]; omega), rfl⟩

theorem spelled_writeOption {o : Option α} (h : ∀ a ∈ o, spelled a (write a)) :
    SpelledOption spelled o (writeOption write o) := by
  cases o with
  | none => exact .none
  | some a => exact .some (h a rfl)

theorem spelled_flatMap {as : List α} (h : ∀ a ∈ as, spelled a (write a)) :
    SpelledMany spelled as (as.flatMap write) := by
  induction as with
  | nil => exact .nil
  | cons a as ih =>
    rw [List.flatMap_cons]
    exact .cons (h a (by simp)) (ih fun b hb => h b (by simp [hb]))

theorem spelled_writeList {as : List α} (hl : as.length < Varint.word64.limit)
    (h : ∀ a ∈ as, spelled a (write a)) : SpelledList spelled as (writeList write as) :=
  ⟨_, _, spelled_encode_word64 hl, spelled_flatMap h, rfl⟩

theorem length_write_le {as : List α} {a : α} (h : a ∈ as) :
    (write a).length ≤ (as.flatMap write).length := by
  obtain ⟨front, back, rfl⟩ := List.append_of_mem h
  simp only [List.flatMap_append, List.flatMap_cons, List.length_append]
  omega

theorem length_le_flatMap {as : List α} (h : ∀ a, write a ≠ []) :
    as.length ≤ (as.flatMap write).length := by
  induction as with
  | nil => exact Nat.zero_le _
  | cons a as ih =>
    have := List.length_pos_iff.mpr (h a)
    rw [List.length_cons, List.flatMap_cons, List.length_append]
    omega

theorem spelled_writeOption_writeText {o : Option String}
    (h : (writeOption writeText o).length < Varint.word64.limit) :
    SpelledOption SpelledText o (writeOption writeText o) := by
  refine spelled_writeOption fun s hs => spelled_writeText ?_
  obtain rfl := Option.mem_def.mp hs
  rw [writeOption, List.length_cons] at h
  omega

theorem spelled_writeMetadata {m : Metadata}
    (h : (writeMetadata m).length < Varint.word64.limit) : SpelledMetadata m (writeMetadata m) := by
  rw [writeMetadata, List.length_append] at h
  exact ⟨_, _, spelled_writeRef m.root, spelled_writeOption_writeText (by omega), rfl⟩

theorem spelled_writeComponent {c : Component}
    (h : (writeComponent c).length < Varint.word64.limit) :
    SpelledComponent c (writeComponent c) := by
  have hc : c.children.length ≤ (c.children.flatMap writeRef).length :=
    length_le_flatMap fun r => (Varint.digits_encode r.toNat).ne_nil
  simp only [writeComponent, writeList, List.length_append] at h
  refine ⟨_, _, _, _, _, spelled_writeRef c.ref, spelled_writeKind c.kind,
    spelled_writeOption_writeText (by omega), spelled_writeOption_writeText (by omega),
    spelled_writeList (by omega) fun r _ => spelled_writeRef r, rfl⟩

/-- A payload of any size that a machine can hold is written as a spelling of its fields. -/
theorem spelled_write {m : Metadata} {cs : List Component}
    (hl : cs.length < Varint.word64.limit)
    (h : (writeMetadata m ++ writeList writeComponent cs).length < Varint.word64.limit) :
    SpelledFields m cs (writeMetadata m ++ writeList writeComponent cs) := by
  rw [List.length_append, writeList, List.length_append] at h
  refine ⟨_, _, spelled_writeMetadata (by omega), spelled_writeList hl fun c hc => ?_, rfl⟩
  have : (writeComponent c).length ≤ (cs.flatMap writeComponent).length := length_write_le hc
  exact spelled_writeComponent (by omega)

end Write

end ComponentIdentity.Payload
