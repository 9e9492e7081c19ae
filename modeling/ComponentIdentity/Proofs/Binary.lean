import ComponentIdentity.Proofs.Declared
import ComponentIdentity.Proofs.Spelling
import ComponentIdentity.Report.Format

/-! # Reading binary reports

The reader takes every spelling of a report behind the header, whatever follows
it and in whatever order the components come. The writer gives one such spelling,
so a report that is written and read again is the same report.
-/

namespace ComponentIdentity

namespace Report

variable {report : Report} {m : Metadata} {cs : List Component} {bytes : Bytes}

/-- The letters CREP, the version and a spelling of the fields, then any bytes at all. -/
def Spelled (bytes : Bytes) (m : Metadata) (cs : List Component) : Prop :=
  ∃ payload tail, Payload.SpelledFields m cs payload ∧
    bytes = [0x43, 0x52, 0x45, 0x50, 1] ++ payload ++ tail

theorem readPayload_eq_ok_iff :
    readPayload bytes = .ok (m, cs) ↔
      ∃ payload tail, Payload.SpelledFields m cs payload ∧ bytes = payload ++ tail := by
  simp only [readPayload, Except.bind_eq_ok_iff, Prod.exists, Payload.reads_metadata _ _ _,
    Payload.reads_list Payload.reads_component _ _ _]
  constructor
  · rintro ⟨m, _, ⟨front, hm, rfl⟩, cs, tail, ⟨back, hc, rfl⟩, ⟨⟩⟩
    exact ⟨_, tail, ⟨front, back, hm, hc, rfl⟩, by simp⟩
  · rintro ⟨_, tail, ⟨front, back, hm, hc, rfl⟩, rfl⟩
    exact ⟨m, _, ⟨front, hm, List.append_assoc _ _ _⟩, cs, tail, ⟨back, hc, rfl⟩, rfl⟩

theorem validate_eq_ok_iff {h : Header} {u : Unit} :
    h.validate = .ok u ↔ h.magic = [0x43, 0x52, 0x45, 0x50] ∧ h.version = 1 := by
  unfold Header.validate
  split
  next hm => simp [show h.magic ≠ [0x43, 0x52, 0x45, 0x50] from hm]
  next hm =>
    split
    next hv => simp [show h.version ≠ 1 from hv]
    next hv => simpa using ⟨not_not.mp hm, not_not.mp hv⟩

theorem decodeFields_cons {a b c d v : UInt8}
    (h : (a :: b :: c :: d :: v :: bytes).length ≤ maxEncodedBytes) :
    decodeFields (a :: b :: c :: d :: v :: bytes) =
      Header.validate ⟨[a, b, c, d], v⟩ >>= fun _ =>
        (readPayload bytes).mapError .payload := by
  have hs : ¬ (a :: b :: c :: d :: v :: bytes).length < Header.size := by simp [Header.size]
  rw [decodeFields, if_neg hs]
  dsimp only
  rw [if_neg (by omega)]
  rfl

theorem decodeFields_eq_ok_iff (h : bytes.length ≤ 256 * 1024 * 1024) :
    decodeFields bytes = .ok (m, cs) ↔ Spelled bytes m cs := by
  match bytes with
  | a :: b :: c :: d :: v :: rest =>
    rw [decodeFields_cons h, Except.bind_eq_ok_iff]
    simp only [Except.mapError_eq_ok_iff, readPayload_eq_ok_iff, validate_eq_ok_iff]
    constructor
    · rintro ⟨_, ⟨hm, rfl⟩, payload, tail, hs, rfl⟩
      cases hm
      exact ⟨payload, tail, hs, rfl⟩
    · rintro ⟨payload, tail, hs, he⟩
      cases he
      exact ⟨(), ⟨rfl, rfl⟩, payload, tail, hs, rfl⟩
  | [] | [_] | [_, _] | [_, _, _] | [_, _, _, _] =>
    constructor
    · rintro ⟨⟩
    · rintro ⟨payload, tail, -, he⟩
      cases he

theorem length_le_of_decodeFields (h : decodeFields bytes = .ok (m, cs)) :
    bytes.length ≤ 256 * 1024 * 1024 := by
  by_contra hl
  have hs : ¬ bytes.length < Header.size := by
    simp only [Header.size]
    omega
  rw [decodeFields, if_neg hs] at h
  dsimp only at h
  rw [if_pos (by simp only [maxEncodedBytes]; omega)] at h
  cases h

theorem length_le_of_ofBytes (h : ofBytes bytes = .ok report) :
    bytes.length ≤ 256 * 1024 * 1024 := by
  obtain ⟨fields, hd, -⟩ := Except.bind_eq_ok_iff.mp h
  exact length_le_of_decodeFields (Except.mapError_eq_ok_iff.mp hd)

theorem ofBytes_eq_ok_iff (h : bytes.length ≤ 256 * 1024 * 1024) :
    ofBytes bytes = .ok report ↔
      ∃ m cs, Spelled bytes m cs ∧ Declarable cs ∧ report.Declares m cs := by
  rw [ofBytes, Except.bind_eq_ok_iff, Prod.exists]
  simp only [Except.mapError_eq_ok_iff, decodeFields_eq_ok_iff h, ofComponents_eq_ok_iff]

theorem ofBytes_of_fields (h : decodeFields bytes = .ok (m, cs)) :
    ofBytes bytes = (ofComponents m cs).mapError .malformedReport := by
  rw [ofBytes, h]
  rfl

theorem ofBytes_of_fault {fault : EncodingFault} (h : decodeFields bytes = .error fault) :
    ofBytes bytes = .error (.serialization fault) := by
  rw [ofBytes, h]
  rfl

/-- Of the byte strings that are not too large, those that spell a declarable list are read, those
that spell any other list are malformed reports, and all others are refused before that. -/
theorem ofBytes_outcome (h : bytes.length ≤ 256 * 1024 * 1024) :
    (∀ report, ofBytes bytes = .ok report ↔
      ∃ m cs, Spelled bytes m cs ∧ Declarable cs ∧ report.Declares m cs) ∧
    (∀ m cs, Spelled bytes m cs → ¬ Declarable cs →
      ∃ fault, ofBytes bytes = .error (.malformedReport fault)) ∧
    ((∀ m cs, ¬ Spelled bytes m cs) → ∃ fault, ofBytes bytes = .error (.serialization fault)) := by
  refine ⟨fun _ => ofBytes_eq_ok_iff h, ?_, ?_⟩
  · intro m cs hs hn
    obtain ⟨fault, hc⟩ := ofComponents_eq_error (m := m) hn
    rw [ofBytes_of_fields ((decodeFields_eq_ok_iff h).mpr hs), hc]
    exact ⟨fault, rfl⟩
  · intro hn
    cases hd : decodeFields bytes with
    | error fault => exact ⟨fault, ofBytes_of_fault hd⟩
    | ok fields => exact absurd ((decodeFields_eq_ok_iff h).mp hd) (hn fields.1 fields.2)

/-- The components in another order, a root that is spelled with a zero too many, and a byte that
does not belong to the report. -/
def looseBytes : Bytes :=
  [0x43, 0x52, 0x45, 0x50, 1, 0x81, 0x00, 0, 2,
    2, 3, 0, 1, 2, 0xc3, 0xa9, 0, 1, 0, 1, 1, 0x50, 0, 1, 2, 0xff]

theorem ofBytes_looseBytes : ∃ report,
    ofBytes looseBytes = .ok report ∧
      report.toList = [.withChildren (.project 1 "P") [2], .file 2 "é"] ∧
      ∃ m cs, Spelled looseBytes m cs ∧ Declarable cs ∧ report.Declares m cs := by
  have hl : (ofBytes looseBytes).toOption.map toList =
      some [.withChildren (.project 1 "P") [2], .file 2 "é"] := by decide +kernel
  cases hb : ofBytes looseBytes with
  | error e => rw [hb] at hl; cases hl
  | ok report =>
    rw [hb] at hl
    exact ⟨report, rfl, Option.some.inj hl, ((ofBytes_outcome (by decide)).1 report).mp hb⟩

theorem spelled_toBytes (h : report.toBytes.length ≤ 256 * 1024 * 1024) :
    Spelled report.toBytes report.metadata report.toList := by
  have hl : report.toList.length < Varint.word64.limit := by
    rw [length_toList]
    exact Nat.lt_of_le_of_lt report.size_le (by decide)
  simp only [toBytes, List.append_assoc, List.length_append] at h ⊢
  refine ⟨_, [], Payload.spelled_write hl ?_, by rw [List.append_nil]; rfl⟩
  rw [List.length_append]
  exact Nat.lt_of_le_of_lt (by omega) (show 256 * 1024 * 1024 < Varint.word64.limit by decide)

theorem ofBytes_toBytes (h : report.toBytes.length ≤ 256 * 1024 * 1024) :
    ofBytes report.toBytes = .ok report :=
  (ofBytes_eq_ok_iff h).mpr ⟨_, _, spelled_toBytes h, declarable_toList, declares_toList⟩

theorem detect_toBytes : ReportFormat.detect report.toBytes = .binary := rfl

/-- The format of a written report is seen from its bytes, and they are read as the same report. So
a JSON text and the binary form of its report read the same. -/
theorem detect_and_read_toBytes (h : report.toBytes.length ≤ 256 * 1024 * 1024) :
    ReportFormat.detect report.toBytes = .binary ∧ ofBytes report.toBytes = .ok report ∧
      ∀ text, ofBytesIn .json text = .ok report →
        ofBytesIn (ReportFormat.detect report.toBytes) report.toBytes = ofBytesIn .json text := by
  refine ⟨detect_toBytes, ofBytes_toBytes h, fun text ht => ?_⟩
  rw [ht, detect_toBytes]
  exact ofBytes_toBytes h

def roughText : String :=
  "[[128, \"\"], [[300, \"MODULE\", \"\", null, [7, 7, 0]], [7, \"FILE\", null, \"\\u00e9\"]]]"

theorem detect_and_read_roughText : ∃ report,
    ofBytesIn .json (Bytes.ofText roughText) = .ok report ∧
      report.toBytes.length ≤ 256 * 1024 * 1024 ∧
      ReportFormat.detect report.toBytes = .binary ∧ ofBytes report.toBytes = .ok report ∧
      ofBytesIn (ReportFormat.detect report.toBytes) report.toBytes =
        ofBytesIn .json (Bytes.ofText roughText) := by
  have hl : (ofBytesIn .json (Bytes.ofText roughText)).toOption.map (·.toBytes.length) =
      some 28 := by decide +kernel
  cases ht : ofBytesIn .json (Bytes.ofText roughText) with
  | error e => rw [ht] at hl; cases hl
  | ok report =>
    rw [ht] at hl
    have hs : report.toBytes.length ≤ 256 * 1024 * 1024 := by
      have : report.toBytes.length = 28 := Option.some.inj hl
      omega
    obtain ⟨hd, hb, hj⟩ := detect_and_read_toBytes hs
    exact ⟨report, rfl, hs, hd, hb, ht ▸ hj (Bytes.ofText roughText) ht⟩

end Report

end ComponentIdentity
