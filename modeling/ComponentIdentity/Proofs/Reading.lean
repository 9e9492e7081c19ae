import ComponentIdentity.Index.Encoding
import ComponentIdentity.Proofs.Binary
import ComponentIdentity.Proofs.Places
import ComponentIdentity.Proofs.Tokens

/-! # Reports in files

A report is read where its path leads, from a file that is not too large, in one
format only, the one that its first bytes show: the magic bytes begin no JSON text,
and neither do those of a database. As long as that file stays as it is and the
directories stay, it is read again, and so it is if its format is left to be detected.
-/

namespace ComponentIdentity

namespace Json

variable {b : UInt8} {rest : Bytes} {seen : List Token}

/-- A byte that is not blank and with which no token begins. -/
def OpensNothing (b : UInt8) : Prop :=
  Token.isBlank b = false ∧ Token.punctuation.lookup b = none ∧ b ≠ Spelling.quote ∧
    (∀ w ∈ Token.words, w.1.head? ≠ some b) ∧ b ≠ 0x2d ∧ Number.isDigit b = false

instance : DecidablePred OpensNothing := fun b =>
  inferInstanceAs (Decidable (Token.isBlank b = false ∧ Token.punctuation.lookup b = none ∧
    b ≠ Spelling.quote ∧ (∀ w ∈ Token.words, w.1.head? ≠ some b) ∧ b ≠ 0x2d ∧
    Number.isDigit b = false))

theorem Number.lex_eq_none (hs : b ≠ 0x2d) (hd : isDigit b = false) :
    Number.lex (b :: rest) = none := by
  have hsign : sign [0x2d] (b :: rest) = ([], b :: rest) := by simp [sign, hs]
  have hdigits : digits? (b :: rest) = none := by simp [digits?, hd]
  simp [lex, hsign, integer?, hdigits]

theorem OpensNothing.lexOne_eq_none (h : OpensNothing b) : Token.lexOne b rest = none := by
  obtain ⟨-, hp, hq, hw, hs, hd⟩ := h
  have ho : Token.OpensNoOther b := ⟨hp, hq, hw⟩
  rw [ho.lexOne_eq, Number.lex_eq_none hs hd, Option.map_none]

theorem OpensNothing.lexFrom_eq_none (h : OpensNothing b) :
    Token.lexFrom seen (b :: rest) = none := by
  rw [Token.lexFrom, if_neg (by rw [h.1]; exact Bool.false_ne_true)]
  split
  · rfl
  next hl => cases h.lexOne_eq_none.symm.trans hl

theorem OpensNothing.ofBytes?_eq_none (h : OpensNothing b) : ofBytes? (b :: rest) = none := by
  rw [ofBytes?, Token.lex, h.lexFrom_eq_none, Option.bind_none]

end Json

namespace Report

variable {report : Report} {bytes rest : Bytes} {b : UInt8} {format : ReportFormat}

theorem ofJson_ne_ok (h : Json.OpensNothing b) : ofJson (b :: rest) ≠ .ok report := by
  rw [ofJson, h.ofBytes?_eq_none]
  exact nofun

theorem isPrefixOf_of_ofBytes (h : ofBytes bytes = .ok report) :
    Header.magicBytes.isPrefixOf bytes = true := by
  obtain ⟨m, cs, ⟨payload, tail, -, rfl⟩, -⟩ := (ofBytes_eq_ok_iff (length_le_of_ofBytes h)).mp h
  rfl

theorem eq_detect_of_ofBytesIn (h : ofBytesIn format bytes = .ok report) :
    format = ReportFormat.detect bytes := by
  unfold ReportFormat.detect
  cases format with
  | binary => rw [if_pos (isPrefixOf_of_ofBytes h)]
  | json =>
    split
    next hp =>
      obtain ⟨tail, rfl⟩ := List.isPrefixOf_iff_prefix.mp hp
      exact absurd h (ofJson_ne_ok (by decide))
    · rfl

theorem ofBytesIn_nil_ne_ok : ofBytesIn format [] ≠ .ok report := by
  intro h
  cases format with
  | binary => cases h
  | json =>
    have hlex : Json.ofBytes? [] = none := by
      rw [Json.ofBytes?, Json.Token.lex, Json.Token.lexFrom]
      rfl
    change ofJson [] = _ at h
    rw [ofJson, hlex] at h
    cases h

theorem ofBytesIn_database_ne_ok {tables : IdentityTables} :
    ofBytesIn format tables.toBytes ≠ .ok report := by
  intro h
  cases format with
  | json => exact ofJson_ne_ok (by decide) h
  | binary =>
    have hp := isPrefixOf_of_ofBytes h
    cases hp

end Report

namespace Files

variable {files files' : Files} {l : Location} {path : Path} {node : Node} {bytes : Bytes}
  {limit : Nat} {report : Report} {format format' : Option ReportFormat}

theorem inputLocation_eq_ok_iff :
    files.inputLocation path = .ok l ↔ ∃ node, files.locate path = .ok (l, node) ∧
      node ≠ .directory := by
  unfold inputLocation
  split
  next hl => simp [hl]
  next hl =>
    simp only [hl, reduceCtorEq, false_iff, not_exists, not_and, Except.ok.injEq, Prod.mk.injEq]
    rintro node ⟨-, rfl⟩ hn
    exact hn rfl
  next l' node hd hl =>
    simp only [hl, Except.ok.injEq, Prod.mk.injEq]
    constructor
    · rintro rfl
      exact ⟨node, ⟨rfl, rfl⟩, hd⟩
    · rintro ⟨_, ⟨rfl, -⟩, -⟩
      rfl

theorem checkSize_eq_ok_iff :
    files.checkSize path limit = .ok () ↔ ∃ l node, files.lookup path = .ok (l, node) ∧
      (node.bytes?.map List.length).getD 4096 ≤ limit := by
  unfold checkSize sizeOf
  rcases files.lookup path with fault | ⟨l, node⟩
  · simp [bind, Except.bind, Except.mapError]
  · simp [bind, Except.bind, Except.mapError, pure, Except.pure, throw, throwThe,
      MonadExceptOf.throw]

theorem readAt_eq_ok_iff :
    files.readAt l = .ok bytes ↔ ∃ node, files.node? l = some node ∧ node.bytes? = some bytes := by
  unfold readAt
  rcases files.node? l with _ | node
  · simp
  · rcases hb : node.bytes? with _ | b <;> simp [hb]

theorem readReport_eq_ok_iff :
    files.readReport path format = .ok report ↔ ∃ l bytes, files.inputLocation path = .ok l ∧
      files.checkSize l.toPath maxReportBytes = .ok () ∧ files.readAt l = .ok bytes ∧
      Report.ofBytesIn (format.getD (.detect bytes)) bytes = .ok report := by
  simp only [readReport, Except.bind_eq_ok_iff, Except.mapError_eq_ok_iff]
  constructor
  · rintro ⟨l, hl, ⟨⟩, hs, bytes, hb, h⟩
    exact ⟨l, bytes, hl, hs, hb, h⟩
  · rintro ⟨l, bytes, hl, hs, hb, h⟩
    exact ⟨l, hl, (), hs, bytes, hb, h⟩

theorem exists_file_of_readReport (h : files.readReport path format = .ok report)
    (hl : files.inputLocation path = .ok l) :
    ∃ b bytes, files.node? l = some (.file (b :: bytes)) := by
  obtain ⟨l, bytes, hl', -, hb, hr⟩ := readReport_eq_ok_iff.mp h
  cases hl.symm.trans hl'
  obtain ⟨node, hn, hb⟩ := readAt_eq_ok_iff.mp hb
  cases node with
  | directory => cases hb
  | database tables =>
    cases hb
    exact absurd hr Report.ofBytesIn_database_ne_ok
  | file bytes =>
    cases hb
    cases bytes with
    | nil => exact absurd hr Report.ofBytesIn_nil_ne_ok
    | cons b bytes => exact ⟨b, bytes, hn⟩

theorem Extends.inputLocation (hf : Extends files files') (h : files.inputLocation path = .ok l)
    (hn : files'.node? l = files.node? l) : files'.inputLocation path = .ok l := by
  obtain ⟨node, hl, hd⟩ := inputLocation_eq_ok_iff.mp h
  obtain ⟨-, -, hnode⟩ := locate_eq_ok_iff.mp hl
  exact inputLocation_eq_ok_iff.mpr ⟨node, hf.locate hl (hn.trans hnode), hd⟩

theorem Extends.checkSize (hf : Extends files files') (hl : l.IsPlain)
    (h : files.checkSize l.toPath limit = .ok ()) (hn : files'.node? l = files.node? l) :
    files'.checkSize l.toPath limit = .ok () := by
  obtain ⟨l', node, hlook, hle⟩ := checkSize_eq_ok_iff.mp h
  obtain ⟨hr, hnode⟩ := lookup_eq_ok_iff_resolve.mp hlook
  cases resolve_toPath hl hr
  exact checkSize_eq_ok_iff.mpr ⟨_, node, hf.lookup hlook (hn.trans hnode), hle⟩

/-- A report whose file is as it was is read as it was, and its format need not be named. -/
theorem Extends.readReport (hf : Extends files files') (hw : files.workingDirectory.IsPlain)
    (h : files.readReport path format = .ok report) (hl : files.inputLocation path = .ok l)
    (hn : files'.node? l = files.node? l) (hformat : format' = format ∨ format' = none) :
    files'.readReport path format' = .ok report := by
  obtain ⟨l, bytes, hl', hs, hb, hr⟩ := readReport_eq_ok_iff.mp h
  cases hl.symm.trans hl'
  refine readReport_eq_ok_iff.mpr ⟨_, bytes, hf.inputLocation hl hn,
    hf.checkSize (isPlain_of_inputLocation hw hl) hs hn, ?_, ?_⟩
  · obtain ⟨node, hnode, hb⟩ := readAt_eq_ok_iff.mp hb
    exact readAt_eq_ok_iff.mpr ⟨node, hn.trans hnode, hb⟩
  · rcases hformat with rfl | rfl
    · exact hr
    · rw [Option.getD_none, ← Report.eq_detect_of_ofBytesIn hr]
      exact hr

/-- What a path leads to, if it can be read as a report in some format. -/
def reportBytes (files : Files) (path : Path) : Except Error Bytes := do
  let l ← files.inputLocation path
  files.checkSize l.toPath maxReportBytes
  (files.readAt l).mapError (.file ∘ .reading)

theorem readReport_eq :
    files.readReport path format = files.reportBytes path >>= fun bytes =>
      Report.ofBytesIn (format.getD (.detect bytes)) bytes := by
  simp only [readReport, reportBytes, bind_assoc]

theorem exists_readReport_none (files : Files) (path : Path) :
    ∃ format, files.readReport path none = files.readReport path (some format) ∧
      ∀ bytes, files.reportBytes path = .ok bytes → format = .detect bytes := by
  simp only [readReport_eq]
  cases files.reportBytes path with
  | error e => exact ⟨.json, rfl, nofun⟩
  | ok bytes =>
    refine ⟨.detect bytes, rfl, ?_⟩
    rintro _ ⟨⟩
    rfl

theorem readReport_none_of_some {named : ReportFormat}
    (h : files.readReport path (some named) = .ok report) :
    files.readReport path none = .ok report := by
  rw [readReport_eq, Except.bind_eq_ok_iff] at h ⊢
  obtain ⟨bytes, hb, hr⟩ := h
  refine ⟨bytes, hb, ?_⟩
  rw [Option.getD_none, ← Report.eq_detect_of_ofBytesIn hr]
  exact hr

/-- A report is read in no other format than the one that its bytes show, so no bytes are read in
both. A file is read without a format as with the right one, and with no other one as a report;
whatever is read in a named format is read alike when none is named. -/
theorem format_detected :
    (∀ bytes format report, Report.ofBytesIn format bytes = .ok report →
      format = .detect bytes ∧ Report.ofBytesIn (.detect bytes) bytes = .ok report) ∧
    (∀ bytes report report', Report.ofBytesIn .json bytes = .ok report →
      Report.ofBytesIn .binary bytes ≠ .ok report') ∧
    (∀ files path, ∃ format, readReport files path none = readReport files path (some format) ∧
      ∀ other report, readReport files path (some other) = .ok report → other = format) ∧
    ∀ files path format report, readReport files path (some format) = .ok report →
      readReport files path none = .ok report := by
  refine ⟨?_, ?_, ?_, fun _ _ _ _ => readReport_none_of_some⟩
  · intro bytes format report h
    have hf := Report.eq_detect_of_ofBytesIn h
    exact ⟨hf, hf ▸ h⟩
  · intro bytes report report' hj hb
    have hf := (Report.eq_detect_of_ofBytesIn hj).trans (Report.eq_detect_of_ofBytesIn hb).symm
    cases hf
  · intro files path
    obtain ⟨format, hn, hd⟩ := exists_readReport_none files path
    refine ⟨format, hn, fun other report h => ?_⟩
    rw [readReport_eq, Except.bind_eq_ok_iff] at h
    obtain ⟨bytes, hb, hr⟩ := h
    exact (Report.eq_detect_of_ofBytesIn hr).trans (hd bytes hb).symm

theorem format_detected_roughText : ∃ report,
    Report.ofBytesIn .json (Bytes.ofText Report.roughText) = .ok report ∧
      ReportFormat.json = .detect (Bytes.ofText Report.roughText) ∧
      Report.ofBytesIn (.detect (Bytes.ofText Report.roughText)) (Bytes.ofText Report.roughText) =
        .ok report := by
  have hs : (Report.ofBytesIn .json (Bytes.ofText Report.roughText)).toOption.isSome := by
    decide +kernel
  cases ht : Report.ofBytesIn .json (Bytes.ofText Report.roughText) with
  | error e => rw [ht] at hs; cases hs
  | ok report => exact ⟨report, rfl, format_detected.1 _ _ _ ht⟩

end Files

end ComponentIdentity
