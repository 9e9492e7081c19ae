import ComponentIdentity.Proofs.Answers
import ComponentIdentity.Proofs.Keys
import ComponentIdentity.Proofs.Reading
import ComponentIdentity.Proofs.Repetition
import ComponentIdentity.Proofs.Sessions

/-! # Identities that outlive a session

A report that was resolved and recorded on the command line keeps its identities:
after any session that spares the report and the database, the report is read as
before, the database has all its identifiers, and so every command that resolves
it again prints what was printed first.
-/

namespace ComponentIdentity

/-- Tables that came about by recording. -/
inductive IdentityTables.Recorded : IdentityTables → Prop where
  | empty : Recorded .empty
  | record {tables tables' : IdentityTables} {cache : RefCache} {n : Nat} :
      Recorded tables → cache.Consistent → tables.record cache = .ok (tables', n) →
      Recorded tables'

theorem IdentityTables.Recorded.inverse {tables : IdentityTables} (h : tables.Recorded) :
    tables.Inverse := by
  induction h with
  | empty => exact inverse_empty
  | record _ hc hr ih =>
    obtain ⟨changes, hchanges, he⟩ := Except.bind_eq_ok_iff.mp hr
    cases he
    exact ih.apply hc hchanges

namespace Command

variable {settings : Settings} {fresh : Minter} {path : Path} {format format' : Option String}
  {files files' : Files} {answer : Answer} {report : Report} {l : Location}

theorem readNamed_again (hf : files.Extends files') (hw : files.workingDirectory.IsPlain)
    (h : readNamed files path format = .ok report) (hl : files.inputLocation path = .ok l)
    (hn : files'.node? l = files.node? l) (hformat : format' = format ∨ format' = none) :
    readNamed files' path format' = .ok report := by
  obtain ⟨f, hp, hr⟩ := readNamed_eq_ok_iff.mp h
  rcases hformat with rfl | rfl
  · exact readNamed_eq_ok_iff.mpr ⟨f, hp, hf.readReport hw hr hl hn (.inl rfl)⟩
  · exact readNamed_eq_ok_iff.mpr ⟨none, rfl, hf.readReport hw hr hl hn (.inr rfl)⟩

end Command

namespace Resolution

variable {report : Report} {tables : IdentityTables} {index : IdentityIndex} {res : Resolution}
  {m m' : Minter}

theorem resolveStored_of_stored (h : (report.resolve index).run m = (.ok res, m'))
    (hs : tables.Stores res.cache) (deterministic : Bool) (fresh : Minter) :
    report.resolveStored deterministic tables fresh =
      .ok ⟨res.cache, { res.stats with reused := res.stats.resolved, minted := 0 }⟩ := by
  have hk : res.cache.KnownTo tables.toIndex := fun x c hx => congrArg Except.ok (hs x c hx)
  obtain ⟨r, done, -, ht, rfl, -⟩ := exists_traced_of_resolve h
  have hsum := ht.reused_add_minted_eq.trans ht.resolved_eq.symm
  rw [Report.resolveStored_eq_resolve, resolve_recalled h hk]
  simp only [Stats.recalled, Run.resolution, hsum]

theorem isComplete_of_traced (h : (report.resolve index).run m = (.ok res, m')) :
    res.IsComplete report := by
  obtain ⟨r, done, -, ht, rfl, -⟩ := exists_traced_of_resolve h
  exact ht.isComplete

end Resolution

namespace CommandLine

open Command (readNamed)
open Files (Keeps)

/-- The report is read under its path, and the database at a place has all its identifiers. -/
structure Remembers (path : Path) (format : Option String) (databaseAt : Location)
    (report : Report) (cache : RefCache) (files : Files) : Prop where
  readNamed_eq : ∀ format', format' = format ∨ format' = none →
    readNamed files path format' = .ok report
  not_mem_inUse : databaseAt ∉ files.inUse
  exists_tables : ∃ tables, files.node? databaseAt = some (.database tables) ∧ tables.Inverse ∧
    tables.Stores cache

/-- What is printed of a resolution that was recorded, by whatever call asks for it on the same
database. -/
structure Continues (path : Path) (format : Option String) (databaseAt : Location)
    (report : Report) (res : Resolution) (files : Files) : Prop where
  ref_eq : ∀ ref c, res.cache.get? ref = some c → c.ref = ref
  mem_toList_iff : ∀ ref c, (ref, c) ∈ res.cache.toList ↔ res.cache.get? ref = some c
  isSome_iff : ∀ ref, (res.cache.get? ref).isSome ↔ report.Reachable ref
  lookup : ∀ (call : Call) settings format' ref,
    call.Asks files settings (.lookup path format' ref) → format' = format ∨ format' = none →
    files.target settings.database = .ok databaseAt →
    (∃ word, Arguments.Names .ref word call.args) ∧
      (∀ word, Arguments.Names .ref word call.args → Arguments.IsRef word ref) ∧
      ∃ text, (call.run files).1 = .printed text ∧
        (Answer.found ref (res.cache.get? ref)).Shows settings text
  resolve : ∀ (call : Call) settings format' record,
    call.Asks files settings (.resolve path format' record) → format' = format ∨ format' = none →
    files.target settings.database = .ok databaseAt →
    ∃ text, (call.run files).1 = .printed text ∧
      (Answer.resolved path settings.database res.cache.toList
        { res.stats with reused := res.stats.resolved, minted := 0 }
        (if record then some 0 else none)).Shows settings text
  index : ∀ (call : Call) settings, call.Asks files settings .index →
    files.target settings.database = .ok databaseAt →
    ∃ text entries, (call.run files).1 = .printed text ∧
      (Answer.listed settings.database entries).Shows settings text ∧
      ∀ x c, res.cache.get? x = some c → (c.key, c.uuid) ∈ entries

theorem Call.shows_of_run {call : Call} {files files' : Files} {settings : Settings}
    {command : Command} {answer : Answer} (h : call.Asks files settings command)
    (hr : (command.run settings call.fresh).run files = (.ok answer, files')) :
    ∃ text, (call.run files).1 = .printed text ∧ answer.Shows settings text :=
  ⟨answer.render settings, by rw [run_of_asks h, hr], answer.shows_render settings⟩

theorem Call.shows_of_reads {call : Call} {files : Files} {settings : Settings}
    {command : Command} {answer : Answer} {f : Files → Except Error Answer}
    (h : call.Asks files settings command)
    (hr : Filing.Reads (command.run settings call.fresh) f) (hf : f files = .ok answer) :
    ∃ text, (call.run files).1 = .printed text ∧ answer.Shows settings text :=
  call.shows_of_run h (hr.run_of_ok hf)

namespace Remembers

variable {path : Path} {format format' : Option String} {databaseAt : Location}
  {report : Report} {res : Resolution} {files : Files} {index : IdentityIndex} {m m' : Minter}
  {settings : Settings}

theorem openExistingIndex (h : Remembers path format databaseAt report res.cache files)
    (ht : files.target settings.database = .ok databaseAt) :
    ∃ tables, files.openExistingIndex settings.database = .ok ⟨databaseAt, tables⟩ ∧
      tables.Stores res.cache := by
  obtain ⟨tables, hn, -, hs⟩ := h.exists_tables
  exact ⟨tables, (Files.openExistingIndex_eq_ok_iff ht).mpr
    ⟨rfl, Files.tablesAt_eq_ok_iff.mpr ⟨h.not_mem_inUse, .inl hn⟩⟩, hs⟩

theorem resolveNamed (h : Remembers path format databaseAt report res.cache files)
    (hres : (report.resolve index).run m = (.ok res, m'))
    (hf : format' = format ∨ format' = none)
    (ht : files.target settings.database = .ok databaseAt) (fresh : Minter) :
    Command.resolveNamed settings fresh path format' files =
      .ok ⟨res.cache, { res.stats with reused := res.stats.resolved, minted := 0 }⟩ := by
  obtain ⟨tables, ho, hs⟩ := h.openExistingIndex ht
  rw [Command.resolveNamed, h.readNamed_eq format' hf]
  change files.openExistingIndex settings.database >>= _ = _
  rw [ho]
  exact Resolution.resolveStored_of_stored hres hs settings.deterministicIds fresh

theorem runResolve_record (h : Remembers path format databaseAt report res.cache files)
    (hres : (report.resolve index).run m = (.ok res, m'))
    (hf : format' = format ∨ format' = none)
    (ht : files.target settings.database = .ok databaseAt) (fresh : Minter) :
    ∃ files', (Command.runResolve settings fresh path format' true).run files =
      (.ok (.resolved path settings.database res.cache.toList
        { res.stats with reused := res.stats.resolved, minted := 0 } (some 0)), files') := by
  obtain ⟨tables, hn, hi, hs⟩ := h.exists_tables
  obtain ⟨r, n, hid, rfl, -⟩ := Resolution.exists_identified_of_resolve hres
  have ho : files.openIndex settings.database = .ok (⟨databaseAt, tables⟩,
      files.put databaseAt (.database tables)) :=
    Files.openIndex_eq_ok_iff.mpr
      ⟨ht, Files.tablesAt_eq_ok_iff.mpr ⟨h.not_mem_inUse, .inl hn⟩, rfl⟩
  have hc := IdentityTables.changes_of_stored hi hid.consistent hs
  have hrec : (files.put databaseAt (.database tables)).record ⟨databaseAt, tables⟩
      (r.resolution report).cache = .ok (⟨databaseAt, tables⟩, 0,
        files.put databaseAt (.database tables)) := by
    rw [Files.record, show tables.changes (r.resolution report).cache = .ok [] from hc]
    rfl
  exact ⟨files.put databaseAt (.database tables), Command.runResolve_record_eq_ok_iff.mpr
    ⟨report, _, _, _, _, _, h.readNamed_eq format' hf, ho,
      Resolution.resolveStored_of_stored hres hs settings.deterministicIds fresh, hrec, rfl⟩⟩

theorem continues (h : Remembers path format databaseAt report res.cache files)
    (hres : (report.resolve index).run m = (.ok res, m')) :
    Continues path format databaseAt report res files where
  ref_eq := (Resolution.isComplete_of_traced hres).ref_eq
  mem_toList_iff _ _ := RefCache.mem_toList_iff
  isSome_iff ref :=
    Option.isSome_iff_exists.trans ((Resolution.isComplete_of_traced hres).stored_iff ref)
  lookup call settings format' ref hask hf ht := by
    have hfound : ∃ text, (call.run files).1 = .printed text ∧
        (Answer.found ref (res.cache.get? ref)).Shows settings text := by
      refine call.shows_of_reads hask Command.reads_runLookup ?_
      rw [h.resolveNamed hres hf ht call.fresh]
      rfl
    obtain ⟨invocation, hwords, hc, -⟩ := hask
    obtain ⟨hgiven, href⟩ := hwords.isRef_of_names hc
    exact ⟨hgiven, href, hfound⟩
  resolve call settings format' record hask hf ht := by
    cases record with
    | true =>
      obtain ⟨files', hr⟩ := h.runResolve_record hres hf ht call.fresh
      exact call.shows_of_run hask hr
    | false =>
      refine call.shows_of_reads hask Command.reads_runResolve ?_
      rw [h.resolveNamed hres hf ht call.fresh]
      rfl
  index call settings hask ht := by
    obtain ⟨tables, ho, hs⟩ := h.openExistingIndex ht
    have hlisted : (do
        let index ← files.openExistingIndex settings.database
        return .listed settings.database index.tables.entries : Except Error Answer) =
        .ok (.listed settings.database tables.entries) := by
      rw [ho]
      rfl
    obtain ⟨text, hprinted, hshows⟩ := call.shows_of_reads hask Command.reads_runIndex hlisted
    refine ⟨text, tables.entries, hprinted, hshows, fun x c hx => ?_⟩
    exact Std.ExtTreeMap.mem_toList_iff_getElem?_eq_some.mpr (hs x c hx)

end Remembers

variable {files : Files} {call : Call} {settings : Settings} {path : Path}
  {format : Option String} {text : String} {reportAt databaseAt : Location} {calls : List Call}

/-- What a call prints that resolves and records comes from a resolution that its database has
afterwards. -/
theorem Call.exists_recorded (hask : call.Asks files settings (.resolve path format true))
    (hprinted : (call.run files).1 = .printed text)
    (hdatabase : files.target settings.database = .ok databaseAt)
    (hcreated : ∀ tables, files.node? databaseAt = some (.database tables) → tables.Recorded) :
    ∃ report index m m' res n, readNamed files path format = .ok report ∧
      (report.resolve index).run m = (.ok res, m') ∧ databaseAt ∉ files.inUse ∧
      (Answer.resolved path settings.database res.cache.toList res.stats (some n)).Shows
        settings text ∧
      ∃ tables, (call.run files).2.node? databaseAt = some (.database tables) ∧ tables.Inverse ∧
        tables.Stores res.cache := by
  rw [run_of_asks hask] at hprinted ⊢
  rcases hr : (Command.run settings call.fresh (.resolve path format true)).run files with
    ⟨e | answer, files₁⟩
  · rw [hr] at hprinted
    cases hprinted
  rw [hr] at hprinted
  cases hprinted
  obtain ⟨report, opened, files₂, res, recorded, n, hread, ho, hres, hrec, rfl⟩ :=
    Command.runResolve_record_eq_ok_iff.mp hr
  obtain ⟨ht, htables, -⟩ := Files.openIndex_eq_ok_iff.mp ho
  cases hdatabase.symm.trans ht
  obtain ⟨hu, htables⟩ := Files.tablesAt_eq_ok_iff.mp htables
  have hi : opened.tables.Inverse := by
    rcases htables with hn | ⟨-, he, -⟩
    · exact (hcreated _ hn).inverse
    · rw [he]
      exact IdentityTables.inverse_empty
  rw [Report.resolveStored_eq_resolve] at hres
  obtain ⟨tables, hn, hi', -, hs⟩ := Files.exists_recorded ho hi (Prod.ext hres rfl) hrec
  exact ⟨report, _, _, _, res, n, hread, Prod.ext hres rfl, hu,
    Answer.shows_render settings _, tables, hn, hi', hs⟩

/-- A report that was resolved and recorded keeps its identities over every session that writes over
neither its file nor its database and removes neither. -/
theorem continues_after_session (hw : files.workingDirectory.IsPlain)
    (hask : call.Asks files settings (.resolve path format true))
    (hprinted : (call.run files).1 = .printed text)
    (hreport : files.inputLocation path = .ok reportAt)
    (hdatabase : files.target settings.database = .ok databaseAt)
    (hcreated : ∀ tables, files.node? databaseAt = some (.database tables) → tables.Recorded)
    (hspareReport : Spares reportAt (call.run files).2 calls)
    (hspareDatabase : Spares databaseAt (call.run files).2 calls) :
    ∃ report res n, readNamed files path format = .ok report ∧
      (Answer.resolved path settings.database res.cache.toList res.stats (some n)).Shows
        settings text ∧
      (session (call.run files).2 calls).target settings.database = .ok databaseAt ∧
      Continues path format databaseAt report res (session (call.run files).2 calls) := by
  obtain ⟨report, index, m, m', res, n, hread, hres, hu, hshows, tables₁, hn₁, hi₁, hs₁⟩ :=
    Call.exists_recorded hask hprinted hdatabase hcreated
  obtain ⟨he₁, hu₁⟩ := call.extends_and_inUse files
  obtain ⟨he₂, hu₂⟩ := session_extends_and_inUse (call.run files).2 calls
  obtain ⟨tables, hn, hi, hentries⟩ := (session_keeps hspareDatabase).2 tables₁ hn₁ hi₁
  obtain ⟨f, -, hr⟩ := Command.readNamed_eq_ok_iff.mp hread
  obtain ⟨b, bytes, hfile⟩ := Files.exists_file_of_readReport hr hreport
  have hkept : Keeps reportAt files (session (call.run files).2 calls) := by
    have hspared : call.destination? files = none := Call.destination?_of_asks hask
    exact (call.keeps (by simp [hspared])).trans (session_keeps hspareReport)
  have hnode := (hkept.1 b bytes hfile).trans hfile.symm
  have hext := he₁.trans he₂
  have hremembers : Remembers path format databaseAt report res.cache
      (session (call.run files).2 calls) :=
    ⟨fun _ hf => Command.readNamed_again hext hw hread hreport hnode hf,
      fun hm => hu (hu₁ _ (hu₂ _ hm)),
      tables, hn, hi, hs₁.mono hentries⟩
  exact ⟨report, res, n, hread, hshows, hext.target hdatabase (by simp [hn]),
    hremembers.continues hres⟩

/-- A project with one module, in a working directory with nothing else. -/
def oneModule : Files where
  workingDirectory := ["work"]
  nodes := Std.ExtTreeMap.ofList [(["work"], Node.directory), (["work", "r.json"],
    .file (Bytes.ofText "[[1], [[1, \"PROJECT\", \"P\", null, [2]], [2, \"MODULE\", \"M\"]]]"))]

def recording : Call where
  args := ["resolve", "-q", "-r", "r.json", "--record"]
  env _ := none
  fresh := .ofList ["u", "v"]

/-- The report is encoded, recorded again in its other form and listed, another database is made,
and an encoding over the report fails for want of its input. -/
def business : List Call :=
  [["encode", "-i", "r.json", "-o", "r.bin"], ["resolve", "-r", "r.bin", "--record"], ["index"],
    ["init", "--force", "-D", "other.db"], ["init", "--force", "-D", "other.db"],
    ["encode", "-i", "none.json", "-o", "r.json"]].map
    fun args => ⟨args, fun _ => none, .ofList ["w"]⟩

def lookingUp (flags : List String) : Call where
  args := flags ++ ["lookup", "-r", "r.json", "--ref", "2"]
  env _ := none
  fresh := .ofList []

theorem continues_after_business :
    ∃ settings : Settings, recording.Asks oneModule settings (.resolve "r.json" none true) ∧
      (recording.run oneModule).1 = .printed "       1  u  P\n       2  v  M\n" ∧
      Spares ["work", "r.json"] (recording.run oneModule).2 business ∧
      Spares ["work", "compref.db"] (recording.run oneModule).2 business ∧
      ((lookingUp []).run (session (recording.run oneModule).2 business)).1 =
        .printed "Ref:  2\nKey:  M\nUUID: v\n" ∧
      ((lookingUp ["--json-mode"]).run (session (recording.run oneModule).2 business)).1 =
        .printed ("\x7b\n  \"found\": true,\n  \"component\": \x7b\n    \"ref\": 2,\n" ++
          "    \"key\": \"M\",\n    \"uuid\": \"v\"\n  \x7d\n\x7d\n") ∧
      ∃ report res n, readNamed oneModule "r.json" none = .ok report ∧
        (Answer.resolved "r.json" settings.database res.cache.toList res.stats (some n)).Shows
          settings "       1  u  P\n       2  v  M\n" ∧
        (session (recording.run oneModule).2 business).target settings.database =
          .ok ["work", "compref.db"] ∧
        Continues "r.json" none ["work", "compref.db"] report res
          (session (recording.run oneModule).2 business) := by
  have hask : recording.Asks oneModule ⟨"compref.db", .text, false, false, true, false⟩
      (.resolve "r.json" none true) :=
    ⟨⟨.resolve "r.json" none true, none, { quiet := true }⟩,
      Arguments.parse_eq_ok_iff.mp (by decide +kernel), rfl, by decide +kernel⟩
  have hprinted : (recording.run oneModule).1 = .printed "       1  u  P\n       2  v  M\n" := by
    decide +kernel
  have hreport : Spares ["work", "r.json"] (recording.run oneModule).2 business := by
    decide +kernel
  have hdatabase : Spares ["work", "compref.db"] (recording.run oneModule).2 business := by
    decide +kernel
  have hnone : oneModule.node? ["work", "compref.db"] = none := by decide +kernel
  exact ⟨_, hask, hprinted, hreport, hdatabase, by decide +kernel, by decide +kernel,
    continues_after_session (by decide +kernel) hask hprinted (by decide +kernel)
      (by decide +kernel) (fun _ h => nomatch hnone.symm.trans h) hreport hdatabase⟩

end CommandLine

end ComponentIdentity
