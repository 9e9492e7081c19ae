import ComponentIdentity.CommandLine
import ComponentIdentity.Proofs.Paths
import ComponentIdentity.Proofs.Publication

/-! # What commands do to the files

Some commands only read. The others open the database of their settings, record
into it, or write over one place or free it.
-/

namespace ComponentIdentity

namespace Filing

variable {α β : Type} {x : Filing α} {f : Files → Except Error α} {files : Files}

theorem run_bind_of_ok {g : α → Filing β} {a : α} {files₁ : Files}
    (h : x.run files = (.ok a, files₁)) : (x >>= g).run files = (g a).run files₁ := by
  rw [Stateful.run_bind, h]

/-- The computation leaves the files as they are and gives what the function says of them. -/
def Reads (x : Filing α) (f : Files → Except Error α) : Prop :=
  ∀ files, x.run files = (f files, files)

theorem reads_pure (a : α) : Reads (pure a) fun _ => pure a := fun _ => rfl

theorem reads_get : Reads get fun files => .ok files := fun _ => rfl

theorem reads_lift (x : Except Error α) : Reads (liftM x) fun _ => x := fun _ => rfl

theorem reads_look (f : Files → Except Error α) : Reads (look f) f := fun _ => rfl

theorem run_change (f : Files → Except Error (α × Files)) :
    (change f).run files =
      match f files with
      | .error e => (.error e, files)
      | .ok (a, files) => (.ok a, files) := by
  unfold change
  rw [run_bind_of_ok (reads_get files)]
  simp only [Stateful.run_bind, Stateful.run_lift]
  rcases f files with e | ⟨a, files'⟩ <;> rfl

theorem run_change_of_ok {f : Files → Except Error (α × Files)} {a : α} {files₁ : Files}
    (h : f files = .ok (a, files₁)) : (change f).run files = (.ok a, files₁) := by
  rw [run_change, h]

theorem Reads.eq {y : Except Error α} {files' : Files} (hx : Reads x f)
    (h : x.run files = (y, files')) : f files = y ∧ files' = files := by
  rw [hx files] at h
  cases h
  exact ⟨rfl, rfl⟩

theorem Reads.run_of_ok {a : α} (hx : Reads x f) (h : f files = .ok a) :
    x.run files = (.ok a, files) := by
  rw [hx files, h]

theorem Reads.bind {g : α → Filing β} {h : α → Files → Except Error β} (hx : Reads x f)
    (hg : ∀ a, Reads (g a) (h a)) : Reads (x >>= g) fun files => f files >>= (h · files) := by
  intro files
  rw [Stateful.run_bind, hx files]
  dsimp only
  cases f files with
  | error e => rfl
  | ok a => exact hg a files

variable {g : α → Filing β} {y : Except Error β} {files' : Files}

theorem Reads.bind_cases (hx : Reads x f) (h : (x >>= g).run files = (y, files')) :
    (∃ e, f files = .error e ∧ y = .error e ∧ files' = files) ∨
      ∃ a, f files = .ok a ∧ (g a).run files = (y, files') := by
  rw [Stateful.run_bind, hx files] at h
  cases hf : f files with
  | error e =>
    rw [hf] at h
    cases h
    exact .inl ⟨e, rfl, rfl, rfl⟩
  | ok a =>
    rw [hf] at h
    exact .inr ⟨a, rfl, h⟩

theorem change_bind_cases {f : Files → Except Error (α × Files)}
    (h : (change f >>= g).run files = (y, files')) :
    (∃ e, f files = .error e ∧ y = .error e ∧ files' = files) ∨
      ∃ a files₁, f files = .ok (a, files₁) ∧ (g a).run files₁ = (y, files') := by
  rw [Stateful.run_bind, run_change] at h
  rcases hf : f files with e | ⟨a, files₁⟩
  · rw [hf] at h
    cases h
    exact .inl ⟨e, rfl, rfl, rfl⟩
  · rw [hf] at h
    exact .inr ⟨a, files₁, rfl, h⟩

end Filing

theorem Files.remove_eq_ok_iff {files files' : Files} {path : Path} :
    files.remove path = .ok files' ↔ ∃ l node, files.lookup path = .ok (l, node) ∧
      node ≠ .directory ∧ files' = files.erase l := by
  simp only [remove, Except.bind_eq_ok_iff, Prod.exists]
  refine exists_congr fun l => exists_congr fun node => and_congr_right fun _ => ?_
  cases node <;> simp [throw, throwThe, MonadExceptOf.throw, pure, Except.pure, eq_comm]

namespace Command

open Filing (Reads reads_get reads_pure reads_lift reads_look)

variable {settings : Settings} {fresh : Minter} {path input output : Path}
  {format : Option String} {record force : Bool} {ref : Ref} {files files' : Files}

def readNamed (files : Files) (path : Path) (format : Option String) : Except Error Report := do
  files.readReport path (← parseFormat format)

theorem readNamed_eq_ok_iff {report : Report} :
    readNamed files path format = .ok report ↔
      ∃ f, parseFormat format = .ok f ∧ files.readReport path f = .ok report :=
  Except.bind_eq_ok_iff

/-- The index of a database that exists, and what a report resolves to against it. -/
def resolveNamed (settings : Settings) (fresh : Minter) (path : Path) (format : Option String)
    (files : Files) : Except Error Resolution := do
  let r ← readNamed files path format
  let index ← files.openExistingIndex settings.database
  r.resolveStored settings.deterministicIds index.tables fresh

theorem reads_runLookup : Reads (runLookup settings fresh path format ref) fun files => do
    let res ← resolveNamed settings fresh path format files
    return .found ref (res.cache.get? ref) := by
  have h := (reads_lift (parseFormat format)).bind fun f =>
    (reads_look (·.readReport path f)).bind fun r =>
      (reads_look (·.openExistingIndex settings.database)).bind fun index =>
        (reads_lift (r.resolveStored settings.deterministicIds index.tables fresh)).bind fun res =>
          reads_pure (Answer.found ref (res.cache.get? ref))
  simpa only [resolveNamed, readNamed, bind_assoc, runLookup] using h

theorem reads_runResolve : Reads (runResolve settings fresh path format false) fun files => do
    let res ← resolveNamed settings fresh path format files
    return .resolved path settings.database res.cache.toList res.stats none := by
  have h := (reads_lift (parseFormat format)).bind fun f =>
    (reads_look (·.readReport path f)).bind fun r =>
      (reads_look (·.openExistingIndex settings.database)).bind fun index =>
        (reads_lift (r.resolveStored settings.deterministicIds index.tables fresh)).bind fun res =>
          reads_pure (Answer.resolved path settings.database res.cache.toList res.stats none)
  simpa only [resolveNamed, readNamed, bind_assoc, runResolve, Bool.false_eq_true, if_false] using h

theorem reads_runIndex : Reads (runIndex settings) fun files => do
    let index ← files.openExistingIndex settings.database
    return .listed settings.database index.tables.entries :=
  (reads_look (·.openExistingIndex settings.database)).bind fun index =>
    reads_pure (Answer.listed settings.database index.tables.entries)

/-- The place that a command writes over or frees; to open a database and to record into it is
neither. -/
def destination? (settings : Settings) (files : Files) : Command → Option Location
  | encode input output => do
    let place ← (files.outputLocation output).toOption
    let _ ← (files.readReport input (some .json)).toOption
    (files.target place.toPath).toOption
  | init true =>
    match files.lookup settings.database with
    | .error _ | .ok (_, .directory) => none
    | .ok (l, _) => some l
  | _ => none

/-- The command makes its database if there is none. -/
def creates : Command → Bool
  | resolve _ _ record => record
  | init _ => true
  | _ => false

/-- What a command can leave behind, whether it succeeds or not. -/
inductive Leaves (settings : Settings) (files : Files) : Command → Files → Prop where
  | same {command : Command} : Leaves settings files command files
  | opened {command : Command} {opened : OpenIndex} {files' : Files} :
      command.creates = true → files.openIndex settings.database = .ok (opened, files') →
      Leaves settings files command files'
  | recorded {path : Path} {format : Option String} {opened recorded : OpenIndex} {report : Report}
      {m m' : Minter} {res : Resolution} {n : Nat} {files₁ files' : Files} :
      files.openIndex settings.database = .ok (opened, files₁) →
      (report.resolve opened.tables.toIndex).run m = (.ok res, m') →
      files₁.record opened res.cache = .ok (recorded, n, files') →
      Leaves settings files (.resolve path format true) files'
  | encoded {input output : Path} {place l : Location} {report : Report} {bytes : Bytes} :
      files.outputLocation output = .ok place →
      files.readReport input (some .json) = .ok report → files.target place.toPath = .ok l →
      Leaves settings files (.encode input output) (files.put l (.file bytes))
  | removed {l : Location} {node : Node} :
      files.lookup settings.database = .ok (l, node) → node ≠ .directory →
      Leaves settings files (.init true) (files.erase l)
  | renewed {l : Location} {node : Node} {opened : OpenIndex} {files' : Files} :
      files.lookup settings.database = .ok (l, node) → node ≠ .directory →
      (files.erase l).openIndex settings.database = .ok (opened, files') →
      Leaves settings files (.init true) files'

/-- A resolution that is recorded stops before it opens the database, or before it records, or
succeeds. -/
theorem runResolve_record_cases {y : Except Error Answer}
    (h : (runResolve settings fresh path format true).run files = (y, files')) :
    (files' = files ∧ ∃ e, y = .error e) ∨
      ∃ report opened files₁, readNamed files path format = .ok report ∧
        files.openIndex settings.database = .ok (opened, files₁) ∧
        ((files' = files₁ ∧ ∃ e, y = .error e) ∨
          ∃ res recorded n,
            report.resolveStored settings.deterministicIds opened.tables fresh = .ok res ∧
            files₁.record opened res.cache = .ok (recorded, n, files') ∧
            y = .ok (.resolved path settings.database res.cache.toList res.stats (some n))) := by
  rcases (reads_lift (parseFormat format)).bind_cases h with ⟨e, -, he, hs⟩ | ⟨f, hp, h⟩
  · exact .inl ⟨hs, e, he⟩
  rcases (reads_look (·.readReport path f)).bind_cases h with ⟨e, -, he, hs⟩ | ⟨r, hr, h⟩
  · exact .inl ⟨hs, e, he⟩
  rcases Filing.change_bind_cases h with ⟨e, -, he, hs⟩ | ⟨opened, files₁, ho, h⟩
  · exact .inl ⟨hs, e, he⟩
  refine .inr ⟨r, opened, files₁, readNamed_eq_ok_iff.mpr ⟨f, hp, hr⟩, ho, ?_⟩
  rcases (reads_lift (r.resolveStored settings.deterministicIds opened.tables fresh)).bind_cases h
    with ⟨e, -, he, hs⟩ | ⟨res, hres, h⟩
  · exact .inl ⟨hs, e, he⟩
  rcases Filing.change_bind_cases h with ⟨e, -, he, hs⟩ | ⟨n, files₂, hrec, h⟩
  · exact .inl ⟨hs, e, he⟩
  cases h
  obtain ⟨⟨recorded, n', files₂⟩, hrec, he⟩ := Except.bind_eq_ok_iff.mp hrec
  cases he
  exact .inr ⟨res, recorded, n, hres, hrec, rfl⟩

theorem runResolve_record_eq_ok_iff {answer : Answer} :
    (runResolve settings fresh path format true).run files = (.ok answer, files') ↔
      ∃ report opened files₁ res recorded n, readNamed files path format = .ok report ∧
        files.openIndex settings.database = .ok (opened, files₁) ∧
        report.resolveStored settings.deterministicIds opened.tables fresh = .ok res ∧
        files₁.record opened res.cache = .ok (recorded, n, files') ∧
        answer = .resolved path settings.database res.cache.toList res.stats (some n) := by
  constructor
  · intro h
    rcases runResolve_record_cases h with ⟨-, _, ⟨⟩⟩ |
      ⟨r, opened, files₁, hread, ho, ⟨-, _, ⟨⟩⟩ | ⟨res, recorded, n, hres, hrec, he⟩⟩
    exact ⟨r, opened, files₁, res, recorded, n, hread, ho, hres, hrec, Except.ok.inj he⟩
  · rintro ⟨r, opened, files₁, res, recorded, n, hread, ho, hres, hrec, rfl⟩
    obtain ⟨f, hp, hr⟩ := readNamed_eq_ok_iff.mp hread
    have hrec' : (files₁.record opened res.cache >>= fun r => pure (r.2.1, r.2.2)) =
        (.ok (n, files') : Except Error (Nat × Files)) := by
      rw [hrec]
      rfl
    unfold runResolve
    rw [Filing.run_bind_of_ok ((Filing.reads_lift (parseFormat format)).run_of_ok hp),
      Filing.run_bind_of_ok ((Filing.reads_look (·.readReport path f)).run_of_ok hr), if_pos rfl,
      Filing.run_bind_of_ok (Filing.run_change_of_ok ho),
      Filing.run_bind_of_ok ((Filing.reads_lift (r.resolveStored settings.deterministicIds
        opened.tables fresh)).run_of_ok hres),
      Filing.run_bind_of_ok (Filing.run_change_of_ok hrec')]
    rfl

theorem leaves_runResolve {y : Except Error Answer}
    (h : (runResolve settings fresh path format true).run files = (y, files')) :
    Leaves settings files (.resolve path format true) files' := by
  rcases runResolve_record_cases h with ⟨rfl, -⟩ |
    ⟨r, opened, files₁, -, ho, ⟨rfl, -⟩ | ⟨res, recorded, n, hres, hrec, -⟩⟩
  · exact .same
  · exact .opened rfl ho
  · rw [Report.resolveStored_eq_resolve] at hres
    exact .recorded ho (Prod.ext hres rfl) hrec

theorem runEncode_cases {y : Except Error Answer}
    (h : (runEncode input output).run files = (y, files')) :
    (files' = files ∧ ∃ e, y = .error e) ∨
      ∃ place l report, files.outputLocation output = .ok place ∧
        files.readReport input (some .json) = .ok report ∧ files.target place.toPath = .ok l ∧
        files' = files.put l (.file report.toBytes) ∧
        y = .ok (.encoded place.toPath report.toBytes.length report.size) := by
  rcases (reads_look (·.outputLocation output)).bind_cases h with ⟨e, -, he, hs⟩ | ⟨place, hp, h⟩
  · exact .inl ⟨hs, e, he⟩
  rcases (reads_look (·.readReport input (some .json))).bind_cases h
    with ⟨e, -, he, hs⟩ | ⟨r, hr, h⟩
  · exact .inl ⟨hs, e, he⟩
  rcases Filing.change_bind_cases h with ⟨e, -, he, hs⟩ | ⟨_, files₁, hw, h⟩
  · exact .inl ⟨hs, e, he⟩
  cases h
  obtain ⟨_, hw, he⟩ := Except.bind_eq_ok_iff.mp hw
  cases he
  obtain ⟨l, hl, he⟩ := Except.bind_eq_ok_iff.mp (Except.mapError_eq_ok_iff.mp hw)
  cases he
  exact .inr ⟨place, l, r, hp, hr, hl, rfl, rfl⟩

theorem leaves_runEncode {y : Except Error Answer}
    (h : (runEncode input output).run files = (y, files')) :
    Leaves settings files (.encode input output) files' := by
  rcases runEncode_cases h with ⟨rfl, -⟩ | ⟨place, l, r, hp, hr, hl, rfl, -⟩
  · exact .same
  · exact .encoded hp hr hl

/-- An `init` changes nothing, or removes what is there and opens its database anew, or opens it
where nothing is. -/
theorem runInit_cases {y : Except Error Answer}
    (h : (runInit settings force).run files = (y, files')) :
    (files' = files ∧ ∃ e, y = .error e) ∨
      (force = true ∧ ∃ l node, files.lookup settings.database = .ok (l, node) ∧
        node ≠ .directory ∧
        ((files' = files.erase l ∧ ∃ e, (files.erase l).openIndex settings.database = .error e) ∨
          ∃ opened, (files.erase l).openIndex settings.database = .ok (opened, files') ∧
            y = .ok (.initialized settings.database))) ∨
      (files.isPresent settings.database = false ∧
        ∃ opened, files.openIndex settings.database = .ok (opened, files') ∧
          y = .ok (.initialized settings.database)) := by
  unfold runInit at h
  rcases reads_get.bind_cases h with ⟨_, hfiles, -, -⟩ | ⟨_, hfiles, hrun⟩
  · cases hfiles
  cases hfiles
  split at hrun
  · split at hrun
    next hforce =>
      rcases Filing.change_bind_cases hrun with ⟨e, -, he, hs⟩ | ⟨_, files₁, hr, hrun⟩
      · exact .inl ⟨hs, e, he⟩
      obtain ⟨_, hr, he⟩ := Except.bind_eq_ok_iff.mp hr
      cases he
      obtain ⟨l, node, hl, hn, rfl⟩ :=
        Files.remove_eq_ok_iff.mp (Except.mapError_eq_ok_iff.mp hr)
      refine .inr (.inl ⟨hforce, l, node, hl, hn, ?_⟩)
      rcases Filing.change_bind_cases hrun with ⟨e, ho, -, hs⟩ | ⟨opened, files₂, ho, hrun⟩
      · exact .inl ⟨hs, e, ho⟩
      · cases hrun
        exact .inr ⟨opened, ho, rfl⟩
    next =>
      cases hrun
      exact .inl ⟨rfl, _, rfl⟩
  next hp =>
    rcases Filing.change_bind_cases hrun with ⟨e, -, he, hs⟩ | ⟨opened, files₁, ho, hrun⟩
    · exact .inl ⟨hs, e, he⟩
    · cases hrun
      exact .inr (.inr ⟨Bool.eq_false_iff.mpr hp, opened, ho, rfl⟩)

theorem leaves_runInit {y : Except Error Answer}
    (h : (runInit settings force).run files = (y, files')) :
    Leaves settings files (.init force) files' := by
  rcases runInit_cases h with ⟨rfl, -⟩ |
    ⟨rfl, l, node, hl, hn, ⟨rfl, -⟩ | ⟨opened, ho, -⟩⟩ | ⟨-, opened, ho, -⟩
  · exact .same
  · exact .removed hl hn
  · exact .renewed hl hn ho
  · exact .opened rfl ho

/-- Every command leaves what its kind can leave. -/
theorem leaves_run {command : Command} {y : Except Error Answer}
    (h : (command.run settings fresh).run files = (y, files')) :
    Leaves settings files command files' := by
  cases command with
  | resolve path format record =>
    cases record with
    | true => exact leaves_runResolve h
    | false => exact (reads_runResolve.eq h).2 ▸ .same
  | lookup path format ref => exact (reads_runLookup.eq h).2 ▸ .same
  | encode input output => exact leaves_runEncode h
  | index => exact (reads_runIndex.eq h).2 ▸ .same
  | init force => exact leaves_runInit h

end Command

end ComponentIdentity
