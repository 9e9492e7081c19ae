import ComponentIdentity.Proofs.Commands
import ComponentIdentity.Proofs.Invocations
import ComponentIdentity.Proofs.Rounds

/-! # Sessions on the command line

Whatever a call does, directories stay, a file that is not empty stays as it is
unless the call writes over it or frees its place, and so does a database, save
for the entries that recording adds. So they stay over every session that spares
them.
-/

namespace ComponentIdentity

/-- The entries of the first tables are entries of the second. -/
def IdentityTables.EntriesIn (tables tables' : IdentityTables) : Prop :=
  ∀ key uuid, tables.uuidForKey key = some uuid → tables'.uuidForKey key = some uuid

/-- The tables have the identifier of every component of the cache. -/
def IdentityTables.Stores (tables : IdentityTables) (cache : RefCache) : Prop :=
  ∀ x c, cache.get? x = some c → tables.uuidForKey c.key = some c.uuid

theorem IdentityTables.Stores.mono {tables tables' : IdentityTables} {cache : RefCache}
    (h : tables.Stores cache) (he : tables.EntriesIn tables') : tables'.Stores cache :=
  fun x c hx => he c.key c.uuid (h x c hx)

namespace Files

variable {files files' : Files} {l : Location} {path : Path} {opened recorded : OpenIndex}
  {cache : RefCache} {n : Nat}

theorem openIndex_location (h : files.openIndex path = .ok (opened, files')) :
    opened.location ≠ [] ∧ files.node? opened.location ≠ some .directory ∧
      files' = files.put opened.location (.database opened.tables) := by
  obtain ⟨ht, -, rfl⟩ := openIndex_eq_ok_iff.mp h
  exact ⟨target_ne_nil ht, node?_target_ne_directory ht, rfl⟩

theorem extends_of_openIndex (h : files.openIndex path = .ok (opened, files')) :
    Extends files files' := by
  obtain ⟨hl, hd, rfl⟩ := openIndex_location h
  exact extends_put hl hd

theorem node?_opened (h : files.openIndex path = .ok (opened, files')) :
    files'.node? opened.location = some (.database opened.tables) := by
  obtain ⟨hl, -, rfl⟩ := openIndex_location h
  rw [node?_put hl, if_pos rfl]

theorem node?_of_openIndex {node : Node} (h : files.openIndex path = .ok (opened, files'))
    (hn : files.node? l = some node) (hne : node ≠ .file []) : files'.node? l = some node := by
  obtain ⟨hl, -, rfl⟩ := openIndex_location h
  rw [node?_put hl]
  split
  next he =>
    subst he
    obtain ⟨-, ht, -⟩ := openIndex_eq_ok_iff.mp h
    rcases (tablesAt_eq_ok_iff.mp ht).2 with hd | ⟨-, -, hd | hd⟩
    · exact hd.symm.trans hn
    · cases hd.symm.trans hn
    · cases hd.symm.trans hn
      exact absurd rfl hne
  · exact hn

theorem inUse_of_openIndex (h : files.openIndex path = .ok (opened, files')) :
    files'.inUse = files.inUse := by
  obtain ⟨-, -, rfl⟩ := openIndex_location h
  rfl

/-- A record of an open index changes its database, by the changes of the run. -/
theorem record_cases (hl : opened.location ≠ [])
    (hn : files.node? opened.location = some (.database opened.tables))
    (h : files.record opened cache = .ok (recorded, n, files')) :
    ∃ changes, opened.tables.changes cache = .ok changes ∧ n = changes.length ∧
      Extends files files' ∧ files'.inUse = files.inUse ∧
      ∀ l, files'.node? l =
        if opened.location = l then some (.database (opened.tables.apply changes))
        else files.node? l := by
  obtain ⟨changes, hc, he⟩ := Except.bind_eq_ok_iff.mp h
  cases he
  refine ⟨changes, hc, rfl, ?_⟩
  cases changes with
  | nil =>
    refine ⟨.refl, rfl, fun l => ?_⟩
    rw [List.isEmpty_nil, if_pos rfl]
    split
    next he => exact he ▸ hn
    · rfl
  | cons change changes =>
    rw [List.isEmpty_cons, if_neg Bool.false_ne_true, commit, hn]
    exact ⟨extends_put hl (by simp [hn]), rfl, fun l => node?_put hl⟩

theorem exists_recorded {report : Report} {m m' : Minter} {res : Resolution} {files₁ : Files}
    (ho : files.openIndex path = .ok (opened, files₁)) (hi : opened.tables.Inverse)
    (hres : (report.resolve opened.tables.toIndex).run m = (.ok res, m'))
    (h : files₁.record opened res.cache = .ok (recorded, n, files')) :
    ∃ tables, files'.node? opened.location = some (.database tables) ∧ tables.Inverse ∧
      opened.tables.EntriesIn tables ∧ tables.Stores res.cache := by
  obtain ⟨hl, -, -⟩ := openIndex_location ho
  obtain ⟨changes, hc, -, -, -, hn⟩ := record_cases hl (node?_opened ho) h
  obtain ⟨hcons, hsuits, -⟩ := Resolution.suits_of_resolve hres
  have hgains := hsuits.gains hi hcons
  cases hc.symm.trans (hsuits.changes_eq hi hcons)
  exact ⟨_, (hn _).trans (if_pos rfl), hi.apply hcons hc, hgains.kept, hgains.stored⟩

/-- What stays at a place: a file that is not empty, or a database with its entries. -/
def Keeps (l : Location) (files files' : Files) : Prop :=
  (∀ b bytes, files.node? l = some (.file (b :: bytes)) →
    files'.node? l = some (.file (b :: bytes))) ∧
  ∀ tables, files.node? l = some (.database tables) → tables.Inverse →
    ∃ tables', files'.node? l = some (.database tables') ∧ tables'.Inverse ∧
      tables.EntriesIn tables'

theorem Keeps.of_node?_eq (h : ∀ node, files.node? l = some node → node ≠ .file [] →
    files'.node? l = some node) : Keeps l files files' :=
  ⟨fun _ _ hn => h _ hn (by simp), fun tables hn hi =>
    ⟨tables, h _ hn (by simp), hi, fun _ _ hk => hk⟩⟩

theorem Keeps.refl : Keeps l files files := .of_node?_eq fun _ hn _ => hn

theorem Keeps.trans {files'' : Files} (h : Keeps l files files') (h' : Keeps l files' files'') :
    Keeps l files files'' := by
  refine ⟨fun b bytes hn => h'.1 b bytes (h.1 b bytes hn), fun tables hn hi => ?_⟩
  obtain ⟨tables₁, hn₁, hi₁, he₁⟩ := h.2 tables hn hi
  obtain ⟨tables₂, hn₂, hi₂, he₂⟩ := h'.2 tables₁ hn₁ hi₁
  exact ⟨tables₂, hn₂, hi₂, fun key uuid hk => he₂ key uuid (he₁ key uuid hk)⟩

theorem lookup_of_removed {node : Node} (h : files.lookup path = .ok (l, node))
    (hd : node ≠ .directory) : l ≠ [] ∧ files.node? l ≠ some .directory := by
  obtain ⟨-, hn⟩ := lookup_eq_ok_iff_resolve.mp h
  have hdir : files.node? l ≠ some .directory := by
    rw [hn, ne_eq, Option.some.injEq]
    exact hd
  exact ⟨by rintro rfl; exact hdir rfl, hdir⟩

theorem keeps_erase {l' : Location} (hl' : l' ≠ []) (hne : l' ≠ l) :
    Keeps l files (files.erase l') := by
  refine .of_node?_eq fun node hn _ => ?_
  rw [node?_erase hl', if_neg hne, hn]

theorem keeps_of_openIndex (h : files.openIndex path = .ok (opened, files')) :
    Keeps l files files' := .of_node?_eq fun _ => node?_of_openIndex h

/-- A resolution that is recorded keeps what is at any place. -/
theorem keeps_of_record {report : Report} {m m' : Minter} {res : Resolution} {files₁ : Files}
    (ho : files.openIndex path = .ok (opened, files₁))
    (hres : (report.resolve opened.tables.toIndex).run m = (.ok res, m'))
    (h : files₁.record opened res.cache = .ok (recorded, n, files')) : Keeps l files files' := by
  obtain ⟨hl, -, -⟩ := openIndex_location ho
  obtain ⟨_, -, -, -, -, hn⟩ := record_cases hl (node?_opened ho) h
  by_cases he : opened.location = l
  · subst he
    refine ⟨fun b bytes hb => ?_, fun tables ht hi => ?_⟩
    · cases (node?_opened ho).symm.trans (node?_of_openIndex ho hb (by simp))
    · cases (node?_opened ho).symm.trans (node?_of_openIndex ho ht (by simp))
      obtain ⟨tables', hn', hi', he', -⟩ := exists_recorded ho hi hres h
      exact ⟨tables', hn', hi', he'⟩
  · refine .of_node?_eq fun node hnode hne => ?_
    rw [hn, if_neg he]
    exact node?_of_openIndex ho hnode hne

end Files

namespace Command.Leaves

open Files (Extends Keeps)

variable {settings : Settings} {files files' : Files} {command : Command} {l : Location}

theorem extends_and_inUse (h : Leaves settings files command files') :
    Extends files files' ∧ ∀ l, l ∈ files'.inUse → l ∈ files.inUse := by
  have hopen : ∀ {files files' : Files} {opened : OpenIndex},
      files.openIndex settings.database = .ok (opened, files') →
      Extends files files' ∧ ∀ l, l ∈ files'.inUse → l ∈ files.inUse := fun ho =>
    ⟨Files.extends_of_openIndex ho, fun _ hl => Files.inUse_of_openIndex ho ▸ hl⟩
  have herase : ∀ {l : Location} {node : Node}, files.lookup settings.database = .ok (l, node) →
      node ≠ .directory →
      Extends files (files.erase l) ∧ ∀ l', l' ∈ (files.erase l).inUse → l' ∈ files.inUse := by
    intro l node hl hn
    obtain ⟨hne, hdir⟩ := Files.lookup_of_removed hl hn
    exact ⟨Files.extends_erase hne hdir, fun l' hl' => Std.ExtTreeSet.mem_of_mem_erase hl'⟩
  cases h with
  | same => exact ⟨.refl, fun _ hl => hl⟩
  | opened _ ho => exact hopen ho
  | recorded ho _ hrec =>
    obtain ⟨hl, -, -⟩ := Files.openIndex_location ho
    obtain ⟨_, -, -, he, hu, -⟩ := Files.record_cases hl (Files.node?_opened ho) hrec
    exact ⟨(hopen ho).1.trans he, fun l hl => (hopen ho).2 l (hu ▸ hl)⟩
  | encoded _ _ ht =>
    exact ⟨Files.extends_put (Files.target_ne_nil ht) (Files.node?_target_ne_directory ht),
      fun _ hl => hl⟩
  | removed hl hn => exact herase hl hn
  | renewed hl hn ho =>
    exact ⟨(herase hl hn).1.trans (hopen ho).1, fun l hl' => (herase hl hn).2 l ((hopen ho).2 l hl')⟩

/-- A command keeps what is at a place that it neither writes over nor frees. -/
theorem keeps (h : Leaves settings files command files')
    (hd : command.destination? settings files ≠ some l) : Keeps l files files' := by
  have helsewhere : ∀ {l' : Location} {node : Node},
      files.lookup settings.database = .ok (l', node) → node ≠ .directory →
      (Command.init true).destination? settings files ≠ some l → l' ≠ l := by
    rintro l' node hl hn hd rfl
    refine hd ?_
    rw [destination?, hl]
    cases node with
    | directory => exact absurd rfl hn
    | file bytes => rfl
    | database tables => rfl
  cases h with
  | same => exact .refl
  | opened _ ho => exact Files.keeps_of_openIndex ho
  | recorded ho hres hrec => exact Files.keeps_of_record ho hres hrec
  | encoded hp hr ht =>
    refine .of_node?_eq fun node hnode _ => ?_
    rw [Files.node?_put (Files.target_ne_nil ht), if_neg]
    · exact hnode
    · rintro rfl
      exact hd (by simp [destination?, hp, hr, ht, Except.toOption])
  | removed hl hn =>
    exact Files.keeps_erase (Files.lookup_of_removed hl hn).1 (helsewhere hl hn hd)
  | renewed hl hn ho =>
    exact (Files.keeps_erase (Files.lookup_of_removed hl hn).1 (helsewhere hl hn hd)).trans
      (Files.keeps_of_openIndex ho)

end Command.Leaves

namespace CommandLine

open Files (Extends Keeps)

structure Call where
  args : List String
  env : Environment
  fresh : Minter

namespace Call

variable {call : Call} {files : Files} {l : Location} {calls : List Call} {settings : Settings}
  {command : Command}

def run (call : Call) (files : Files) : Outcome × Files :=
  CommandLine.run call.args call.env call.fresh files

/-- The words of the call ask for this command, and its settings are valid. -/
def Asks (call : Call) (files : Files) (settings : Settings) (command : Command) : Prop :=
  ∃ invocation, Arguments.Words call.args invocation ∧ invocation.command = command ∧
    invocation.settings call.env files = .ok settings

def destination? (call : Call) (files : Files) : Option Location := do
  let invocation ← (Arguments.parse call.args).toOption
  let settings ← (invocation.settings call.env files).toOption
  invocation.command.destination? settings files

theorem run_of_asks (h : call.Asks files settings command) :
    call.run files =
      match (command.run settings call.fresh).run files with
      | (.error e, files) => (.failed e, files)
      | (.ok answer, files) => (.printed (answer.render settings), files) := by
  obtain ⟨invocation, hw, rfl, hs⟩ := h
  have hp := Arguments.parse_eq_ok_iff.mpr hw
  rcases hr : (invocation.command.run settings call.fresh).run files with ⟨_ | _, after⟩
  all_goals simp only [run, CommandLine.run, hp, hs, hr]

theorem destination?_of_asks (h : call.Asks files settings command) :
    call.destination? files = command.destination? settings files := by
  obtain ⟨invocation, hw, rfl, hs⟩ := h
  rw [destination?, Arguments.parse_eq_ok_iff.mpr hw]
  change (invocation.settings call.env files).toOption.bind _ = _
  rw [hs]
  rfl

theorem run_cases (call : Call) (files : Files) :
    (call.run files).2 = files ∨ ∃ settings command, call.Asks files settings command ∧
      command.Leaves settings files (call.run files).2 := by
  rcases hp : Arguments.parse call.args with fault | invocation
  · left
    rw [run, CommandLine.run, hp]
  rcases hs : invocation.settings call.env files with e | settings
  · left
    rw [run, CommandLine.run, hp]
    simp only [hs]
  · right
    have hask : call.Asks files settings invocation.command :=
      ⟨invocation, Arguments.parse_eq_ok_iff.mp hp, rfl, hs⟩
    refine ⟨settings, invocation.command, hask, ?_⟩
    rw [run_of_asks hask]
    rcases hr : (invocation.command.run settings call.fresh).run files with ⟨e | answer, files'⟩
    · exact Command.leaves_run hr
    · exact Command.leaves_run hr

theorem extends_and_inUse (call : Call) (files : Files) :
    Extends files (call.run files).2 ∧ ∀ l, l ∈ (call.run files).2.inUse → l ∈ files.inUse := by
  rcases run_cases call files with he | ⟨settings, command, -, hl⟩
  · rw [he]
    exact ⟨.refl, fun _ h => h⟩
  · exact hl.extends_and_inUse

theorem keeps (hd : call.destination? files ≠ some l) : Keeps l files (call.run files).2 := by
  rcases run_cases call files with he | ⟨settings, command, hask, hl⟩
  · rw [he]
    exact .refl
  · exact hl.keeps (destination?_of_asks hask ▸ hd)

end Call

variable {files : Files} {l : Location} {calls : List Call}

/-- The files after a session. -/
def session (files : Files) (calls : List Call) : Files :=
  calls.foldl (fun files call => (call.run files).2) files

/-- No call of the session writes over the place or frees it. -/
def Spares (l : Location) : Files → List Call → Prop
  | _, [] => True
  | files, call :: calls => call.destination? files ≠ some l ∧ Spares l (call.run files).2 calls

instance decidableSpares (l : Location) :
    (files : Files) → (calls : List Call) → Decidable (Spares l files calls)
  | _, [] => .isTrue trivial
  | files, call :: calls =>
    have := decidableSpares l (call.run files).2 calls
    inferInstanceAs (Decidable (call.destination? files ≠ some l ∧ _))

theorem session_extends_and_inUse (files : Files) (calls : List Call) :
    Extends files (session files calls) ∧ ∀ l, l ∈ (session files calls).inUse → l ∈ files.inUse := by
  induction calls generalizing files with
  | nil => exact ⟨.refl, fun _ h => h⟩
  | cons call calls ih =>
    obtain ⟨he, hu⟩ := call.extends_and_inUse files
    obtain ⟨he', hu'⟩ := ih (call.run files).2
    exact ⟨he.trans he', fun l hl => hu l (hu' l hl)⟩

theorem session_keeps (hs : Spares l files calls) : Keeps l files (session files calls) := by
  induction calls generalizing files with
  | nil => exact .refl
  | cons call calls ih => exact (call.keeps hs.1).trans (ih hs.2)

end CommandLine

end ComponentIdentity
