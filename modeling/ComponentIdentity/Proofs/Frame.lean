import ComponentIdentity.Proofs.Hierarchy

/-! # What commands leave alone

A command that only reads changes nothing, and neither does an encoding or an
`init` that fails. Any other changes one place: an encoding its output, an `init`
its database, and a resolution that is recorded the entries of its database, by
one for each identifier that it minted. If such a resolution fails, it may have
made an empty database where there was none.
-/

namespace ComponentIdentity

namespace IdentityTables

variable {tables : IdentityTables} {cache : RefCache} {key uuid : String}

def additions (tables : IdentityTables) (cache : RefCache) : List (String × String) :=
  cache.identities.filter fun e => (tables.uuidForKey e.1).isNone

theorem mem_additions_iff : (key, uuid) ∈ tables.additions cache ↔
    (key, uuid) ∈ cache.identities ∧ tables.uuidForKey key = none := by
  rw [additions, List.mem_filter, Option.isNone_iff_eq_none]

theorem length_additions :
    (tables.additions cache).length = Resolution.countUnknown tables.toIndex cache := by
  rw [additions, RefCache.identities, List.filter_map, List.length_map,
    ← List.countP_eq_length_filter]
  refine List.countP_congr fun e _ => ?_
  simp only [Function.comp_apply, knows_toIndex, Option.not_isSome]

theorem nodup_entries : tables.entries.Nodup := by
  have h := tables.uuidsByKey.nodup_keys
  rw [← Std.ExtTreeMap.map_fst_toList_eq_keys] at h
  exact h.of_map _

theorem mem_entries_iff : (key, uuid) ∈ tables.entries ↔ tables.uuidForKey key = some uuid :=
  Std.ExtTreeMap.mem_toList_iff_getElem?_eq_some

/-- A run that fits the tables leaves their entries and adds those of its new keys. -/
theorem Suits.entries_perm (hs : tables.Suits cache) (hi : tables.Inverse)
    (hc : cache.Consistent) :
    (tables.apply ((components cache).filterMap tables.change?)).entries.Perm
      (tables.entries ++ tables.additions cache) := by
  have hadd : (tables.additions cache).Nodup :=
    (hc.nodup_fst_identities.of_map _).filter _
  have hdisj : tables.entries.Disjoint (tables.additions cache) := by
    rintro ⟨key, uuid⟩ he ha
    have hk := mem_entries_iff.mp he
    rw [(mem_additions_iff.mp ha).2] at hk
    cases hk
  rw [List.perm_ext_iff_of_nodup nodup_entries (nodup_entries.append hadd hdisj)]
  rintro ⟨key, uuid⟩
  rw [mem_entries_iff, uuidForKey_apply_changes hc (hs.changes_eq hi hc), List.mem_append,
    mem_entries_iff, mem_additions_iff]
  constructor
  · intro hk
    rcases (RefCache.override_eq_some_iff hc).mp hk with hm | ⟨-, hk⟩
    · obtain ⟨r, c, hr, rfl, rfl⟩ := RefCache.mem_identities_iff.mp hm
      exact (hs r c hr).imp_right fun h => ⟨hm, h.1⟩
    · exact .inl hk
  · rintro (hk | ⟨hm, -⟩)
    · exact (hs.known hi).override_of_known hc hk
    · exact (RefCache.override_eq_some_iff hc).mpr (.inl hm)

end IdentityTables

namespace Files

variable {files files' files'' : Files} {l : Location} {path : Path} {node : Node}
  {index opened recorded : OpenIndex} {cache : RefCache} {n : Nat}

/-- Nothing is different but at one place. -/
structure SameBut (l : Location) (files files' : Files) : Prop where
  workingDirectory_eq : files'.workingDirectory = files.workingDirectory
  node?_eq : ∀ l', l' ≠ l → files'.node? l' = files.node? l'
  mem_inUse_iff : ∀ l', l' ≠ l → (l' ∈ files'.inUse ↔ l' ∈ files.inUse)

theorem SameBut.trans (h : SameBut l files files') (h' : SameBut l files' files'') :
    SameBut l files files'' where
  workingDirectory_eq := h'.workingDirectory_eq.trans h.workingDirectory_eq
  node?_eq l' hne := (h'.node?_eq l' hne).trans (h.node?_eq l' hne)
  mem_inUse_iff l' hne := (h'.mem_inUse_iff l' hne).trans (h.mem_inUse_iff l' hne)

theorem sameBut_put (hl : l ≠ []) : SameBut l files (files.put l node) where
  workingDirectory_eq := rfl
  node?_eq l' hne := by rw [node?_put hl, if_neg hne.symm]
  mem_inUse_iff _ _ := Iff.rfl

theorem sameBut_erase (hl : l ≠ []) : SameBut l files (files.erase l) where
  workingDirectory_eq := rfl
  node?_eq l' hne := by rw [node?_erase hl, if_neg hne.symm]
  mem_inUse_iff l' hne := by simp [erase, hne.symm]

theorem put_of_node? (hl : l ≠ []) (hn : files.node? l = some node) : files.put l node = files := by
  have hnodes : files.nodes.insert l node = files.nodes := by
    refine Std.ExtTreeMap.ext_getElem? fun {l'} => ?_
    obtain ⟨name, l, rfl⟩ := List.exists_cons_of_ne_nil hl
    rw [Std.ExtTreeMap.getElem?_insert]
    split
    next he => rw [← Std.LawfulEqCmp.eq_of_compare he]; exact hn.symm
    · rfl
  rw [put, hnodes]

/-- The tables that an index has when it is opened: those of a database, or none where a file has
no bytes or there is nothing. -/
def Opens (files : Files) (l : Location) (tables : IdentityTables) : Prop :=
  files.node? l = some (.database tables) ∨
    tables = .empty ∧ (files.node? l = none ∨ files.node? l = some (.file []))

theorem opens_of_openIndex (h : files.openIndex path = .ok (opened, files')) :
    files.target path = .ok opened.location ∧ files.Opens opened.location opened.tables ∧
      SameBut opened.location files files' := by
  obtain ⟨hl, -, hput⟩ := openIndex_location h
  obtain ⟨ht, htables, -⟩ := openIndex_eq_ok_iff.mp h
  exact ⟨ht, (tablesAt_eq_ok_iff.mp htables).2.imp_right And.right, hput ▸ sameBut_put hl⟩

theorem isFile_of_openExistingIndex (h : files.openExistingIndex path = .ok index) :
    files.isFile path = true := by
  unfold isFile
  rcases hl : files.lookup path with fault | ⟨l, bytes | tables | _⟩
  · rw [openExistingIndex, hl] at h
    cases h
  · rfl
  · rfl
  · rw [openExistingIndex, hl] at h
    cases h

/-- A record changes nothing but its database. -/
theorem sameBut_record (h : files.openIndex path = .ok (opened, files'))
    (hrec : files'.record opened cache = .ok (recorded, n, files'')) :
    SameBut opened.location files files'' := by
  obtain ⟨hl, -, -⟩ := openIndex_location h
  obtain ⟨changes, -, -, he, hu, hn⟩ := record_cases hl (node?_opened h) hrec
  refine (opens_of_openIndex h).2.2.trans ⟨he.workingDirectory_eq, fun l' hne => ?_, fun l' _ => ?_⟩
  · rw [hn, if_neg hne.symm]
  · rw [hu]

end Files

namespace Command

open Files (SameBut)

def readsOnly : Command → Bool
  | resolve _ _ record => !record
  | lookup _ _ _ | index => true
  | encode _ _ | init _ => false

/-- What a command answers, and what it leaves of the files. A command that fails changes nothing,
unless it is a resolution to be recorded and has begun a database; one that only reads changes
nothing and needs a database that exists. -/
inductive Frames (settings : Settings) (fresh : Minter) (files : Files) :
    Command → Except Error Answer → Files → Prop where
  | failed {command : Command} {e : Error} : Frames settings fresh files command (.error e) files
  | read {command : Command} {answer : Answer} :
      command.readsOnly = true → files.isFile settings.database = true →
      Frames settings fresh files command (.ok answer) files
  | encoded {input output : Path} {place : Location} {report : Report} {files' : Files} :
      files.outputLocation output = .ok place → place = files.placeOf output →
      files.readReport input (some .json) = .ok report →
      files'.node? place = some (.file report.toBytes) → SameBut place files files' →
      Frames settings fresh files (.encode input output)
        (.ok (.encoded place.toPath report.toBytes.length report.size)) files'
  | initialized {force : Bool} {l : Location} {files' : Files} :
      files.target settings.database = .ok l → l = files.placeOf settings.database →
      (force = false → files.node? l = none) →
      files'.node? l = some (.database .empty) → SameBut l files files' →
      Frames settings fresh files (.init force) (.ok (.initialized settings.database)) files'
  | begun {path : Path} {format : Option String} {e : Error} {l : Location} {files' : Files} :
      files.target settings.database = .ok l → l = files.placeOf settings.database →
      files.node? l = none ∨ files.node? l = some (.file []) →
      files'.node? l = some (.database .empty) → SameBut l files files' →
      Frames settings fresh files (.resolve path format true) (.error e) files'
  | recorded {path : Path} {format : Option String} {l : Location} {report : Report}
      {tables tables' : IdentityTables} {res : Resolution} {files' : Files} :
      files.target settings.database = .ok l → l = files.placeOf settings.database →
      files.Opens l tables →
      readNamed files path format = .ok report →
      report.resolveStored settings.deterministicIds tables fresh = .ok res →
      files'.node? l = some (.database tables') →
      tables'.entries.Perm (tables.entries ++ tables.additions res.cache) →
      (tables.additions res.cache).length = res.stats.minted → SameBut l files files' →
      Frames settings fresh files (.resolve path format true)
        (.ok (.resolved path settings.database res.cache.toList res.stats
          (some res.stats.minted))) files'

variable {settings : Settings} {fresh : Minter} {path input output : Path}
  {format : Option String} {force : Bool} {files files' : Files}
  {y : Except Error Answer} {command : Command}

theorem frames_of_reads {f : Files → Except Error Answer}
    (hr : Filing.Reads (command.run settings fresh) f) (hc : command.readsOnly = true)
    (hf : ∀ answer, f files = .ok answer → files.isFile settings.database = true)
    (h : (command.run settings fresh).run files = (y, files')) :
    Frames settings fresh files command y files' := by
  obtain ⟨rfl, rfl⟩ := hr.eq h
  cases hy : f files' with
  | error e => exact .failed
  | ok answer => exact .read hc (hf answer hy)

theorem isFile_of_resolveNamed {res : Resolution}
    (h : resolveNamed settings fresh path format files = .ok res) :
    files.isFile settings.database = true := by
  obtain ⟨r, -, h⟩ := Except.bind_eq_ok_iff.mp h
  obtain ⟨index, ho, -⟩ := Except.bind_eq_ok_iff.mp h
  exact Files.isFile_of_openExistingIndex ho

theorem frames_runEncode (hw : files.WellFormed)
    (h : (runEncode input output).run files = (y, files')) :
    Frames settings fresh files (.encode input output) y files' := by
  rcases runEncode_cases h with ⟨rfl, e, rfl⟩ | ⟨place, l, report, hp, hr, ht, rfl, rfl⟩
  · exact .failed
  · obtain ⟨hplain, hne⟩ := Files.isPlain_of_outputLocation hw.workingDirectory hp
    obtain rfl := Files.target_toPath hplain hne ht
    exact .encoded hp (Files.outputLocation_eq_placeOf hp) hr
      (by rw [Files.node?_put hne, if_pos rfl]) (Files.sameBut_put hne)

theorem frames_runInit (hw : files.WellFormed)
    (h : (runInit settings force).run files = (y, files')) :
    Frames settings fresh files (.init force) y files' := by
  rcases runInit_cases h with ⟨rfl, e, rfl⟩ |
    ⟨rfl, l, node, hl, hn, ⟨-, e, ho⟩ | ⟨opened, ho, rfl⟩⟩ | ⟨hp, opened, ho, rfl⟩
  · exact .failed
  · -- what was removed can always be made again
    rw [hw.openIndex_erase hl hn] at ho
    cases ho
  · have hne := (Files.lookup_of_removed hl hn).1
    rw [hw.openIndex_erase hl hn] at ho
    cases ho
    have ht := hw.target_of_lookup hl hn
    exact .initialized ht (Files.target_eq_placeOf ht) (fun hf => nomatch hf)
      (by rw [Files.node?_put hne, if_pos rfl])
      ((Files.sameBut_erase hne).trans (Files.sameBut_put hne))
  · obtain ⟨ht, hopens, hsame⟩ := Files.opens_of_openIndex ho
    have hnone : files.node? opened.location = none := by
      rw [Option.eq_none_iff_forall_ne_some]
      intro node hnode
      obtain ⟨hres, -⟩ := Files.lookup_eq_ok_iff_resolve.mp
        ((Files.lookup_eq_ok_iff ht).mpr ⟨rfl, hnode⟩)
      rw [Files.isPresent, hres] at hp
      cases hp
    have hempty : opened.tables = .empty := by
      rcases hopens with hd | ⟨he, -⟩
      · cases hnone.symm.trans hd
      · exact he
    exact .initialized ht (Files.target_eq_placeOf ht) (fun _ => hnone)
      (hempty ▸ Files.node?_opened ho) hsame

theorem frames_runResolve_record (hw : files.WellFormed)
    (h : (runResolve settings fresh path format true).run files = (y, files')) :
    Frames settings fresh files (.resolve path format true) y files' := by
  rcases runResolve_record_cases h with ⟨rfl, e, rfl⟩ |
    ⟨report, opened, files₁, hread, ho, ⟨rfl, e, rfl⟩ | ⟨res, recorded, n, hres, hrec, rfl⟩⟩
  · exact .failed
  · obtain ⟨ht, hd | ⟨he, hn⟩, hsame⟩ := Files.opens_of_openIndex ho
    · obtain ⟨hl, -, rfl⟩ := Files.openIndex_location ho
      rw [Files.put_of_node? hl hd]
      exact .failed
    · exact .begun ht (Files.target_eq_placeOf ht) hn (he ▸ Files.node?_opened ho) hsame
  · obtain ⟨ht, hopens, -⟩ := Files.opens_of_openIndex ho
    obtain ⟨hl, -, -⟩ := Files.openIndex_location ho
    obtain ⟨changes, hch, rfl, -, -, hnode⟩ := Files.record_cases hl (Files.node?_opened ho) hrec
    have hi := (hw.recorded_opened ho).inverse
    have hrun := hres
    rw [Report.resolveStored_eq_resolve] at hrun
    obtain ⟨hc, hsuits, hminted⟩ := Resolution.suits_of_resolve (Prod.ext hrun rfl)
    cases hch.symm.trans (hsuits.changes_eq hi hc)
    rw [hsuits.length_changes, ← hminted]
    exact .recorded ht (Files.target_eq_placeOf ht) hopens hread hres ((hnode _).trans (if_pos rfl))
      (hsuits.entries_perm hi hc) (IdentityTables.length_additions.trans hminted.symm)
      (Files.sameBut_record ho hrec)

theorem frames_run (hw : files.WellFormed)
    (h : (command.run settings fresh).run files = (y, files')) :
    Frames settings fresh files command y files' := by
  cases command with
  | resolve path format record =>
    cases record with
    | true => exact frames_runResolve_record hw h
    | false =>
      refine frames_of_reads reads_runResolve rfl (fun answer ha => ?_) h
      obtain ⟨res, hres, -⟩ := Except.bind_eq_ok_iff.mp ha
      exact isFile_of_resolveNamed hres
  | lookup path format ref =>
    refine frames_of_reads reads_runLookup rfl (fun answer ha => ?_) h
    obtain ⟨res, hres, -⟩ := Except.bind_eq_ok_iff.mp ha
    exact isFile_of_resolveNamed hres
  | encode input output => exact frames_runEncode hw h
  | index =>
    refine frames_of_reads reads_runIndex rfl (fun answer ha => ?_) h
    obtain ⟨index, ho, -⟩ := Except.bind_eq_ok_iff.mp ha
    exact Files.isFile_of_openExistingIndex ho
  | init force => exact frames_runInit hw h

end Command

def Outcome.ofAnswer (settings : Settings) : Except Error Answer → Outcome
  | .error e => .failed e
  | .ok answer => .printed (answer.render settings)

/-- Where a setting comes from: a flag counts before the environment, this before the configuration
file and this before the default. A flag can only switch something on. -/
structure Settings.Layered (config : Config) (env : Environment) (flags : Overrides)
    (settings : Settings) : Prop where
  database_of_flag : ∀ path, flags.database = some path → settings.database = path
  database_of_env : flags.database = none → ∀ path, env "COMPREF_DATABASE" = some path →
    path ≠ "" → settings.database = path
  database_of_config : flags.database = none → (∀ path ∈ env "COMPREF_DATABASE", path = "") →
    settings.database = config.database.getD "compref.db"
  jsonOutput_iff : settings.jsonOutput = true ↔
    flags.jsonOutput = true ∨ config.jsonOutput = some true
  deterministicIds_iff : settings.deterministicIds = true ↔
    flags.deterministicIds = true ∨ config.deterministicIds = some true
  quiet_eq : settings.quiet = flags.quiet
  verbose_eq : settings.verbose = flags.verbose

theorem Config.layered_of_settings {config : Config} {env : Environment} {flags : Overrides}
    {settings : Settings} (h : config.settings env flags = .ok settings) :
    settings.Layered config env flags := by
  obtain ⟨logFormat, -, he⟩ := Except.bind_eq_ok_iff.mp h
  cases he
  have hswitch : ∀ {b : Bool} {o : Option Bool},
      (b || o.getD false) = true ↔ b = true ∨ o = some true := by
    intro b o
    cases o <;> simp
  refine ⟨?_, ?_, ?_, hswitch, hswitch, rfl, rfl⟩
  · intro path hf
    simp only [hf]
    rfl
  · intro hf path he hne
    have hsome : env.database? = some path := by
      rw [Environment.database?, Environment.get?, he]
      exact Option.filter_eq_some_iff.mpr ⟨rfl, decide_eq_true hne⟩
    simp only [hf, hsome]
    rfl
  · intro hf he
    have hnone : env.database? = none := by
      rw [Environment.database?, Environment.get?, Option.filter_eq_none_iff]
      exact fun path hp => by simp [he path hp]
    simp only [hf, hnone]
    rfl

namespace CommandLine

variable {files : Files} {call : Call} {invocation : Invocation}

/-- What a call does whose arguments are read: it fails for its settings and changes nothing, or
keeps to the frame of its command. Either way the files stay well formed. The command is what the
words say: the index is listed if they name no command, and a resolution is recorded only if they
ask for it. -/
structure Call.Framed (call : Call) (files : Files) (invocation : Invocation) : Prop where
  words : Arguments.Words call.args invocation
  index_of_no_command : (∀ name ∈ Arguments.commandNames, name ∉ call.args) →
    invocation.command = .index
  record_iff : ∀ path format record, invocation.command = .resolve path format record →
    (record = true ↔ "--record" ∈ call.args)
  layered : ∀ settings, invocation.settings call.env files = .ok settings →
    ∃ config, files.loadConfig invocation.config = .ok config ∧
      settings.Layered config call.env invocation.flags
  wellFormed : (call.run files).2.WellFormed
  misconfigured : ∀ e, invocation.settings call.env files = .error e →
    call.run files = (.misconfigured e, files)
  frames : ∀ settings, invocation.settings call.env files = .ok settings →
    ∃ y, (call.run files).1 = Outcome.ofAnswer settings y ∧
      invocation.command.Frames settings call.fresh files y (call.run files).2

theorem Call.framed_of_parse (hw : files.WellFormed)
    (hp : Arguments.parse call.args = .ok invocation) : call.Framed files invocation where
  words := Arguments.parse_eq_ok_iff.mp hp
  index_of_no_command := (Arguments.parse_eq_ok_iff.mp hp).index_of_no_command
  record_iff _ _ _ := (Arguments.parse_eq_ok_iff.mp hp).record_iff
  layered settings hs := by
    obtain ⟨config, hc, hs⟩ := Except.bind_eq_ok_iff.mp hs
    exact ⟨config, hc, Config.layered_of_settings hs⟩
  wellFormed := call.wellFormed hw
  misconfigured e hs := by
    rw [Call.run, CommandLine.run, hp]
    simp only [hs]
  frames settings hs := by
    refine ⟨((invocation.command.run settings call.fresh).run files).1, ?_⟩
    rw [Call.run_of_asks ⟨invocation, Arguments.parse_eq_ok_iff.mp hp, rfl, hs⟩]
    rcases hr : (invocation.command.run settings call.fresh).run files with ⟨_ | _, files'⟩
    · exact ⟨rfl, Command.frames_run hw hr⟩
    · exact ⟨rfl, Command.frames_run hw hr⟩

theorem wellFormed_oneModule : oneModule.WellFormed := by
  have hlist : oneModule.nodes.toList = [(["work"], .directory), (["work", "r.json"], .file
      (Bytes.ofText "[[1], [[1, \"PROJECT\", \"P\", null, [2]], [2, \"MODULE\", \"M\"]]]"))] := by
    decide +kernel
  refine Files.wellFormed_of_toList (by decide +kernel) (by decide +kernel) ?_
  rw [hlist]
  simp

theorem Call.framed_recording : oneModule.WellFormed ∧
    Arguments.parse recording.args = .ok ⟨.resolve "r.json" none true, none, { quiet := true }⟩ ∧
    (recording.run oneModule).1 = .printed "       1  u  P\n       2  v  M\n" ∧
    recording.Framed oneModule ⟨.resolve "r.json" none true, none, { quiet := true }⟩ :=
  ⟨wellFormed_oneModule, by decide +kernel, by decide +kernel,
    framed_of_parse wellFormed_oneModule (by decide +kernel)⟩

end CommandLine

end ComponentIdentity
