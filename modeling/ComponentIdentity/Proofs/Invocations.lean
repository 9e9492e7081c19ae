import ComponentIdentity.Proofs.Levels

/-! # Which command lines are accepted

The reader accepts a command line if it is made of words, and takes from it what
they say: nothing is recorded that is not asked for, and no command is run but the
one that is named, or `index` if none is.
-/

namespace ComponentIdentity

namespace Arguments

variable {known : List Opt} {o : Opt} {given given' more : List (Opt × String)}
  {waiting : Option Opt} {word name : String} {words : List String} {ref : Ref}
  {level : Level} {rest : Option (String × List String)}

variable {outer inner : Level} {command : Command} {invocation : Invocation}
  {given' : List (Opt × String)} {value? : Option String}

theorem has_eq_iff {b : Bool} : (b = true ↔ Has level.given o) ↔ level.has o = b := by
  have hmem : Has level.given o ↔ o ∈ level.given.map (·.1) := by simp [Has]
  rw [hmem, ← isSome_lookup_iff, ← Bool.eq_iff_iff, eq_comm]
  rfl

theorem valueOf_iff (hv : Valid level.given) :
    ValueOf level.given o value? ↔ level.value? o = value? := by
  simp only [ValueOf, Level.mem_given_iff hv]
  constructor
  · intro h
    ext value
    exact (h value).symm
  · rintro rfl value
    exact Iff.rfl

theorem commandOf_eq_ok_iff (hv : Valid level.given) (hn : name ∈ commandNames) :
    commandOf name level = .ok command ↔ command.name = name ∧ CommandOf level.given command := by
  have href : ∀ {word : String} {ref : Ref}, (.ref, word) ∈ level.given →
      ((refOf? word).getD 0 = ref ↔ IsRef word ref) := by
    intro word ref hw
    obtain ⟨ref', href'⟩ : ∃ ref', IsRef word ref' := hv.fits _ hw
    rw [← refOf?_eq_some_iff] at href' ⊢
    rw [href', Option.getD_some, Option.some.injEq]
  simp only [commandNames, List.mem_cons, List.not_mem_nil, or_false] at hn
  rcases hn with rfl | rfl | rfl | rfl | rfl
  · cases command <;> simp [commandOf, Command.name, CommandOf, Except.bind_eq_ok_iff,
      Level.need_eq_ok_iff hv, valueOf_iff hv, has_eq_iff, pure, Except.pure]
  · cases command with
    | lookup report format ref =>
      simp only [commandOf, Command.name, CommandOf, String.reduceEq, ↓reduceIte, true_and,
        Except.bind_eq_ok_iff, Level.need_eq_ok_iff hv, valueOf_iff hv]
      constructor
      · rintro ⟨_, hr, word, hw, ⟨⟩⟩
        exact ⟨hr, rfl, word, hw, (href hw).mp rfl⟩
      · rintro ⟨hr, rfl, word, hw, h⟩
        refine ⟨report, hr, word, hw, ?_⟩
        rw [(href hw).mpr h]
        rfl
    | resolve | encode | index | init =>
      simp [commandOf, Command.name, Except.bind_eq_ok_iff, pure, Except.pure]
  · cases command <;> simp [commandOf, Command.name, CommandOf, Except.bind_eq_ok_iff,
      Level.need_eq_ok_iff hv, pure, Except.pure]
  · cases command <;> simp [commandOf, Command.name, CommandOf, pure, Except.pure]
  · cases command <;> simp [commandOf, Command.name, CommandOf, has_eq_iff, pure, Except.pure]

/-- A value behind the name of the command counts before one in front of it. -/
theorem eq_orElse_iff (ho : Valid outer.given) (hi : Valid inner.given) :
    value? = (inner.value? o <|> outer.value? o) ↔
      ∀ value, value? = some value ↔ (o, value) ∈ inner.given ∨
        ¬ Has inner.given o ∧ (o, value) ∈ outer.given := by
  cases hin : inner.value? o with
  | none =>
    have hnot : ∀ value, (o, value) ∉ inner.given := fun value hm => by
      rw [Level.mem_given_iff hi, hin] at hm
      cases hm
    have hnone : ¬ Has inner.given o := fun ⟨value, hm⟩ => hnot value hm
    simp only [hnot, hnone, false_or, not_false_eq_true, true_and]
    exact eq_comm.trans (valueOf_iff ho).symm
  | some v =>
    have hm : (o, v) ∈ inner.given := (Level.mem_given_iff hi).mpr hin
    have hhas : Has inner.given o := ⟨v, hm⟩
    simp only [Level.mem_given_iff hi, hin, hhas, not_true_eq_false, false_and, or_false]
    exact Option.ext_iff

theorem eq_or_iff {b : Bool} : b = (inner.has o || outer.has o) ↔
    (b = true ↔ Has (inner.given ++ outer.given) o) := by
  rw [has_append, ← has_eq_iff.mpr rfl, ← has_eq_iff.mpr rfl, ← Bool.or_eq_true, ← Bool.eq_iff_iff]

theorem eq_invocation_iff (ho : Valid outer.given) (hi : Valid inner.given) :
    invocation = Arguments.invocation command outer inner ↔
      invocation.command = command ∧ Invokes outer.given inner.given invocation := by
  constructor
  · rintro rfl
    exact ⟨rfl, (eq_orElse_iff ho hi).mp rfl, (eq_orElse_iff ho hi).mp rfl, eq_or_iff.mp rfl,
      has_eq_iff.mpr rfl, eq_or_iff.mp rfl, eq_or_iff.mp rfl⟩
  · obtain ⟨command, config, database, jsonOutput, deterministicIds, quiet, verbose⟩ := invocation
    rintro ⟨rfl, hc, hd, hj, hids, hq, hverbose⟩
    obtain rfl := (eq_orElse_iff ho hi).mpr hc
    obtain rfl := (eq_orElse_iff ho hi).mpr hd
    obtain rfl := eq_or_iff.mpr hj
    obtain rfl := has_eq_iff.mp hids
    obtain rfl := eq_or_iff.mpr hq
    obtain rfl := eq_or_iff.mpr hverbose
    rfl

theorem Valid.perm (h : Valid given) (hp : given.Perm given') : Valid given' :=
  ⟨(hp.map _).nodup_iff.mp h.nodup, fun e he => h.fits e (hp.mem_iff.mpr he)⟩

theorem has_congr (hp : given.Perm given') : Has given o ↔ Has given' o :=
  exists_congr fun _ => hp.mem_iff

theorem CommandOf.perm (h : CommandOf given command) (hp : given.Perm given') :
    CommandOf given' command := by
  cases command with
  | index => trivial
  | resolve | lookup | encode | init =>
    simpa only [CommandOf, ValueOf, hp.mem_iff, has_congr hp] using h

theorem Invokes.perm {outer outer' inner inner' : List (Opt × String)}
    (h : Invokes outer inner invocation) (ho : outer.Perm outer') (hi : inner.Perm inner') :
    Invokes outer' inner' invocation where
  config path := by rw [h.config, hi.mem_iff, has_congr hi, ho.mem_iff]
  database path := by rw [h.database, hi.mem_iff, has_congr hi, ho.mem_iff]
  jsonOutput := by rw [h.jsonOutput, has_congr (hi.append ho)]
  deterministicIds := by rw [h.deterministicIds, has_congr hi]
  quiet := by rw [h.quiet, has_congr (hi.append ho)]
  verbose := by rw [h.verbose, has_congr (hi.append ho)]

theorem valid_nil : Valid [] := ⟨List.nodup_nil, nofun⟩

variable {commands : List String} {last settled : Level}

theorem reads_of_settled
    (hread : Level.read { known := known, subcommands := commands } words = .ok (last, rest))
    (hsettle : last.settle = .ok settled) :
    ∃ given, given.Perm settled.given ∧ Reads known commands none words given rest ∧
      Valid given := by
  obtain ⟨given, hr, hg, hv⟩ := Level.reads_of_read valid_nil rfl hread hsettle
  have hp : given.Perm settled.given := by
    rw [hg, Level.all, List.append_nil]
    exact (List.reverse_perm given).symm
  exact ⟨given, hp, hr, hv.perm hp.symm⟩

theorem exists_settled (hs : ∀ name ∈ commands, IsPlain name)
    (hr : Reads known commands none words given rest) (hv : Valid given) :
    ∃ last settled, Level.read { known := known, subcommands := commands } words =
        .ok (last, rest) ∧ last.settle = .ok settled ∧ given.Perm settled.given := by
  have hall : Valid (given.reverse ++ []) := by
    rw [List.append_nil]
    exact hv.perm (List.reverse_perm given).symm
  obtain ⟨last, settled, hread, hsettle, hg⟩ :=
    Level.exists_read_of_reads { known := known, subcommands := commands } hr rfl valid_nil rfl hs
      hall
  refine ⟨last, settled, hread, hsettle, ?_⟩
  rw [hg, Level.all, List.append_nil]
  exact (List.reverse_perm given).symm

theorem isPlain_of_mem_commands (h : name ∈ commandNames ++ ["help"]) : IsPlain name := by
  rcases List.mem_append.mp h with h | h
  · exact isPlain_of_mem_commandNames h
  · cases List.mem_singleton.mp h
    exact isPlain_of_head? (by decide)

/-- The reader takes from a command line what its words say, and accepts no other line. -/
theorem parse_eq_ok_iff : parse words = .ok invocation ↔ Words words invocation := by
  have houter : ∀ name ∈ commandNames ++ ["help"], IsPlain name := fun _ => isPlain_of_mem_commands
  have hinner : ∀ name ∈ ([] : List String), IsPlain name := nofun
  constructor
  · intro h
    obtain ⟨⟨outer, _ | ⟨name, tail⟩⟩, hread, h⟩ := Except.bind_eq_ok_iff.mp h
    · obtain ⟨settled, hsettle, he⟩ := Except.bind_eq_ok_iff.mp h
      obtain ⟨given, hp, hr, hv⟩ := reads_of_settled hread hsettle
      obtain ⟨hc, hi⟩ := (eq_invocation_iff (hv.perm hp) valid_nil).mp (Except.ok.inj he).symm
      exact .bare (hr.of_commands nofun) hv hc (hi.perm hp.symm (.refl _))
    · dsimp only at h
      split at h
      · cases h
      next hname =>
        obtain ⟨⟨inner, rest⟩, hread', h⟩ := Except.bind_eq_ok_iff.mp h
        obtain ⟨settled', hsettle', h⟩ := Except.bind_eq_ok_iff.mp h
        obtain ⟨command, hcommand, h⟩ := Except.bind_eq_ok_iff.mp h
        obtain ⟨settled, hsettle, he⟩ := Except.bind_eq_ok_iff.mp h
        obtain ⟨given, hp, hr, hv⟩ := reads_of_settled hread hsettle
        obtain ⟨given', hp', hr', hv'⟩ := reads_of_settled hread' hsettle'
        obtain ⟨rfl, hi⟩ :=
          (eq_invocation_iff (hv.perm hp) (hv'.perm hp')).mp (Except.ok.inj he).symm
        have hmem : name ∈ commandNames := by
          have hm := hr.mem_commands
          simpa [hname] using hm
        obtain ⟨rfl, hc⟩ := (commandOf_eq_ok_iff (hv'.perm hp') hmem).mp hcommand
        cases rest with
        | some r => cases hr'.mem_commands
        | none =>
          exact .named (hr.of_commands (by rintro _ ⟨⟩ -; exact hmem)) hv hr' hv'
            (hc.perm hp'.symm) (hi.perm hp.symm hp'.symm)
  · rintro (⟨hr, hv, hc, hi⟩ | ⟨hr, hv, hr', hv', hc, hi⟩)
    · obtain ⟨outer, settled, hread, hsettle, hp⟩ := exists_settled houter
        (hr.of_commands nofun) hv
      refine Except.bind_eq_ok_iff.mpr ⟨_, hread, ?_⟩
      refine Except.bind_eq_ok_iff.mpr ⟨settled, hsettle, congrArg Except.ok ?_⟩
      exact ((eq_invocation_iff (hv.perm hp) valid_nil).mpr ⟨hc, hi.perm hp (.refl _)⟩).symm
    · obtain ⟨outer, settled, hread, hsettle, hp⟩ := exists_settled houter
        (hr.of_commands fun r _ h => List.mem_append_left _ h) hv
      obtain ⟨inner, settled', hread', hsettle', hp'⟩ := exists_settled hinner hr' hv'
      have hmem := hr.mem_commands
      refine Except.bind_eq_ok_iff.mpr ⟨_, hread, ?_⟩
      dsimp only
      rw [if_neg (ne_of_mem_of_not_mem hmem (by decide))]
      refine Except.bind_eq_ok_iff.mpr ⟨_, hread', ?_⟩
      refine Except.bind_eq_ok_iff.mpr ⟨settled', hsettle', ?_⟩
      refine Except.bind_eq_ok_iff.mpr ⟨_, (commandOf_eq_ok_iff (hv'.perm hp') hmem).mpr
        ⟨rfl, hc.perm hp'⟩, ?_⟩
      refine Except.bind_eq_ok_iff.mpr ⟨settled, hsettle, congrArg Except.ok ?_⟩
      exact ((eq_invocation_iff (hv.perm hp) (hv'.perm hp')).mpr ⟨rfl, hi.perm hp hp'⟩).symm

end Arguments

end ComponentIdentity
