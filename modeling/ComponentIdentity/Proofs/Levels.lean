import ComponentIdentity.Proofs.Words

/-! # How words are read

The options of one command are read word by word. A word is accepted for what it
gives, no more and no less, and what was given is settled one word later, so what
is said of a level counts the value that is not settled yet.
-/

namespace ComponentIdentity

namespace Arguments

variable {known : List Opt} {o : Opt} {given more : List (Opt × String)} {waiting : Option Opt}
  {word value : String} {words : List String} {cs : List Char} {ref : Ref}
  {level level' : Level} {rest : Option (String × List String)}

section Value

theorem digits_eq_some_iff {negative : Bool} {digits : List Char} :
    (if digits ≠ [] ∧ digits.all Char.isDigit then
        if Nat.ofDigitChars 10 digits 0 < UInt32.size ∧
            (negative → Nat.ofDigitChars 10 digits 0 = 0) then
          some (Nat.ofDigitChars 10 digits 0).toUInt32
        else none
      else none) = some ref ↔
    (negative = true → ref = 0) ∧ digits ≠ [] ∧ (∀ c ∈ digits, c.isDigit = true) ∧
      Nat.ofDigitChars 10 digits 0 = ref.toNat := by
  generalize Nat.ofDigitChars 10 digits 0 = n
  have hn : n < UInt32.size ∧ n.toUInt32 = ref ↔ n = ref.toNat := by
    constructor
    · rintro ⟨hl, rfl⟩
      exact (UInt32.toNat_ofNat_of_lt' hl).symm
    · rintro rfl
      exact ⟨ref.toNat_lt, UInt32.ofNat_toNat⟩
  rw [← List.all_eq_true]
  by_cases hd : digits ≠ [] ∧ digits.all Char.isDigit
  · rw [if_pos hd, Option.ite_none_right_eq_some, Option.some.injEq, and_right_comm, hn]
    constructor
    · rintro ⟨rfl, hz⟩
      exact ⟨fun h => UInt32.toNat_inj.mp (hz h), hd.1, hd.2, rfl⟩
    · rintro ⟨hz, -, -, rfl⟩
      exact ⟨rfl, fun h => by rw [hz h]; rfl⟩
  · rw [if_neg hd]
    exact ⟨nofun, fun h => absurd ⟨h.2.1, h.2.2.1⟩ hd⟩

theorem refOf?_eq_some_iff : refOf? word = some ref ↔ IsRef word ref := by
  have hdigit : ∀ {c : Char} {cs : List Char}, ('-' = c ∨ '+' = c) →
      ¬ ∀ d ∈ c :: cs, d.isDigit = true := by
    rintro c cs (rfl | rfl) h
    · exact absurd (h '-' List.mem_cons_self) (by decide)
    · exact absurd (h '+' List.mem_cons_self) (by decide)
  unfold refOf? IsRef
  generalize word.toList = cs
  split
  next negative digits he =>
  rw [digits_eq_some_iff]
  split at he
  · cases he
    constructor
    · rintro ⟨hz, h⟩
      exact ⟨['-'], _, rfl, .inr (.inr ⟨rfl, hz rfl⟩), h⟩
    · rintro ⟨sign, digits, he, rfl | rfl | ⟨rfl, hz⟩, h⟩
      · cases he
        exact absurd h.2.1 (hdigit (.inl rfl))
      · cases he
      · cases he
        exact ⟨fun _ => hz, h⟩
  · cases he
    constructor
    · rintro ⟨-, h⟩
      exact ⟨['+'], _, rfl, .inr (.inl rfl), h⟩
    · rintro ⟨sign, digits, he, rfl | rfl | ⟨rfl, hz⟩, h⟩
      · cases he
        exact absurd h.2.1 (hdigit (.inr rfl))
      · cases he
        exact ⟨nofun, h⟩
      · cases he
  next hminus hplus =>
    cases he
    constructor
    · rintro ⟨-, h⟩
      exact ⟨[], _, rfl, .inl rfl, h⟩
    · rintro ⟨sign, digits, rfl, rfl | rfl | ⟨rfl, -⟩, h⟩
      · exact ⟨nofun, h⟩
      · exact absurd rfl (hplus _)
      · exact absurd rfl (hminus _)

theorem checkValue_eq_ok_iff (h : o.takesValue = true) :
    checkValue o value = .ok () ↔ Fits o value := by
  cases o with
  | format => simp [checkValue, Fits]
  | ref =>
    have hs : (refOf? value).isSome = true ↔ ∃ ref, IsRef value ref :=
      Option.isSome_iff_exists.trans (exists_congr fun _ => refOf?_eq_some_iff)
    rw [checkValue, Fits, ← hs]
    split <;> simp_all
  | verbose | quiet | jsonMode | help | version | record | deterministic | force => cases h
  | config | database | report | input | output =>
    simp only [checkValue, Fits]
    split <;> simp_all

theorem valid_cons_iff :
    Valid ((o, value) :: given) ↔ o ∉ given.map (·.1) ∧ Fits o value ∧ Valid given := by
  constructor
  · rintro ⟨hn, hf⟩
    obtain ⟨ho, hn⟩ := List.nodup_cons.mp hn
    obtain ⟨hv, hf⟩ := List.forall_mem_cons.mp hf
    exact ⟨ho, hv, hn, hf⟩
  · rintro ⟨ho, hv, hn, hf⟩
    exact ⟨List.nodup_cons.mpr ⟨ho, hn⟩, List.forall_mem_cons.mpr ⟨hv, hf⟩⟩

theorem Valid.of_append (h : Valid (more ++ given)) : Valid given where
  nodup := by
    have hn := h.nodup
    rw [List.map_append] at hn
    exact (List.nodup_append.mp hn).2.1
  fits e he := h.fits e (List.mem_append_right more he)

theorem isSome_lookup_iff : (given.lookup o).isSome = true ↔ o ∈ given.map (·.1) := by
  rw [List.lookup_isSome_iff, List.mem_map]
  exact exists_congr fun e => and_congr_right fun _ => beq_iff_eq.trans eq_comm

end Value

section Letters

variable {c : Char}

theorem attached_cons {d : Char} (hd : d ≠ '=') :
    Level.attached (d :: cs) = some (String.ofList (d :: cs)) := by
  unfold Level.attached
  split
  next he => cases he
  next he =>
    cases he
    exact absurd rfl hd
  · rfl

theorem letters_value_iff (hm : o ∈ known) (hs : o.short? = some c) (ht : o.takesValue = true) :
    Letters known (c :: cs) given waiting ↔ match Level.attached cs with
      | none => given = [] ∧ waiting = some o
      | some value => given = [(o, value)] ∧ waiting = none := by
  constructor
  · intro h
    cases h with
    | switch _ hs' hswitch =>
      cases short?_injective _ _ _ hs hs'
      exact absurd (ht.symm.trans hswitch.1) nofun
    | equals _ hs' =>
      cases short?_injective _ _ _ hs hs'
      exact ⟨rfl, rfl⟩
    | attached _ hs' _ hd =>
      cases short?_injective _ _ _ hs hs'
      rw [attached_cons hd]
      exact ⟨rfl, rfl⟩
    | waits _ hs' =>
      cases short?_injective _ _ _ hs hs'
      exact ⟨rfl, rfl⟩
  · rcases cs with _ | ⟨d, cs⟩
    · rintro ⟨rfl, rfl⟩
      exact .waits hm hs ht
    by_cases hd : d = '='
    · subst hd
      rintro ⟨rfl, rfl⟩
      exact .equals hm hs ht
    · rw [attached_cons hd]
      rintro ⟨rfl, rfl⟩
      exact .attached hm hs ht hd

theorem letters_switch_iff (hm : o ∈ known) (hs : o.short? = some c) (ht : o.takesValue = false) :
    Letters known (c :: cs) given waiting ↔
      ∃ more, given = (o, "") :: more ∧ IsSwitch o ∧ Letters known cs more waiting := by
  constructor
  · intro h
    cases h with
    | switch _ hs' hswitch hl =>
      cases short?_injective _ _ _ hs hs'
      exact ⟨_, rfl, hswitch, hl⟩
    | equals _ hs' ht' | attached _ hs' ht' | waits _ hs' ht' =>
      cases short?_injective _ _ _ hs hs'
      exact absurd (ht.symm.trans ht') nofun
  · rintro ⟨_, rfl, hswitch, hl⟩
    exact .switch hm hs hswitch hl

end Letters

namespace Level

def all (level : Level) : List (Opt × String) :=
  match level.pending with
  | some (o, some value) => (o, value) :: level.given
  | _ => level.given

def awaited (level : Level) : Option Opt :=
  match level.pending with
  | some (o, none) => some o
  | _ => none

/-- The level when a word has said this. -/
def after (level : Level) (given : List (Opt × String)) (waiting : Option Opt) : Level :=
  { level with given := given.reverse ++ level.all, pending := waiting.map (·, none) }

theorem all_after_none : (level.after given none).all = given.reverse ++ level.all := rfl

theorem after_after (given more : List (Opt × String)) :
    (level.after given none).after more waiting = level.after (given ++ more) waiting := by
  simp only [after, List.reverse_append, List.append_assoc]
  rfl

theorem store_eq_ok_iff (level : Level) (hv : Valid level.given) :
    level.store o value = .ok level' ↔ Valid ((o, value) :: level.given) ∧
      level' = { level with given := (o, value) :: level.given } := by
  have hfits : (if o.takesValue then checkValue o value else .ok ()) = .ok () ↔ Fits o value := by
    split
    next ht => exact checkValue_eq_ok_iff ht
    next ht => cases o <;> first | exact absurd rfl ht | simp [Fits, Opt.takesValue]
  rw [valid_cons_iff, ← isSome_lookup_iff, store]
  by_cases hl : (level.given.lookup o).isSome = true
  · simp [hl]
  have hbody : (do
      if o.takesValue then checkValue o value
      return { level with given := (o, value) :: level.given } : Except UsageFault Level) =
      .ok level' ↔ (if o.takesValue then checkValue o value else .ok ()) = .ok () ∧
        level' = { level with given := (o, value) :: level.given } := by
    cases o.takesValue with
    | false => simp [pure, Except.pure, eq_comm]
    | true =>
      cases checkValue o value <;> simp [bind, Except.bind, pure, Except.pure, eq_comm]
  rw [if_neg hl, hbody, hfits]
  simp [hl, hv]

theorem settle_eq_ok_iff (level : Level) (hv : Valid level.given) :
    level.settle = .ok level' ↔
      level.awaited = none ∧ Valid level.all ∧ level' = level.after [] none := by
  obtain ⟨known, subcommands, given, pending, trailing⟩ := level
  rcases pending with _ | ⟨o, _ | value⟩
  · simp [settle, awaited, all, after, hv, eq_comm] at *
  · simp [settle, awaited]
  · refine (store_eq_ok_iff ⟨known, subcommands, given, none, trailing⟩ hv).trans ?_
    simp [awaited, all, after]

theorem flag_eq_ok_iff (hv : Valid level.given) (ht : o.takesValue = false) :
    level.flag o = .ok level' ↔ IsSwitch o ∧ level.awaited = none ∧
      Valid ((o, "") :: level.all) ∧ level' = level.after [(o, "")] none := by
  simp only [flag, Except.bind_eq_ok_iff, settle_eq_ok_iff _ hv]
  constructor
  · rintro ⟨_, ⟨hw, ha, rfl⟩, h⟩
    split at h
    · cases h
    · cases h
    next hhelp hversion =>
      obtain ⟨hvalid, rfl⟩ := (store_eq_ok_iff _ ha).mp h
      exact ⟨⟨ht, hhelp, hversion⟩, hw, hvalid, rfl⟩
  · rintro ⟨hs, hw, hvalid, rfl⟩
    have ha := (valid_cons_iff.mp hvalid).2.2
    have hstore := (store_eq_ok_iff (level.after [] none) ha).mpr ⟨hvalid, rfl⟩
    refine ⟨_, ⟨hw, ha, rfl⟩, ?_⟩
    split
    · exact absurd rfl hs.2.1
    · exact absurd rfl hs.2.2
    · exact hstore

theorem withValue_some_eq_ok_iff (hv : Valid level.given) :
    level.withValue o (some value) = .ok level' ↔ level.awaited = none ∧
      Valid ((o, value) :: level.all) ∧ level' = level.after [(o, value)] none := by
  simp only [withValue, Except.bind_eq_ok_iff, settle_eq_ok_iff _ hv]
  constructor
  · rintro ⟨_, ⟨hw, ha, rfl⟩, h⟩
    obtain ⟨hvalid, rfl⟩ := (store_eq_ok_iff _ ha).mp h
    exact ⟨hw, hvalid, rfl⟩
  · rintro ⟨hw, hvalid, rfl⟩
    have ha := (valid_cons_iff.mp hvalid).2.2
    exact ⟨_, ⟨hw, ha, rfl⟩, (store_eq_ok_iff (level.after [] none) ha).mpr ⟨hvalid, rfl⟩⟩

theorem withValue_none_eq_ok_iff (hv : Valid level.given) :
    level.withValue o none = .ok level' ↔ level.awaited = none ∧ Valid level.all ∧
      level' = level.after [] (some o) := by
  simp only [withValue, Except.bind_eq_ok_iff, settle_eq_ok_iff _ hv]
  constructor
  · rintro ⟨_, ⟨hw, ha, rfl⟩, h⟩
    cases h
    exact ⟨hw, ha, rfl⟩
  · rintro ⟨hw, ha, rfl⟩
    exact ⟨_, ⟨hw, ha, rfl⟩, rfl⟩

/-- The level after a word is read, if the word says something. -/
def Takes (level level' : Level) (gives : List (Opt × String) → Option Opt → Prop) : Prop :=
  ∃ given waiting, gives given waiting ∧ level.awaited = none ∧
    Valid (given.reverse ++ level.all) ∧ level' = level.after given waiting

theorem longOption_eq_ok_iff (hv : Valid level.given) :
    level.longOption cs = .ok level' ↔
      level.Takes level' (Gives level.known (String.ofList ('-' :: '-' :: cs))) := by
  cases hf : level.known.find? (·.long == (splitEquals cs).1) with
  | none =>
    simp only [longOption, hf]
    refine ⟨nofun, ?_⟩
    rintro ⟨_, _, hg, -⟩
    obtain ⟨o, ho⟩ := hg.exists_known
    cases hf.symm.trans (find_long_iff.mpr ho)
  | some o =>
    obtain ⟨hm, hl⟩ := find_long_iff.mp hf
    simp only [longOption, hf]
    by_cases hc : '=' ∈ cs
    · obtain ⟨front, back, rfl, hn⟩ := List.eq_append_cons_of_mem hc
      rw [splitEquals_append hn] at hl ⊢
      obtain rfl : front = o.long.toList := by rw [hl, String.toList_ofList]
      obtain ⟨value, rfl⟩ : ∃ value : String, back = value.toList :=
        ⟨String.ofList back, String.toList_ofList.symm⟩
      rw [ofList_dashes_equals, String.ofList_toList]
      by_cases ht : o.takesValue = true
      · rw [if_pos ht, withValue_some_eq_ok_iff hv]
        simp [Takes, gives_equals_iff, hm, ht]
      · simp [Takes, gives_equals_iff, ht]
    · rw [splitEquals_of_not_mem hc] at hl ⊢
      obtain rfl : cs = o.long.toList := by rw [hl, String.toList_ofList]
      rw [ofList_dashes]
      by_cases ht : o.takesValue = true
      · rw [if_pos ht, withValue_none_eq_ok_iff hv]
        simp [Takes, gives_long_iff, hm, ht, IsSwitch]
      · have ht' : o.takesValue = false := Bool.eq_false_iff.mpr ht
        simp [Takes, gives_long_iff, hm, ht', flag_eq_ok_iff hv ht']

theorem shortOptions_eq_ok_iff (hv : Valid level.given) (hc : cs ≠ [] ∨ level.pending = none) :
    level.shortOptions cs = .ok level' ↔ level.Takes level' (Letters level.known cs) := by
  induction cs generalizing level with
  | nil =>
    have hp := hc.resolve_left (fun h => h rfl)
    obtain ⟨known, subcommands, given, pending, trailing⟩ := level
    obtain rfl : pending = none := hp
    constructor
    · intro h
      cases h
      exact ⟨[], none, .nil, rfl, hv, rfl⟩
    · rintro ⟨_, _, hl, -, -, rfl⟩
      cases hl
      rfl
  | cons c cs ih =>
    rw [shortOptions]
    cases hf : level.known.find? (·.short? == some c) with
    | none =>
      refine ⟨nofun, ?_⟩
      rintro ⟨_, _, hl, -⟩
      cases hl with
      | switch hm hs | equals hm hs | attached hm hs | waits hm hs =>
        cases hf.symm.trans (find_short_iff.mpr ⟨hm, hs⟩)
    | some o =>
      obtain ⟨hm, hs⟩ := find_short_iff.mp hf
      dsimp only
      by_cases ht : o.takesValue = true
      · rw [if_pos ht]
        simp only [Takes, letters_value_iff hm hs ht]
        cases attached cs with
        | none => simp [withValue_none_eq_ok_iff hv]
        | some value => simp [withValue_some_eq_ok_iff hv]
      · have ht' : o.takesValue = false := Bool.eq_false_iff.mpr ht
        rw [if_neg ht]
        simp only [Except.bind_eq_ok_iff, flag_eq_ok_iff hv ht', Takes,
          letters_switch_iff hm hs ht']
        constructor
        · rintro ⟨_, ⟨hswitch, hw, hvalid, rfl⟩, h⟩
          obtain ⟨given, waiting, hl, -, hmore, rfl⟩ := (ih hvalid (.inr rfl)).mp h
          rw [all_after_none, ← List.append_assoc, ← List.reverse_append] at hmore
          exact ⟨_, waiting, ⟨given, rfl, hswitch, hl⟩, hw, hmore, after_after _ _⟩
        · rintro ⟨_, waiting, ⟨given, rfl, hswitch, hl⟩, hw, hmore, rfl⟩
          rw [List.reverse_cons, List.append_assoc] at hmore
          have hvalid : Valid ((o, "") :: level.all) := hmore.of_append
          refine ⟨_, ⟨hswitch, hw, hvalid, rfl⟩, (ih hvalid (.inr rfl)).mpr ?_⟩
          exact ⟨given, waiting, hl, rfl, hmore, (after_after [(o, "")] given).symm⟩

/-- A word that is not plain is taken for what it gives. -/
theorem option_eq_ok_iff (hv : Valid level.given) (hw : ¬ IsPlain word) :
    level.option word = .ok level' ↔ level.Takes level' (Gives level.known word) := by
  unfold option
  split
  next name hword =>
    rw [longOption_eq_ok_iff hv, ← hword, String.ofList_toList]
  next c cs hne hword =>
    have hdash : c ≠ '-' := hne
    rw [shortOptions_eq_ok_iff hv (.inl (List.cons_ne_nil c cs)), ← @String.ofList_toList word,
      hword]
    have hletters : ∀ {given : List (Opt × String)} {waiting : Option Opt},
        Gives level.known (String.ofList ('-' :: c :: cs)) given waiting ↔
          Letters level.known (c :: cs) given waiting := ⟨fun h => h.letters_of_ne hdash, .letters⟩
    simp only [Takes, hletters]
  next hlong hshort => exact absurd (fun c cs => hshort c cs) hw

/-- A plain word can only be the value that an option waits for. -/
theorem option_eq_ok_iff_of_isPlain (hw : IsPlain word) :
    level.option word = .ok level' ↔
      ∃ o, level.awaited = some o ∧ level' = { level with pending := some (o, some word) } := by
  unfold option
  split
  next name hword => exact absurd hword (hw '-' name)
  next c cs _ hword => exact absurd hword (hw c cs)
  · unfold awaited
    rcases level.pending with _ | ⟨o, _ | value⟩
    · simp
    · simp [eq_comm]
    · simp

theorem awaits_eq : level.awaits = level.awaited.isSome := by
  unfold awaits awaited
  rcases level.pending with _ | ⟨o, _ | value⟩ <;> rfl

theorem awaited_after : (level.after given waiting).awaited = waiting := by
  cases waiting <;> rfl

theorem all_after : (level.after given waiting).all = given.reverse ++ level.all := by
  cases waiting <;> rfl

theorem all_of_awaited (h : level.awaited = some o) : level.all = level.given := by
  unfold awaited at h
  unfold all
  rcases hp : level.pending with _ | ⟨o', _ | value⟩
  · rfl
  · rfl
  · rw [hp] at h
    cases h

theorem reads_of_read {last settled : Level} (hv : Valid level.given)
    (ht : level.trailing = false) (h : level.read words = .ok (last, rest))
    (hsettle : last.settle = .ok settled) :
    ∃ given, Reads level.known level.subcommands level.awaited words given rest ∧
      settled.given = given.reverse ++ level.all ∧ Valid settled.given := by
  induction words generalizing level with
  | nil =>
    cases h
    obtain ⟨hw, ha, rfl⟩ := (settle_eq_ok_iff _ hv).mp hsettle
    exact ⟨[], hw ▸ .all, rfl, ha⟩
  | cons word words ih =>
    rw [read, if_neg (Bool.eq_false_iff.mp ht)] at h
    split at h
    next hcommand =>
      cases h
      obtain ⟨hw, ha, rfl⟩ := (settle_eq_ok_iff _ hv).mp hsettle
      exact ⟨[], hw ▸ .command hcommand.2, rfl, ha⟩
    split at h
    next hdashes =>
      cases words with
      | cons word words => cases h
      | nil =>
        cases h
        obtain ⟨hw, ha, rfl⟩ :=
          (settle_eq_ok_iff { level with trailing := true } hv).mp hsettle
        have hw : level.awaited = none := hw
        exact ⟨[], hw ▸ hdashes ▸ .dashes, rfl, ha⟩
    obtain ⟨next, ho, h⟩ := Except.bind_eq_ok_iff.mp h
    -- What waits after the word is what its own reading leaves, so the rest reads on from there.
    by_cases hplain : IsPlain word
    · obtain ⟨o, hw, rfl⟩ := (option_eq_ok_iff_of_isPlain hplain).mp ho
      obtain ⟨given, hr, he, hvalid⟩ :=
        @ih ({ level with pending := some (o, some word) }) hv ht h
      refine ⟨(o, word) :: given, hw ▸ .value hplain hr, ?_, hvalid⟩
      rw [he, all_of_awaited hw, List.reverse_cons, List.append_assoc]
      rfl
    · obtain ⟨front, waiting, hg, hw, hv', rfl⟩ := (option_eq_ok_iff hv hplain).mp ho
      obtain ⟨given, hr, he, hvalid⟩ := @ih (level.after front waiting) hv' ht h
      rw [awaited_after] at hr
      refine ⟨front ++ given, hw ▸ .option hg hr, ?_, hvalid⟩
      rw [he, all_after, List.reverse_append, List.append_assoc]

theorem exists_read_of_reads (level : Level)
    (h : Reads level.known level.subcommands waiting words given rest)
    (hw : level.awaited = waiting) (hv : Valid level.given) (ht : level.trailing = false)
    (hs : ∀ name ∈ level.subcommands, IsPlain name) (hvalid : Valid (given.reverse ++ level.all)) :
    ∃ last settled, level.read words = .ok (last, rest) ∧ last.settle = .ok settled ∧
      settled.given = given.reverse ++ level.all := by
  -- Each word is valid together with those in front of it, since all of them are in the end.
  generalize hk : level.known = known at h
  generalize hc : level.subcommands = commands at h
  induction h generalizing level with
  | all => exact ⟨_, _, rfl, (settle_eq_ok_iff _ hv).mpr ⟨hw, hvalid, rfl⟩, rfl⟩
  | dashes =>
    have hnot : ¬ (¬level.awaits ∧ "--" ∈ level.subcommands) := fun hm => hs _ hm.2 '-' [] rfl
    rw [read, if_neg (Bool.eq_false_iff.mp ht), if_neg hnot, if_pos rfl]
    exact ⟨_, _, rfl,
      (settle_eq_ok_iff { level with trailing := true } hv).mpr ⟨hw, hvalid, rfl⟩, rfl⟩
  | command hm =>
    have hcommand := And.intro (show ¬level.awaits by simp [awaits_eq, hw]) (hc ▸ hm)
    rw [read, if_neg (Bool.eq_false_iff.mp ht), if_pos hcommand]
    exact ⟨_, _, rfl, (settle_eq_ok_iff _ hv).mpr ⟨hw, hvalid, rfl⟩, rfl⟩
  | @option word words given more waiting rest hg hr ih =>
    have hnot : ¬ (¬level.awaits ∧ word ∈ level.subcommands) := fun hm =>
      hg.not_isPlain (hs word hm.2)
    have hdashes : word ≠ "--" := by
      rintro rfl
      exact not_gives_dashes hg
    rw [List.reverse_append, List.append_assoc] at hvalid ⊢
    have hoption : level.option word = .ok (level.after given waiting) :=
      (option_eq_ok_iff hv hg.not_isPlain).mpr ⟨_, _, hk ▸ hg, hw, hvalid.of_append, rfl⟩
    rw [read, if_neg (Bool.eq_false_iff.mp ht), if_neg hnot, if_neg hdashes, hoption, ← all_after]
    exact @ih (level.after given waiting) awaited_after hvalid.of_append ht hs
      (by rw [all_after]; exact hvalid) hk hc
  | @value o word words given rest hp hr ih =>
    have hnot : ¬ (¬level.awaits ∧ word ∈ level.subcommands) := fun hm =>
      hm.1 (by simp [awaits_eq, hw])
    have hdashes : word ≠ "--" := by
      rintro rfl
      exact hp '-' [] rfl
    rw [List.reverse_cons, List.append_assoc, all_of_awaited hw] at hvalid ⊢
    have hoption : level.option word = .ok { level with pending := some (o, some word) } :=
      (option_eq_ok_iff_of_isPlain hp).mpr ⟨o, hw, rfl⟩
    rw [read, if_neg (Bool.eq_false_iff.mp ht), if_neg hnot, if_neg hdashes, hoption]
    exact @ih ({ level with pending := some (o, some word) }) rfl hv ht hs hvalid hk hc

theorem mem_given_iff (hv : Valid level.given) :
    (o, value) ∈ level.given ↔ level.value? o = some value :=
  (List.lookup_eq_some_iff_mem hv.nodup).symm

theorem need_eq_ok_iff (hv : Valid level.given) :
    level.need o = .ok value ↔ (o, value) ∈ level.given := by
  rw [mem_given_iff hv, need]
  split
  next hs => simp [hs]
  next hn => simp [hn]

end Level

end Arguments

end ComponentIdentity
