import Mathlib.Data.List.TakeWhile
import ComponentIdentity.CommandLine.Arguments
import ComponentIdentity.Proofs.Lexemes

/-! # The words of a command line

An option is named by a word of its own or by letters that share a word. Its value
stands behind it, in the same word or in the next one. The reader accepts the lines
of such words, with or without the name of a command, and takes from them what they
say: nothing is recorded that is not asked for, and no command is run but the one
that is named, or `index` if none is.
-/

namespace ComponentIdentity

def Command.name : Command → String
  | resolve _ _ _ => "resolve"
  | lookup _ _ _ => "lookup"
  | encode _ _ => "encode"
  | index => "index"
  | init _ => "init"

namespace Arguments

variable {known : List Opt} {o : Opt} {given more : List (Opt × String)} {waiting : Option Opt}
  {word value name : String} {words commands : List String} {cs : List Char} {ref : Ref}
  {rest : Option (String × List String)} {invocation : Invocation}

/-- The word is taken for no option. -/
def IsPlain (word : String) : Prop := ∀ c cs, word.toList ≠ '-' :: c :: cs

/-- Digits that spell the ref, perhaps with a sign in front; a minus only in front of zero. -/
def IsRef (word : String) (ref : Ref) : Prop :=
  ∃ sign digits, word.toList = sign ++ digits ∧
    (sign = [] ∨ sign = ['+'] ∨ sign = ['-'] ∧ ref = 0) ∧
    digits ≠ [] ∧ (∀ c ∈ digits, c.isDigit = true) ∧ Nat.ofDigitChars 10 digits 0 = ref.toNat

/-- The value is good for the option. -/
def Fits : Opt → String → Prop
  | .format, _ => True
  | .ref, value => ∃ ref, IsRef value ref
  | o, value => o.takesValue = true → value ≠ ""

/-- No option is given twice, and each has a value that is good for it. -/
structure Valid (given : List (Opt × String)) : Prop where
  nodup : (given.map (·.1)).Nodup
  fits : ∀ e ∈ given, Fits e.1 e.2

def IsSwitch (o : Opt) : Prop := o.takesValue = false ∧ o ≠ .help ∧ o ≠ .version

/-- What letters behind one dash give: switches, and at their end perhaps an option with its value,
or one that waits for it. -/
inductive Letters (known : List Opt) : List Char → List (Opt × String) → Option Opt → Prop where
  | nil : Letters known [] [] none
  | switch {o : Opt} {c : Char} {cs : List Char} {given : List (Opt × String)}
      {waiting : Option Opt} :
      o ∈ known → o.short? = some c → IsSwitch o → Letters known cs given waiting →
      Letters known (c :: cs) ((o, "") :: given) waiting
  | equals {o : Opt} {c : Char} {value : List Char} :
      o ∈ known → o.short? = some c → o.takesValue = true →
      Letters known (c :: '=' :: value) [(o, String.ofList value)] none
  | attached {o : Opt} {c d : Char} {value : List Char} :
      o ∈ known → o.short? = some c → o.takesValue = true → d ≠ '=' →
      Letters known (c :: d :: value) [(o, String.ofList (d :: value))] none
  | waits {o : Opt} {c : Char} :
      o ∈ known → o.short? = some c → o.takesValue = true → Letters known [c] [] (some o)

/-- What one word gives that begins with a dash. -/
inductive Gives (known : List Opt) : String → List (Opt × String) → Option Opt → Prop where
  | switch {o : Opt} : o ∈ known → IsSwitch o → Gives known ("--" ++ o.long) [(o, "")] none
  | equals {o : Opt} {value : String} : o ∈ known → o.takesValue = true →
      Gives known ("--" ++ o.long ++ "=" ++ value) [(o, value)] none
  | waits {o : Opt} : o ∈ known → o.takesValue = true → Gives known ("--" ++ o.long) [] (some o)
  | letters {c : Char} {cs : List Char} {given : List (Opt × String)} {waiting : Option Opt} :
      Letters known (c :: cs) given waiting →
      Gives known (String.ofList ('-' :: c :: cs)) given waiting

/-- What words give in all, where no option waits for a value or one does. They end after the last
one, after two dashes, or where a command is named, which is given back with the words behind it. -/
inductive Reads (known : List Opt) (commands : List String) :
    Option Opt → List String → List (Opt × String) → Option (String × List String) → Prop where
  | all : Reads known commands none [] [] none
  | dashes : Reads known commands none ["--"] [] none
  | command {name : String} {words : List String} : name ∈ commands →
      Reads known commands none (name :: words) [] (some (name, words))
  | option {word : String} {words : List String} {given more : List (Opt × String)}
      {waiting : Option Opt} {rest : Option (String × List String)} :
      Gives known word given waiting → Reads known commands waiting words more rest →
      Reads known commands none (word :: words) (given ++ more) rest
  | value {o : Opt} {word : String} {words : List String} {given : List (Opt × String)}
      {rest : Option (String × List String)} :
      IsPlain word → Reads known commands none words given rest →
      Reads known commands (some o) (word :: words) ((o, word) :: given) rest

def Has (given : List (Opt × String)) (o : Opt) : Prop := ∃ value, (o, value) ∈ given

def ValueOf (given : List (Opt × String)) (o : Opt) (value? : Option String) : Prop :=
  ∀ value, value? = some value ↔ (o, value) ∈ given

/-- What is given behind its name makes the command what it is. -/
def CommandOf (given : List (Opt × String)) : Command → Prop
  | .resolve report format record => (.report, report) ∈ given ∧ ValueOf given .format format ∧
      (record = true ↔ Has given .record)
  | .lookup report format ref => (.report, report) ∈ given ∧ ValueOf given .format format ∧
      ∃ word, (.ref, word) ∈ given ∧ IsRef word ref
  | .encode input output => (.input, input) ∈ given ∧ (.output, output) ∈ given
  | .index => True
  | .init force => force = true ↔ Has given .force

/-- What is given in front of the name of a command and behind it; a value behind the name counts
before one in front of it. -/
structure Invokes (outer inner : List (Opt × String)) (invocation : Invocation) : Prop where
  config : ∀ path, invocation.config = some path ↔ (.config, path) ∈ inner ∨
    ¬ Has inner .config ∧ (.config, path) ∈ outer
  database : ∀ path, invocation.flags.database = some path ↔ (.database, path) ∈ inner ∨
    ¬ Has inner .database ∧ (.database, path) ∈ outer
  jsonOutput : invocation.flags.jsonOutput = true ↔ Has (inner ++ outer) .jsonMode
  deterministicIds : invocation.flags.deterministicIds = true ↔ Has inner .deterministic
  quiet : invocation.flags.quiet = true ↔ Has (inner ++ outer) .quiet
  verbose : invocation.flags.verbose = true ↔ Has (inner ++ outer) .verbose

/-- What a command line says: without a command the index is listed. -/
inductive Words : List String → Invocation → Prop where
  | bare {words : List String} {given : List (Opt × String)} {invocation : Invocation} :
      Reads (shared ++ [.version]) commandNames none words given none → Valid given →
      invocation.command = .index → Invokes given [] invocation → Words words invocation
  | named {words rest : List String} {outer inner : List (Opt × String)}
      {invocation : Invocation} :
      Reads (shared ++ [.version]) commandNames none words outer
        (some (invocation.command.name, rest)) → Valid outer →
      Reads (shared ++ optionsOf invocation.command.name) [] none rest inner none → Valid inner →
      CommandOf inner invocation.command → Invokes outer inner invocation → Words words invocation

section Option

theorem long_injective : ∀ o o' : Opt, o.long = o'.long → o = o' := by
  intro o o' h
  cases o <;> cases o' <;> first | rfl | exact absurd h (by decide)

theorem short?_injective : ∀ (o o' : Opt) (c : Char), o.short? = some c → o'.short? = some c →
    o = o' := by
  intro o o' c h h'
  cases o <;> cases o' <;> first | rfl | exact absurd (h.trans h'.symm) (by decide) | cases h

theorem equals_not_mem_long (o : Opt) : '=' ∉ o.long.toList := by
  cases o <;> decide

theorem long_ne_nil (o : Opt) : o.long.toList ≠ [] := by
  cases o <;> decide

theorem short?_ne_dash (o : Opt) : o.short? ≠ some '-' := by
  cases o <;> decide

theorem find?_eq_some_iff_of_unique {α : Type} {p : α → Bool} {l : List α} {a : α}
    (h : ∀ a b, p a = true → p b = true → a = b) : l.find? p = some a ↔ a ∈ l ∧ p a = true := by
  constructor
  · exact fun hf => ⟨List.mem_of_find?_eq_some hf, List.find?_some hf⟩
  · rintro ⟨hm, hp⟩
    have hs : (l.find? p).isSome = true := List.find?_isSome.mpr ⟨a, hm, hp⟩
    obtain ⟨b, hb⟩ := Option.isSome_iff_exists.mp hs
    rw [hb, h a b hp (List.find?_some hb)]

theorem find_long_iff : known.find? (·.long == name) = some o ↔ o ∈ known ∧ o.long = name := by
  rw [find?_eq_some_iff_of_unique, beq_iff_eq]
  intro a b ha hb
  exact long_injective a b ((beq_iff_eq.mp ha).trans (beq_iff_eq.mp hb).symm)

theorem find_short_iff {c : Char} :
    known.find? (·.short? == some c) = some o ↔ o ∈ known ∧ o.short? = some c := by
  rw [find?_eq_some_iff_of_unique, beq_iff_eq]
  exact fun a b ha hb => short?_injective a b c (beq_iff_eq.mp ha) (beq_iff_eq.mp hb)

end Option

section Split

theorem forall_mem_ne_equals (h : '=' ∉ cs) : ∀ c ∈ cs, decide (c ≠ '=') = true := fun _ hc =>
  decide_eq_true (ne_of_mem_of_not_mem hc h)

theorem splitEquals_of_not_mem (h : '=' ∉ cs) :
    Level.splitEquals cs = (String.ofList cs, none) := by
  rw [Level.splitEquals, List.dropWhile_eq_nil_iff.mpr (forall_mem_ne_equals h)]

theorem splitEquals_append {back : List Char} (h : '=' ∉ cs) :
    Level.splitEquals (cs ++ '=' :: back) = (String.ofList cs, some (String.ofList back)) := by
  rw [Level.splitEquals, List.dropWhile_append_of_pos (forall_mem_ne_equals h),
    List.takeWhile_append_of_pos (forall_mem_ne_equals h)]
  simp

end Split

section Gives

theorem ofList_dashes : String.ofList ('-' :: '-' :: o.long.toList) = "--" ++ o.long := by
  apply String.toList_injective
  rw [String.toList_ofList, String.toList_append]
  rfl

theorem ofList_dashes_equals :
    String.ofList ('-' :: '-' :: (o.long.toList ++ '=' :: value.toList)) =
      "--" ++ o.long ++ "=" ++ value := by
  apply String.toList_injective
  simp

theorem Gives.cases_long (h : Gives known (String.ofList ('-' :: '-' :: cs)) given waiting) :
    (∃ o ∈ known, IsSwitch o ∧ cs = o.long.toList ∧ given = [(o, "")] ∧ waiting = none) ∨
      (∃ o ∈ known, ∃ value, o.takesValue = true ∧ cs = o.long.toList ++ '=' :: value ∧
        given = [(o, String.ofList value)] ∧ waiting = none) ∨
      ∃ o ∈ known, o.takesValue = true ∧ cs = o.long.toList ∧ given = [] ∧ waiting = some o := by
  generalize hw : String.ofList ('-' :: '-' :: cs) = word at h
  have hlist := congrArg String.toList hw
  rw [String.toList_ofList] at hlist
  cases h with
  | @switch o hm hs =>
    rw [String.toList_append] at hlist
    exact .inl ⟨o, hm, hs, by simpa using hlist, rfl, rfl⟩
  | @equals o value hm ht =>
    simp only [String.toList_append] at hlist
    refine .inr (.inl ⟨o, hm, value.toList, ht, by simpa using hlist, ?_, rfl⟩)
    rw [String.ofList_toList]
  | @waits o hm ht =>
    rw [String.toList_append] at hlist
    exact .inr (.inr ⟨o, hm, ht, by simpa using hlist, rfl, rfl⟩)
  | letters hl =>
    rw [String.toList_ofList] at hlist
    cases hlist
    cases hl with
    | switch _ hs | equals _ hs | attached _ hs | waits _ hs => exact absurd hs (short?_ne_dash _)

theorem Gives.exists_known (h : Gives known (String.ofList ('-' :: '-' :: cs)) given waiting) :
    ∃ o ∈ known, o.long = (Level.splitEquals cs).1 := by
  rcases h.cases_long with ⟨o, hm, -, rfl, -⟩ | ⟨o, hm, value, -, rfl, -⟩ | ⟨o, hm, -, rfl, -⟩
  · exact ⟨o, hm, by rw [splitEquals_of_not_mem (equals_not_mem_long o), String.ofList_toList]⟩
  · exact ⟨o, hm, by rw [splitEquals_append (equals_not_mem_long o), String.ofList_toList]⟩
  · exact ⟨o, hm, by rw [splitEquals_of_not_mem (equals_not_mem_long o), String.ofList_toList]⟩

theorem gives_long_iff : Gives known ("--" ++ o.long) given waiting ↔
    o ∈ known ∧ (IsSwitch o ∧ given = [(o, "")] ∧ waiting = none ∨
      o.takesValue = true ∧ given = [] ∧ waiting = some o) := by
  constructor
  · intro h
    rw [← ofList_dashes] at h
    rcases h.cases_long with ⟨o', hm, hs, he, h⟩ | ⟨o', -, value, -, he, -⟩ | ⟨o', hm, ht, he, h⟩
    · cases long_injective o o' (String.toList_injective he)
      exact ⟨hm, .inl ⟨hs, h⟩⟩
    · exact absurd (he ▸ by simp) (equals_not_mem_long o)
    · cases long_injective o o' (String.toList_injective he)
      exact ⟨hm, .inr ⟨ht, h⟩⟩
  · rintro ⟨hm, ⟨hs, rfl, rfl⟩ | ⟨ht, rfl, rfl⟩⟩
    · exact .switch hm hs
    · exact .waits hm ht

theorem gives_equals_iff : Gives known ("--" ++ o.long ++ "=" ++ value) given waiting ↔
    o ∈ known ∧ o.takesValue = true ∧ given = [(o, value)] ∧ waiting = none := by
  constructor
  · intro h
    rw [← ofList_dashes_equals] at h
    rcases h.cases_long with ⟨o', -, -, he, -⟩ | ⟨o', hm, value', ht, he, h⟩ | ⟨o', -, -, he, -⟩
    · exact absurd (he ▸ by simp) (equals_not_mem_long o')
    · have hsplit := congrArg Level.splitEquals he
      rw [splitEquals_append (equals_not_mem_long o), splitEquals_append (equals_not_mem_long o'),
        String.ofList_toList, String.ofList_toList, String.ofList_toList] at hsplit
      obtain ⟨hlong, hvalue⟩ := Prod.mk.inj hsplit
      cases long_injective o o' hlong
      rw [← Option.some.inj hvalue] at h
      exact ⟨hm, ht, h⟩
    · exact absurd (he ▸ by simp) (equals_not_mem_long o')
  · rintro ⟨hm, ht, rfl, rfl⟩
    exact .equals hm ht

theorem Gives.letters_of_ne {c : Char} (hc : c ≠ '-')
    (h : Gives known (String.ofList ('-' :: c :: cs)) given waiting) :
    Letters known (c :: cs) given waiting := by
  generalize hw : String.ofList ('-' :: c :: cs) = word at h
  have hlist := congrArg String.toList hw
  rw [String.toList_ofList] at hlist
  cases h with
  | switch | equals | waits =>
    simp only [String.toList_append] at hlist
    exact absurd (List.cons.inj (List.cons.inj hlist).2).1 hc
  | letters hl =>
    rw [String.toList_ofList] at hlist
    cases hlist
    exact hl

/-- A word that gives an option is not plain, and it is more than two dashes. -/
theorem Gives.not_isPlain (h : Gives known word given waiting) : ¬ IsPlain word := by
  intro hp
  cases h with
  | switch | equals | waits => exact hp '-' _ (by simp only [String.toList_append]; rfl)
  | letters => exact hp _ _ String.toList_ofList

theorem not_gives_dashes : ¬ Gives known "--" given waiting := by
  intro h
  rcases @Gives.cases_long known given waiting [] h with
    ⟨o, -, -, he, -⟩ | ⟨o, -, _, -, he, -⟩ | ⟨o, -, -, he, -⟩
  · exact long_ne_nil o he.symm
  · exact absurd he (List.append_ne_nil_of_right_ne_nil _ (List.cons_ne_nil _ _)).symm
  · exact long_ne_nil o he.symm

theorem Letters.mem_known (h : Letters known cs given waiting) :
    (∀ e ∈ given, e.1 ∈ known ∧ e.1.short? ≠ none) ∧
      ∀ o ∈ waiting, (o ∈ known ∧ o.takesValue = true) ∧ o.short? ≠ none := by
  induction h with
  | nil => exact ⟨nofun, nofun⟩
  | switch hm hs _ _ ih => exact ⟨List.forall_mem_cons.mpr ⟨⟨hm, by simp [hs]⟩, ih.1⟩, ih.2⟩
  | equals hm hs | attached hm hs =>
    exact ⟨List.forall_mem_cons.mpr ⟨⟨hm, by simp [hs]⟩, nofun⟩, nofun⟩
  | waits hm hs ht =>
    refine ⟨nofun, ?_⟩
    rintro _ ⟨⟩
    exact ⟨⟨hm, ht⟩, by simp [hs]⟩

theorem Gives.mem_known (h : Gives known word given waiting) :
    (∀ e ∈ given, e.1 ∈ known) ∧ ∀ o ∈ waiting, o ∈ known ∧ o.takesValue = true := by
  cases h with
  | switch hm | equals hm => exact ⟨List.forall_mem_cons.mpr ⟨hm, nofun⟩, nofun⟩
  | waits hm ht =>
    refine ⟨nofun, ?_⟩
    rintro _ ⟨⟩
    exact ⟨hm, ht⟩
  | letters hl => exact ⟨fun e he => (hl.mem_known.1 e he).1, fun o ho => (hl.mem_known.2 o ho).1⟩

theorem Gives.has_iff (h : Gives known word given waiting) (ho : o.short? = none)
    (ht : o.takesValue = false) : word = "--" ++ o.long ↔ Has given o := by
  constructor
  · rintro rfl
    rcases (gives_long_iff.mp h).2 with ⟨-, rfl, -⟩ | ⟨ht', -⟩
    · exact ⟨"", List.mem_singleton_self _⟩
    · cases ht.symm.trans ht'
  · rintro ⟨value, hv⟩
    cases h with
    | switch =>
      cases List.mem_singleton.mp hv
      rfl
    | equals _ ht' =>
      cases List.mem_singleton.mp hv
      cases ht.symm.trans ht'
    | waits => cases hv
    | letters hl => exact absurd ho (hl.mem_known.1 _ hv).2

theorem Gives.mem_iff (h : Gives known word given waiting) (ho : o.short? = none)
    (ht : o.takesValue = true) : word = "--" ++ o.long ++ "=" ++ value ↔ (o, value) ∈ given := by
  constructor
  · rintro rfl
    obtain ⟨-, -, rfl, -⟩ := gives_equals_iff.mp h
    exact List.mem_singleton_self _
  · intro hv
    cases h with
    | switch _ hs =>
      cases List.mem_singleton.mp hv
      cases ht.symm.trans hs.1
    | equals =>
      cases List.mem_singleton.mp hv
      rfl
    | waits => cases hv
    | letters hl => exact absurd ho (hl.mem_known.1 _ hv).2

theorem Gives.waiting_iff (h : Gives known word given waiting) (ho : o.short? = none)
    (ht : o.takesValue = true) : word = "--" ++ o.long ↔ waiting = some o := by
  constructor
  · rintro rfl
    rcases (gives_long_iff.mp h).2 with ⟨hs, -⟩ | ⟨-, -, hw⟩
    · cases ht.symm.trans hs.1
    · exact hw
  · rintro rfl
    cases h with
    | waits => rfl
    | letters hl => exact absurd ho (hl.mem_known.2 _ rfl).2

theorem IsPlain.ne_long (h : IsPlain word) : word ≠ "--" ++ o.long := by
  rintro rfl
  exact h '-' _ (by rw [String.toList_append]; rfl)

theorem IsPlain.ne_equals (h : IsPlain word) : word ≠ "--" ++ o.long ++ "=" ++ value := by
  rintro rfl
  exact h '-' _ (by simp only [String.toList_append]; rfl)

end Gives

theorem has_append : Has (given ++ more) o ↔ Has given o ∨ Has more o := by
  simp only [Has, List.mem_append, exists_or]

theorem isPlain_of_head? (h : word.toList.head? ≠ some '-') : IsPlain word := by
  intro c cs hw
  rw [hw] at h
  exact h rfl

theorem isPlain_of_mem_commandNames (h : name ∈ commandNames) : IsPlain name := by
  have hall : ∀ name ∈ commandNames, name.toList.head? ≠ some '-' := by decide +kernel
  exact isPlain_of_head? (hall name h)

/-- A value is behind the name of its option, in the same word or in the next. -/
def Names (o : Opt) (value : String) (words : List String) : Prop :=
  "--" ++ o.long ++ "=" ++ value ∈ words ∨ ["--" ++ o.long, value] <:+: words

theorem names_cons_iff : Names o value (word :: words) ↔
    word = "--" ++ o.long ++ "=" ++ value ∨
      (word = "--" ++ o.long ∧ words.head? = some value) ∨ Names o value words := by
  have hhead : [value] <+: words ↔ words.head? = some value := by
    cases words <;> simp [List.cons_prefix_cons, eq_comm]
  rw [Names, List.mem_cons, List.infix_cons_iff, List.cons_prefix_cons, hhead, Names, or_or_or_comm,
    ← or_assoc, eq_comm, @eq_comm _ ("--" ++ o.long) word]
  tauto

theorem Valid.eq_of_mem {value' : String} (h : Valid given) (hm : (o, value) ∈ given)
    (hm' : (o, value') ∈ given) : value = value' := by
  rw [← List.lookup_eq_some_iff_mem h.nodup] at hm hm'
  exact Option.some.inj (hm.symm.trans hm')

namespace Reads

theorem of_commands {commands' : List String} (h : Reads known commands waiting words given rest)
    (hc : ∀ r ∈ rest, r.1 ∈ commands → r.1 ∈ commands') :
    Reads known commands' waiting words given rest := by
  induction h with
  | all => exact .all
  | dashes => exact .dashes
  | command hm => exact .command (hc _ rfl hm)
  | option hg _ ih => exact .option hg (ih hc)
  | value hp _ ih => exact .value hp (ih hc)

variable {r : String × List String}

theorem mem_commands (h : Reads known commands waiting words given (some r)) :
    r.1 ∈ commands := by
  generalize hr : some r = rest at h
  induction h with
  | all | dashes => cases hr
  | command hm =>
    cases hr
    exact hm
  | option _ _ ih | value _ _ ih => exact ih hr

theorem mem_words (h : Reads known commands waiting words given (some r)) : r.1 ∈ words := by
  generalize hr : some r = rest at h
  induction h with
  | all | dashes => cases hr
  | command =>
    cases hr
    exact List.mem_cons_self
  | option _ _ ih | value _ _ ih => exact List.mem_cons_of_mem _ (ih hr)

theorem mem_known (h : Reads known commands waiting words given rest)
    (hw : ∀ o ∈ waiting, o ∈ known) : ∀ e ∈ given, e.1 ∈ known := by
  induction h with
  | all | dashes | command => exact nofun
  | option hg _ ih =>
    have hword := hg.mem_known
    intro e he
    rcases List.mem_append.mp he with he | he
    · exact hword.1 e he
    · exact ih (fun o ho => (hword.2 o ho).1) e he
  | value _ _ ih =>
    rintro e (_ | ⟨_, he⟩)
    · exact hw _ rfl
    · exact ih nofun e he

/-- An option that has no letter is switched on by its name. -/
theorem has_iff (h : Reads known commands waiting words given rest)
    (hc : ∀ name ∈ commands, IsPlain name) (hw : ∀ o ∈ waiting, o.takesValue = true)
    (ho : o.short? = none) (ht : o.takesValue = false) :
    "--" ++ o.long ∈ words ↔ Has given o ∨ ∃ r ∈ rest, "--" ++ o.long ∈ r.2 := by
  induction h with
  | all => simp [Has]
  | dashes =>
    have hne : "--" ++ o.long ≠ "--" := by cases o <;> decide
    simp [Has, hne]
  | command hm => simp [Has, (hc _ hm).ne_long.symm]
  | option hg _ ih =>
    rw [List.mem_cons, ih (fun o ho => (hg.mem_known.2 o ho).2), has_append, or_assoc, eq_comm,
      hg.has_iff ho ht]
  | @value o' word _ _ _ hp _ ih =>
    have hne : o' ≠ o := by
      rintro rfl
      cases ht.symm.trans (hw _ rfl)
    have hcons : ∀ given, Has ((o', word) :: given) o ↔ Has given o := fun given => by
      simp [Has, hne.symm]
    rw [List.mem_cons, ih nofun, hcons, or_iff_right hp.ne_long.symm]

/-- Behind the name of an option that has no letter stands its value. -/
theorem names_iff (value : String) (h : Reads known commands waiting words given rest)
    (hc : ∀ name ∈ commands, IsPlain name) (ho : o.short? = none) (ht : o.takesValue = true) :
    Names o value words ∨ waiting = some o ∧ words.head? = some value ↔
      (o, value) ∈ given ∨ ∃ r ∈ rest, Names o value r.2 := by
  -- A word that is plain can neither name the option nor hold its value behind a sign.
  have hnil : ¬ Names o value [] := by simp [Names]
  induction h with
  | all => simp [hnil]
  | dashes =>
    have hne : "--" ≠ "--" ++ o.long := by cases o <;> decide
    have hne' : "--" ≠ "--" ++ o.long ++ "=" ++ value := by
      intro he
      have hlist := congrArg (List.length ∘ String.toList) he
      simp at hlist
    simp [names_cons_iff, hnil, hne, hne']
  | command hm =>
    simp [names_cons_iff, (hc _ hm).ne_long, (hc _ hm).ne_equals]
  | option hg _ ih =>
    rw [List.mem_append, or_assoc]
    refine Iff.trans ?_ (or_congr (hg.mem_iff ho ht) ih)
    rw [names_cons_iff, hg.waiting_iff ho ht]
    simp [or_comm]
  | @value o' word _ _ _ hp _ ih =>
    rw [List.mem_cons, or_assoc]
    refine Iff.trans ?_ (or_congr Iff.rfl ih)
    simp [names_cons_iff, hp.ne_long, hp.ne_equals, and_comm, or_comm, eq_comm]

variable {known' : List Opt} {inner : List (Opt × String)} {tail : List String}

theorem not_mem_of_not_mem_known (h : Reads known commands none words given rest)
    (ho : o ∉ known) : (o, value) ∉ given := fun hm => ho (h.mem_known nofun _ hm)

theorem has_iff_of_command (h : Reads known commands none words given (some (name, tail)))
    (h' : Reads known' [] none tail inner none) (hc : ∀ name ∈ commands, IsPlain name)
    (hk : o ∉ known) (ho : o.short? = none) (ht : o.takesValue = false) :
    "--" ++ o.long ∈ words ↔ Has inner o := by
  have hnot : ¬ Has given o := fun ⟨_, hm⟩ => h.not_mem_of_not_mem_known hk hm
  have hinner := h'.has_iff nofun nofun ho ht
  simp only [Option.mem_def, reduceCtorEq, false_and, exists_false, or_false] at hinner
  rw [h.has_iff hc nofun ho ht, or_iff_right hnot, ← hinner]
  simp

theorem names_iff_of_command (value : String)
    (h : Reads known commands none words given (some (name, tail)))
    (h' : Reads known' [] none tail inner none)
    (hc : ∀ name ∈ commands, IsPlain name) (hk : o ∉ known) (ho : o.short? = none)
    (ht : o.takesValue = true) :
    Names o value words ↔ (o, value) ∈ inner := by
  have houter := h.names_iff value hc ho ht
  have hinner := h'.names_iff value nofun ho ht
  simp only [reduceCtorEq, false_and, or_false, Option.mem_def, exists_false] at houter hinner
  rw [houter, or_iff_right (h.not_mem_of_not_mem_known hk), ← hinner]
  simp

end Reads

namespace Words

/-- Without the name of a command the index is listed. -/
theorem index_of_no_command (h : Words words invocation)
    (hn : ∀ name ∈ commandNames, name ∉ words) : invocation.command = .index := by
  cases h with
  | bare _ _ hc => exact hc
  | named hr => exact absurd hr.mem_words (hn _ hr.mem_commands)

variable {report : Path} {format : Option String}

/-- A resolution is recorded if that is asked for. -/
theorem record_iff {record : Bool} (h : Words words invocation)
    (hc : invocation.command = .resolve report format record) :
    record = true ↔ "--record" ∈ words := by
  cases h with
  | bare _ _ hi => cases hc.symm.trans hi
  | named hr _ hr' _ hcommand =>
    rw [hc] at hcommand
    have hknown : Opt.record ∉ shared ++ [Opt.version] := by decide
    have hwords := hr.has_iff_of_command hr' (fun _ => isPlain_of_mem_commandNames) hknown rfl rfl
    rw [show "--" ++ Opt.record.long = "--record" by decide] at hwords
    exact hcommand.2.2.trans hwords.symm

/-- A component is looked up by the number that is given. -/
theorem isRef_of_names {ref : Ref} (h : Words words invocation)
    (hc : invocation.command = .lookup report format ref) :
    (∃ word, Names .ref word words) ∧ ∀ word, Names .ref word words → IsRef word ref := by
  cases h with
  | bare _ _ hi => cases hc.symm.trans hi
  | named hr _ hr' hv' hcommand =>
    rw [hc] at hcommand
    obtain ⟨-, -, number, hm, href⟩ := hcommand
    have hknown : Opt.ref ∉ shared ++ [Opt.version] := by decide
    have hwords := fun word =>
      hr.names_iff_of_command word hr' (fun _ => isPlain_of_mem_commandNames) hknown rfl rfl
    refine ⟨⟨number, (hwords number).mpr hm⟩, fun word hword => ?_⟩
    rwa [hv'.eq_of_mem ((hwords word).mp hword) hm]

end Words

end Arguments

end ComponentIdentity
